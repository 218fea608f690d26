import Mathlib
import ShareCovenant.Proofs.Covenant.Binding

/-!
# Splitting an amount

The branch for amounts above the largest one, on elements of any content. It goes on if and only if the
outputs are two amounts, each before the length and the bytes of this contract's own locking script, and
the amount is the sum that the limbs of the two amounts and the fee make.
-/

namespace ShareCovenant.Covenant

open Program
open Node (ofOpcode checking)
open Number (value IsOperand isOperand_natCast)

variable {suite : Suite} {ctx : Option SpendContext} {p : Program} {s t : Stack}

/-! ## Limbs -/

/-- The number of values of a limb of three bytes. -/
def limbBase : Nat := 256 ^ 3

theorem decode_lt_limbBase {limb : Bytes} (h : limb.length = 3) : LittleEndian.decode limb < limbBase := by
  have := LittleEndian.decode_lt limb
  rwa [h] at this

theorem isOperand_limb {limb : Bytes} (h : limb.length = 3) : IsOperand (value (limb ++ [0])) := by
  have hlt := decode_lt_limbBase h
  unfold limbBase at hlt
  rw [Number.value_append_zero]
  exact isOperand_natCast (by omega)

theorem encode_eq_limb_append (n : Nat) :
    LittleEndian.encode 4 n = LittleEndian.encode 3 n ++ LittleEndian.encode 1 (n / limbBase) :=
  LittleEndian.encode_add 3 1 n

/-- The carry is below the sign bit of its byte. -/
theorem value_carry {n : Nat} (h : n < 0x80000000) :
    value (LittleEndian.encode 1 (n / limbBase)) = (n / limbBase : Nat) := by
  have hcarry : n / limbBase < 128 * 256 ^ 0 := by
    unfold limbBase
    omega
  exact Number.value_encode_of_lt hcarry

theorem isOperand_carry {n : Nat} (h : n < 0x80000000) :
    IsOperand (value (LittleEndian.encode 1 (n / limbBase))) := by
  rw [value_carry h]
  exact isOperand_natCast (Nat.lt_of_le_of_lt (Nat.div_le_self _ _) h)

/-- A limb comes off an amount as a number that is not negative. -/
theorem run_takeLimb {limb rest below : Bytes} (h : limb.length = 3) :
    run suite ctx (takeLimb ++ p) ((limb ++ rest) :: below :: s) =
      run suite ctx p (below :: Number.encode (LittleEndian.decode limb : Nat) :: rest :: s) := by
  simp only [takeLimb, List.cons_append, List.nil_append]
  rw [run_split_append 3 (by rw [h]; rfl) (by decide), run_swap, run_data, run_cat (by simp [h, maxElementSize]),
    run_binToNum (isOperand_limb h), run_rot, Number.value_append_zero]

/-- Cutting a sum of limbs leaves the carry on top of the limb. -/
theorem run_cutLimb {n : Nat} (h : n < 0x80000000) :
    run suite ctx (.num 4 :: ofOpcode .numToBin :: .num 3 :: ofOpcode .split :: ofOpcode .binToNum :: p)
        (Number.encode n :: s) = .ok t ↔
      run suite ctx p (Number.encode (n / limbBase : Nat) :: LittleEndian.encode 3 n :: s) = .ok t := by
  rw [run_numToBin_iff 4 4 rfl (by decide), Number.value_encode, Number.resize_encode (k := 3) (by omega)]
  simp only [Except.ok.injEq, exists_eq_left']
  rw [encode_eq_limb_append, run_split_append 3 (by rw [LittleEndian.length_encode]; rfl) (by decide),
    run_binToNum (isOperand_carry h), value_carry h]

/-! ## Two amounts and the fee -/

/-- The sum of two amounts and the fee as the program computes it, unless the top part does not fit into
two bytes. -/
def limbSum (fee : Nat) (a₁ a₂ : Bytes) : Except ScriptError Bytes := do
  let low := LittleEndian.decode (a₁.take 3) + LittleEndian.decode (a₂.take 3) + fee
  let middle := LittleEndian.decode ((a₁.drop 3).take 3) + LittleEndian.decode ((a₂.drop 3).take 3) +
    low / limbBase
  let high ← Number.resize
    (Number.encode (value (a₁.drop 6) + value (a₂.drop 6) + (middle / limbBase : Nat))) 2
  return LittleEndian.encode 3 low ++ (LittleEndian.encode 3 middle ++ high)

/-- The length and the bytes of the locking script of a contract, taken from the script of the contract
after its length. -/
def ownScript (suite : Suite) (script : Bytes) : Bytes :=
  ownScriptStart ++ ((suite.hash160 script).val ++ [Opcode.equal.code])

theorem length_ownScript (script : Bytes) : (ownScript suite script).length = 24 := by
  simp [ownScript, ownScriptStart, (suite.hash160 script).property]

/-- The outputs are two amounts of the contract's own that add up to the amount. -/
def Splits (suite : Suite) (fee : Nat) (scriptCode amount outputs : Bytes) : Prop :=
  ∃ size script a₁ a₂ : Bytes, scriptCode = size ++ script ∧ size.length = 3 ∧
    a₁.length = 8 ∧ a₂.length = 8 ∧
    outputs = a₁ ++ (ownScript suite script ++ (a₂ ++ ownScript suite script)) ∧
    limbSum fee a₁ a₂ = .ok amount

/-- The part of the branch that adds the amounts up. -/
def addUp (fee : Int) : Program :=
  takeLimb ++ takeLimb ++
  [ofOpcode .add, .num fee, ofOpcode .add, .num 4, ofOpcode .numToBin, .num 3, ofOpcode .split,
   ofOpcode .binToNum, ofOpcode .swap2] ++
  takeLimb ++ takeLimb ++
  [ofOpcode .add, .num 3, ofOpcode .roll, ofOpcode .add, .num 4, ofOpcode .numToBin, .num 3,
   ofOpcode .split, ofOpcode .binToNum, ofOpcode .swap2,
   ofOpcode .binToNum, ofOpcode .swap, ofOpcode .binToNum, ofOpcode .add, ofOpcode .add,
   .num 2, ofOpcode .numToBin, ofOpcode .cat, ofOpcode .cat]

theorem exists_limbs {a : Bytes} (h : a.length = 8) :
    ∃ l m r : Bytes, a = l ++ (m ++ r) ∧ l.length = 3 ∧ m.length = 3 ∧ r.length = 2 := by
  refine ⟨a.take 3, (a.drop 3).take 3, (a.drop 3).drop 3, ?_, ?_, ?_, ?_⟩
  · rw [List.take_append_drop, List.take_append_drop]
  all_goals simp [h]

theorem limbSum_append {l₁ m₁ r₁ l₂ m₂ r₂ : Bytes} (hl₁ : l₁.length = 3) (hm₁ : m₁.length = 3)
    (hl₂ : l₂.length = 3) (hm₂ : m₂.length = 3) (fee : Nat) :
    limbSum fee (l₁ ++ (m₁ ++ r₁)) (l₂ ++ (m₂ ++ r₂)) =
      let low := LittleEndian.decode l₁ + LittleEndian.decode l₂ + fee
      let middle := LittleEndian.decode m₁ + LittleEndian.decode m₂ + low / limbBase
      (Number.resize (Number.encode (value r₁ + value r₂ + (middle / limbBase : Nat))) 2).map fun high =>
        LittleEndian.encode 3 low ++ (LittleEndian.encode 3 middle ++ high) := by
  have hdrop : ∀ {l m r : Bytes}, l.length = 3 → m.length = 3 → (l ++ (m ++ r)).drop 6 = r := by
    intro l m r hl hm
    rw [← List.append_assoc]
    exact List.drop_left' (by simp [hl, hm])
  simp only [limbSum, List.take_left' hl₁, List.take_left' hl₂, List.drop_left' hl₁, List.drop_left' hl₂,
    List.take_left' hm₁, List.take_left' hm₂, hdrop hl₁ hm₁, hdrop hl₂ hm₂]
  cases Number.resize _ 2 <;> rfl

/-- The largest fee is the one that keeps the sum of the low limbs in range. -/
theorem low_lt {fee : Nat} (hfee : fee ≤ Terms.maxFee) {l₁ l₂ : Bytes} (h₁ : l₁.length = 3)
    (h₂ : l₂.length = 3) : LittleEndian.decode l₁ + LittleEndian.decode l₂ + fee < 0x80000000 := by
  have hl₁ : LittleEndian.decode l₁ < 16777216 := decode_lt_limbBase h₁
  have hl₂ : LittleEndian.decode l₂ < 16777216 := decode_lt_limbBase h₂
  have hfee' : fee ≤ 2113929217 := hfee
  omega

/-- The carry of the low limbs takes at most seven bits, which leaves room in the sum of the middle ones. -/
theorem middle_lt {low : Nat} (hlow : low < 0x80000000) {m₁ m₂ : Bytes} (h₁ : m₁.length = 3)
    (h₂ : m₂.length = 3) :
    LittleEndian.decode m₁ + LittleEndian.decode m₂ + low / limbBase < 0x40000000 := by
  have hm₁ : LittleEndian.decode m₁ < 16777216 := decode_lt_limbBase h₁
  have hm₂ : LittleEndian.decode m₂ < 16777216 := decode_lt_limbBase h₂
  have hcarry : low / limbBase < 128 := Nat.div_lt_of_lt_mul hlow
  omega

theorem natAbs_high_lt {r₁ r₂ : Bytes} (h₁ : r₁.length = 2) (h₂ : r₂.length = 2) :
    (value r₁ + value r₂).natAbs < 0x10000 := by
  have hr₁ := Number.natAbs_value_lt (k := 1) h₁
  have hr₂ := Number.natAbs_value_lt (k := 1) h₂
  omega

theorem isOperand_value {r : Bytes} (h : r.length = 2) : IsOperand (value r) :=
  (Number.natAbs_value_lt (k := 1) h).trans (by decide)

theorem run_addUp_iff {fee : Nat} (hfee : fee ≤ Terms.maxFee) {a₁ a₂ : Bytes} (h₁ : a₁.length = 8)
    (h₂ : a₂.length = 8) :
    run suite ctx (addUp fee ++ p) (a₂ :: a₁ :: s) = .ok t ↔
      ∃ amount, limbSum fee a₁ a₂ = .ok amount ∧ run suite ctx p (amount :: s) = .ok t := by
  obtain ⟨l₁, m₁, r₁, rfl, hl₁, hm₁, hr₁⟩ := exists_limbs h₁
  obtain ⟨l₂, m₂, r₂, rfl, hl₂, hm₂, hr₂⟩ := exists_limbs h₂
  rw [limbSum_append hl₁ hm₁ hl₂ hm₂]
  have hlow := low_lt hfee hl₁ hl₂
  have hmiddle := middle_lt hlow hm₂ hm₁
  have hhigh : (LittleEndian.decode m₂ + LittleEndian.decode m₁ +
      (LittleEndian.decode l₁ + LittleEndian.decode l₂ + fee) / limbBase) / limbBase < 64 :=
    Nat.div_lt_of_lt_mul hmiddle
  -- limb by limb from the low end: the bound of each sum makes its carry an operand of the next one
  simp only [addUp, List.append_assoc, List.cons_append, List.nil_append]
  rw [run_takeLimb hl₂, run_takeLimb hl₁, run_add_natCast (Nat.lt_of_le_of_lt (Nat.le_add_right _ _) hlow),
    run_num, run_add_natCast hlow, run_cutLimb hlow, run_swap2, run_takeLimb hm₁, run_takeLimb hm₂,
    run_add_natCast (Nat.lt_of_le_of_lt (Nat.le_add_right _ _) (hmiddle.trans (by decide))),
    run_roll 3 (by decide) (by decide) rfl]
  simp only [Int.reduceToNat, List.eraseIdx]
  rw [run_add_natCast (hmiddle.trans (by decide)), run_cutLimb (hmiddle.trans (by decide)), run_swap2,
    run_binToNum (isOperand_value hr₂), run_swap, run_binToNum (isOperand_value hr₁),
    run_add (isOperand_value hr₂) (isOperand_value hr₁),
    run_add (isOperand_natCast (hhigh.trans (by decide))) ((natAbs_high_lt hr₂ hr₁).trans (by decide)),
    run_numToBin_iff 2 2 rfl (by decide), Number.value_encode]
  have hmiddleComm : LittleEndian.decode m₂ + LittleEndian.decode m₁ =
    LittleEndian.decode m₁ + LittleEndian.decode m₂ := Nat.add_comm _ _
  have hhighComm : ∀ c : Int, c + (value r₂ + value r₁) = value r₁ + value r₂ + c := fun c => by ring
  simp only [hmiddleComm, hhighComm]
  cases hresize : Number.resize _ 2 with
  | error e => simp [Except.map]
  | ok high =>
      have hlen := (Number.value_of_resize hresize).1
      simp only [Except.map, Except.ok.injEq, exists_eq_left']
      rw [run_cat (by simp [hlen, maxElementSize]), run_cat (by simp [hlen, maxElementSize])]

/-! ## The whole branch -/

/-- The part of the branch that compares the locking scripts of the outputs and leaves their amounts. -/
def ownOutputs : Program :=
  [.data ownScriptStart, ofOpcode .rot, .num 3, ofOpcode .split, ofOpcode .nip, ofOpcode .hash160,
   .data [Opcode.equal.code], ofOpcode .cat, ofOpcode .cat,
   ofOpcode .rot, .num 8, ofOpcode .split, .num 24, ofOpcode .split, .num 8, ofOpcode .split,
   ofOpcode .rot, ofOpcode .dup, .num 5, ofOpcode .roll, checking .equalVerify, checking .equalVerify]

theorem overflowSplit_eq (fee : Int) :
    overflowSplit fee = ownOutputs ++ addUp fee ++ [checking .equalVerify] := by
  simp [overflowSplit, ownOutputs, addUp]

theorem run_joinOwnScript {script : Bytes} :
    run suite ctx (ofOpcode .cat :: ofOpcode .cat :: p)
        ([Opcode.equal.code] :: (suite.hash160 script).val :: ownScriptStart :: s) =
      run suite ctx p (ownScript suite script :: s) := by
  have hlen := (suite.hash160 script).property
  rw [run_cat (by rw [hlen]; decide), run_cat (by rw [List.length_append, hlen]; decide)]
  rfl

/-- The comparison goes on with two amounts, each before the contract's own script. -/
theorem run_ownOutputs_iff {amount scriptCode outputs : Bytes} :
    run suite ctx (ownOutputs ++ p) (amount :: scriptCode :: outputs :: s) = .ok t ↔
      ∃ size script a₁ a₂ : Bytes, scriptCode = size ++ script ∧ size.length = 3 ∧ a₁.length = 8 ∧
        a₂.length = 8 ∧ outputs = a₁ ++ (ownScript suite script ++ (a₂ ++ ownScript suite script)) ∧
        run suite ctx p (a₂ :: a₁ :: amount :: s) = .ok t := by
  simp only [ownOutputs, List.cons_append, List.nil_append, run_data, run_rot]
  rw [run_split_at_iff 3 3 rfl (by decide)]
  simp only [run_nip, run_hash160, run_data]
  constructor
  · rintro ⟨size, script, rfl, hsize, hrun⟩
    rw [run_joinOwnScript, run_rot, run_split_at_iff 8 8 rfl (by decide)] at hrun
    obtain ⟨a₁, rest₁, rfl, h₁, hrun⟩ := hrun
    rw [run_split_at_iff 24 24 rfl (by decide)] at hrun
    obtain ⟨own₁, rest₂, rfl, hown₁, hrun⟩ := hrun
    rw [run_split_at_iff 8 8 rfl (by decide)] at hrun
    obtain ⟨a₂, own₂, rfl, h₂, hrun⟩ := hrun
    rw [run_rot, run_dup, run_roll 5 (by decide) (by decide) rfl] at hrun
    simp only [Int.reduceToNat, List.eraseIdx] at hrun
    rw [run_equalVerify_iff, run_equalVerify_iff] at hrun
    obtain ⟨rfl, rfl, hrun⟩ := hrun
    exact ⟨size, script, a₁, a₂, rfl, hsize, h₁, h₂, rfl, hrun⟩
  · rintro ⟨size, script, a₁, a₂, rfl, hsize, h₁, h₂, rfl, hrun⟩
    refine ⟨size, script, rfl, hsize, ?_⟩
    rw [run_joinOwnScript, run_rot, run_split_append 8 (by rw [h₁]; rfl) (by decide),
      run_split_append 24 (by rw [length_ownScript]; rfl) (by decide),
      run_split_append 8 (by rw [h₂]; rfl) (by decide), run_rot, run_dup,
      run_roll 5 (by decide) (by decide) rfl]
    simp only [Int.reduceToNat, List.eraseIdx]
    rw [run_equalVerify_iff, run_equalVerify_iff]
    exact ⟨rfl, rfl, hrun⟩

theorem run_overflowSplit_iff {fee : Nat} (hfee : fee ≤ Terms.maxFee) {amount scriptCode outputs : Bytes} :
    run suite ctx (overflowSplit fee ++ p) (amount :: scriptCode :: outputs :: s) = .ok t ↔
      Splits suite fee scriptCode amount outputs ∧ run suite ctx p s = .ok t := by
  rw [overflowSplit_eq, List.append_assoc, List.append_assoc, run_ownOutputs_iff]
  simp only [List.cons_append, List.nil_append]
  constructor
  · rintro ⟨size, script, a₁, a₂, hcode, hsize, h₁, h₂, houtputs, hrun⟩
    rw [run_addUp_iff hfee h₁ h₂] at hrun
    obtain ⟨amount', hsum, hrun⟩ := hrun
    rw [run_equalVerify_iff] at hrun
    obtain ⟨rfl, hrun⟩ := hrun
    exact ⟨⟨size, script, a₁, a₂, hcode, hsize, h₁, h₂, houtputs, hsum⟩, hrun⟩
  · rintro ⟨⟨size, script, a₁, a₂, hcode, hsize, h₁, h₂, houtputs, hsum⟩, hrun⟩
    refine ⟨size, script, a₁, a₂, hcode, hsize, h₁, h₂, houtputs, ?_⟩
    rw [run_addUp_iff hfee h₁ h₂]
    exact ⟨amount, hsum, (run_equalVerify_iff _ _).2 ⟨rfl, hrun⟩⟩

/-! ## Amounts as they are read -/

theorem encode_eight (v : Nat) :
    LittleEndian.encode 8 v = LittleEndian.encode 3 v ++
      (LittleEndian.encode 3 (v / limbBase) ++ LittleEndian.encode 2 (v / limbBase / limbBase)) := by
  rw [show (8 : Nat) = 3 + (3 + 2) from rfl, LittleEndian.encode_add, LittleEndian.encode_add]
  rfl

/-- What the sum takes an amount for: the limbs are read without a sign, the two top bytes with one. -/
def signedAmount (v : Nat) : Int :=
  (v % limbBase : Nat) + limbBase * ((v / limbBase % limbBase : Nat) +
    limbBase * value (LittleEndian.encode 2 (v / limbBase / limbBase)))

/-- An amount with a free top bit is taken for what it is. -/
theorem signedAmount_of_lt {v : Nat} (h : v < 2 ^ 63) : signedAmount v = v := by
  have hbase : limbBase = 16777216 := rfl
  have htop : v / limbBase / limbBase < 128 * 256 ^ 1 := by
    rw [hbase]
    omega
  rw [signedAmount, Number.value_encode_of_lt htop, hbase]
  omega

/-- The top bit makes the top bytes of an amount count as negative, but not the limbs. -/
theorem signedAmount_of_ge {v : Nat} (hge : 2 ^ 63 ≤ v) (hlt : v < 2 ^ 64) :
    signedAmount v = (v % 2 ^ 48 : Nat) - 2 ^ 48 * ((v - 2 ^ 63) / 2 ^ 48 : Nat) := by
  have hbase : limbBase = 16777216 := rfl
  have htop : 128 * 256 ^ 1 ≤ v / limbBase / limbBase ∧ v / limbBase / limbBase < 256 ^ (1 + 1) := by
    rw [hbase]
    omega
  rw [signedAmount, Number.value_encode_of_ge htop.1 htop.2, hbase]
  omega

/-- Filling up to two bytes makes the bytes of a number of that number alone. -/
theorem resize_two_iff {n : Int} {w : Nat} (h : w < 0x8000) :
    Number.resize (Number.encode n) 2 = .ok (LittleEndian.encode 2 w) ↔ n = w := by
  have hvalue : value (LittleEndian.encode 2 w) = w := Number.value_encode_of_lt (k := 1) h
  constructor
  · intro hresize
    rw [← (Number.value_of_resize hresize).2, hvalue]
  · rintro rfl
    exact Number.resize_encode (k := 1) h

/-- The limbs of two amounts and a fee make an amount with a free top bit if and only if it is their sum. -/
theorem limbSum_eq_ok_iff {fee v₁ v₂ v : Nat} (h : v < 2 ^ 63) :
    limbSum fee (LittleEndian.encode 8 v₁) (LittleEndian.encode 8 v₂) = .ok (LittleEndian.encode 8 v) ↔
      signedAmount v₁ + signedAmount v₂ + fee = v := by
  have hdecode : ∀ v, LittleEndian.decode (LittleEndian.encode 3 v) = v % limbBase := fun v =>
    LittleEndian.decode_encode 3 v
  have hlimb : ∀ {m n}, LittleEndian.encode 3 m = LittleEndian.encode 3 n ↔ m % limbBase = n % limbBase :=
    fun {m n} => ⟨fun h => by rw [← hdecode, h, hdecode], LittleEndian.encode_congr⟩
  have hbase : limbBase = 16777216 := rfl
  have htop : v / limbBase / limbBase < 0x8000 := by
    rw [hbase]
    omega
  rw [encode_eight v₁, encode_eight v₂, encode_eight v, limbSum_append (LittleEndian.length_encode _ _)
    (LittleEndian.length_encode _ _) (LittleEndian.length_encode _ _) (LittleEndian.length_encode _ _)]
  simp only [hdecode, signedAmount]
  generalize value (LittleEndian.encode 2 (v₁ / limbBase / limbBase)) = r₁
  generalize value (LittleEndian.encode 2 (v₂ / limbBase / limbBase)) = r₂
  generalize hlow : v₁ % limbBase + v₂ % limbBase + fee = low
  generalize hmiddle : v₁ / limbBase % limbBase + v₂ / limbBase % limbBase + low / limbBase = middle
  -- the carries cancel: limb by limb, the sums are those of the amount
  have hsum : (Number.resize (Number.encode (r₁ + r₂ + (middle / limbBase : Nat))) 2).map
        (fun high => LittleEndian.encode 3 low ++ (LittleEndian.encode 3 middle ++ high)) =
        .ok (LittleEndian.encode 3 v ++ (LittleEndian.encode 3 (v / limbBase) ++
          LittleEndian.encode 2 (v / limbBase / limbBase))) ↔
      low % limbBase = v % limbBase ∧ middle % limbBase = v / limbBase % limbBase ∧
        r₁ + r₂ + (middle / limbBase : Nat) = (v / limbBase / limbBase : Nat) := by
    rw [← hlimb, ← hlimb, ← resize_two_iff htop]
    cases Number.resize (Number.encode (r₁ + r₂ + (middle / limbBase : Nat))) 2 with
    | error e => simp [Except.map]
    | ok high =>
        simp only [Except.map, Except.ok.injEq]
        constructor
        · intro heq
          obtain ⟨h₁, heq⟩ := List.append_inj heq (by simp)
          obtain ⟨h₂, h₃⟩ := List.append_inj heq (by simp)
          exact ⟨h₁, h₂, h₃⟩
        · rintro ⟨h₁, h₂, h₃⟩
          rw [h₁, h₂, h₃]
  rw [hsum, hbase] at *
  omega

end ShareCovenant.Covenant
