import Mathlib
import ShareCovenant.Proofs.Covenant.Overflow
import ShareCovenant.Proofs.Script.Range

/-!
# Head room of the sum

Whenever the branch for amounts that are split accepts, it stays in range: no sum of limbs, with the fee and
the carries, is longer than the numbers that arithmetic takes, and each sum fits the size that it is written in.
At the largest fee there is no room left.
-/

namespace ShareCovenant.Covenant

open Program
open Node (ofOpcode checking)
open Number (encode value IsOperand isOperand_natCast)

variable {suite : Suite} {ctx : Option SpendContext} {s t : Stack}

theorem runsInRange_takeLimb {limb rest below : Bytes} (h : limb.length = 3) :
    RunsInRange suite ctx takeLimb ((limb ++ rest) :: below :: s)
      (below :: encode (LittleEndian.decode limb : Nat) :: rest :: s) := by
  have hcut : RunsInRange suite ctx [.num 3, ofOpcode .split, ofOpcode .swap, .data [0x00], ofOpcode .cat]
      ((limb ++ rest) :: below :: s) ((limb ++ [0]) :: rest :: below :: s) := by
    refine .of_run rfl ?_
    rw [run_split_append 3 (by rw [h]; rfl) (by decide), run_swap, run_data,
      run_cat (by simp [h, maxElementSize]), run_nil]
  have hrot : RunsInRange suite ctx [ofOpcode .rot] (encode (LittleEndian.decode limb : Nat) :: rest :: below :: s)
      (below :: encode (LittleEndian.decode limb : Nat) :: rest :: s) := .of_run rfl (run_rot _ _ _)
  rw [← Number.value_append_zero limb] at hrot ⊢
  exact (hcut.append (.binToNum (isOperand_limb h))).append hrot

/-- A sum of limbs is written in four bytes, and its carry is computed from the last one. -/
theorem runsInRange_cutLimb {n : Nat} (h : n < 0x80000000) :
    RunsInRange suite ctx [.num 4, ofOpcode .numToBin, .num 3, ofOpcode .split, ofOpcode .binToNum]
      (encode n :: s) (encode (n / limbBase : Nat) :: LittleEndian.encode 3 n :: s) := by
  have hwrite : RunsInRange suite ctx [.num 4, ofOpcode .numToBin] (encode n :: s)
      (LittleEndian.encode 4 n :: s) := by
    refine .numToBin 4 4 rfl (by decide) ?_
    rw [Number.value_encode, Number.resize_encode (k := 3) (by omega)]
  have hsplit : RunsInRange suite ctx [.num 3, ofOpcode .split] (LittleEndian.encode 4 n :: s)
      (LittleEndian.encode 1 (n / limbBase) :: LittleEndian.encode 3 n :: s) := by
    refine .of_run rfl ?_
    rw [encode_eq_limb_append, run_split_append 3 (by rw [LittleEndian.length_encode]; rfl) (by decide), run_nil]
  rw [← value_carry h]
  exact (hwrite.append hsplit).append (.binToNum (isOperand_carry h))

theorem runsInRange_low {fee : Nat} {l₁ l₂ x₁ x₂ : Bytes} (h₁ : l₁.length = 3) (h₂ : l₂.length = 3)
    (hlow : LittleEndian.decode l₁ + LittleEndian.decode l₂ + fee < 0x80000000) :
    RunsInRange suite ctx (takeLimb ++ takeLimb ++ [ofOpcode .add, .num fee, ofOpcode .add] ++
        [.num 4, ofOpcode .numToBin, .num 3, ofOpcode .split, ofOpcode .binToNum] ++ [ofOpcode .swap2])
      ((l₂ ++ x₂) :: (l₁ ++ x₁) :: s)
      (x₁ :: x₂ :: encode ((LittleEndian.decode l₁ + LittleEndian.decode l₂ + fee) / limbBase : Nat) ::
        LittleEndian.encode 3 (LittleEndian.decode l₁ + LittleEndian.decode l₂ + fee) :: s) := by
  have htake := (runsInRange_takeLimb h₂ : RunsInRange suite ctx _ ((l₂ ++ x₂) :: (l₁ ++ x₁) :: s) _).append
    (runsInRange_takeLimb h₁)
  generalize LittleEndian.decode l₁ = m at hlow htake ⊢
  generalize LittleEndian.decode l₂ = n at hlow htake ⊢
  have hfee : RunsInRange suite ctx [.num fee] (encode (m + n : Nat) :: x₁ :: x₂ :: s)
      (encode fee :: encode (m + n : Nat) :: x₁ :: x₂ :: s) := .of_run rfl (run_num _)
  have hlimbs : m + n < 0x80000000 := Nat.lt_of_le_of_lt (Nat.le_add_right _ _) hlow
  have hadd := ((RunsInRange.add_natCast hlimbs).append hfee).append (.add_natCast hlow)
  exact ((htake.append hadd).append (runsInRange_cutLimb hlow)).append (.of_run rfl (run_swap2 _ _ _ _))

theorem runsInRange_middle {carry : Nat} {m₁ m₂ r₁ r₂ : Bytes} (h₁ : m₁.length = 3) (h₂ : m₂.length = 3)
    (hmiddle : LittleEndian.decode m₁ + LittleEndian.decode m₂ + carry < 0x80000000) :
    RunsInRange suite ctx (takeLimb ++ takeLimb ++ [ofOpcode .add, .num 3, ofOpcode .roll, ofOpcode .add] ++
        [.num 4, ofOpcode .numToBin, .num 3, ofOpcode .split, ofOpcode .binToNum] ++ [ofOpcode .swap2])
      ((m₂ ++ r₂) :: (m₁ ++ r₁) :: encode carry :: s)
      (r₁ :: r₂ :: encode ((LittleEndian.decode m₁ + LittleEndian.decode m₂ + carry) / limbBase : Nat) ::
        LittleEndian.encode 3 (LittleEndian.decode m₁ + LittleEndian.decode m₂ + carry) :: s) := by
  have htake := (runsInRange_takeLimb h₂ :
    RunsInRange suite ctx _ ((m₂ ++ r₂) :: (m₁ ++ r₁) :: encode carry :: s) _).append (runsInRange_takeLimb h₁)
  generalize LittleEndian.decode m₁ = m at hmiddle htake ⊢
  generalize LittleEndian.decode m₂ = n at hmiddle htake ⊢
  have hroll : RunsInRange suite ctx [.num 3, ofOpcode .roll] (encode (m + n : Nat) :: r₁ :: r₂ :: encode carry :: s)
      (encode carry :: encode (m + n : Nat) :: r₁ :: r₂ :: s) := by
    refine .of_run rfl ?_
    rw [run_roll 3 (by decide) (by decide) rfl, run_nil]
    rfl
  have hlimbs : m + n < 0x80000000 := Nat.lt_of_le_of_lt (Nat.le_add_right _ _) hmiddle
  have hadd := ((RunsInRange.add_natCast hlimbs).append hroll).append (.add_natCast hmiddle)
  exact ((htake.append hadd).append (runsInRange_cutLimb hmiddle)).append (.of_run rfl (run_swap2 _ _ _ _))

/-- The top parts and the carry from below are added and written in two bytes. -/
theorem runsInRange_high {carry : Nat} {r₁ r₂ high : Bytes} (h₁ : r₁.length = 2) (h₂ : r₂.length = 2)
    (hcarry : carry < 64) (h : Number.resize (encode (value r₁ + value r₂ + carry)) 2 = .ok high) :
    RunsInRange suite ctx ([ofOpcode .binToNum] ++ [ofOpcode .swap] ++ [ofOpcode .binToNum] ++ [ofOpcode .add] ++
        [ofOpcode .add] ++ [.num 2, ofOpcode .numToBin])
      (r₂ :: r₁ :: encode carry :: s) (high :: s) := by
  have hr₁ := isOperand_value h₁
  have hr₂ := isOperand_value h₂
  have hlt := natAbs_high_lt h₂ h₁
  have hsum : IsOperand (value r₂ + value r₁) := hlt.trans (by decide)
  have htotal : IsOperand (carry + (value r₂ + value r₁)) := by
    unfold IsOperand
    omega
  have hread : RunsInRange suite ctx [ofOpcode .binToNum] (r₂ :: r₁ :: encode carry :: s) _ := .binToNum hr₂
  have hwrite : RunsInRange suite ctx [.num 2, ofOpcode .numToBin]
      (encode (carry + (value r₂ + value r₁)) :: s) (high :: s) := by
    refine .numToBin 2 2 rfl (by decide) ?_
    rw [Number.value_encode, ← h]
    congr 2
    ring
  have hswap : RunsInRange suite ctx [ofOpcode .swap] (encode (value r₂) :: r₁ :: encode carry :: s)
      (r₁ :: encode (value r₂) :: encode carry :: s) := .of_run rfl (run_swap _ _)
  have hboth := (hread.append hswap).append (.binToNum hr₁)
  exact ((hboth.append (.add hr₂ hr₁ hsum)).append
    (.add (isOperand_natCast (hcarry.trans (by decide))) hsum htotal)).append hwrite

theorem runsInRange_addUp {fee : Nat} (hfee : fee ≤ Terms.maxFee) {a₁ a₂ amount : Bytes} (h₁ : a₁.length = 8)
    (h₂ : a₂.length = 8) (hsum : limbSum fee a₁ a₂ = .ok amount) :
    RunsInRange suite ctx (addUp fee) (a₂ :: a₁ :: s) (amount :: s) := by
  obtain ⟨l₁, m₁, r₁, rfl, hl₁, hm₁, hr₁⟩ := exists_limbs h₁
  obtain ⟨l₂, m₂, r₂, rfl, hl₂, hm₂, hr₂⟩ := exists_limbs h₂
  rw [limbSum_append hl₁ hm₁ hl₂ hm₂, Nat.add_comm (LittleEndian.decode m₁)] at hsum
  simp only at hsum
  have hlow := low_lt hfee hl₁ hl₂
  have hmiddle := middle_lt hlow hm₂ hm₁
  have hlowRun := (runsInRange_low hl₁ hl₂ hlow :
    RunsInRange suite ctx _ ((l₂ ++ (m₂ ++ r₂)) :: (l₁ ++ (m₁ ++ r₁)) :: s) _)
  -- of each sum only its bound is used by the next one
  generalize LittleEndian.decode l₁ + LittleEndian.decode l₂ + fee = low at *
  have hmiddleRun := hlowRun.append (runsInRange_middle hm₂ hm₁ (hmiddle.trans (by decide)))
  generalize LittleEndian.decode m₂ + LittleEndian.decode m₁ + low / limbBase = middle at *
  have hcarry : middle / limbBase < 64 := Nat.div_lt_of_lt_mul hmiddle
  cases hresize : Number.resize (encode (value r₁ + value r₂ + (middle / limbBase : Nat))) 2 with
  | error e =>
      rw [hresize] at hsum
      cases hsum
  | ok high =>
      rw [hresize] at hsum
      cases hsum
      have hlen := (Number.value_of_resize hresize).1
      have hjoin : RunsInRange suite ctx [ofOpcode .cat, ofOpcode .cat]
          (high :: LittleEndian.encode 3 middle :: LittleEndian.encode 3 low :: s)
          ((LittleEndian.encode 3 low ++ (LittleEndian.encode 3 middle ++ high)) :: s) := by
        refine .of_run rfl ?_
        rw [run_cat (by simp [hlen, maxElementSize]), run_cat (by simp [hlen, maxElementSize]), run_nil]
      exact (hmiddleRun.append (runsInRange_high hr₁ hr₂ hcarry hresize)).append hjoin

/-- The branch stays in range on outputs that it accepts. -/
theorem runsInRange_overflowSplit {fee : Nat} (hfee : fee ≤ Terms.maxFee) {amount scriptCode outputs : Bytes}
    (h : Splits suite fee scriptCode amount outputs) :
    RunsInRange suite ctx (overflowSplit fee) (amount :: scriptCode :: outputs :: s) s := by
  obtain ⟨size, script, a₁, a₂, hcode, hsize, h₁, h₂, houtputs, hsum⟩ := h
  have hown : RunsInRange suite ctx ownOutputs (amount :: scriptCode :: outputs :: s) (a₂ :: a₁ :: amount :: s) := by
    refine .of_run rfl ?_
    rw [← List.append_nil ownOutputs, run_ownOutputs_iff]
    exact ⟨size, script, a₁, a₂, hcode, hsize, h₁, h₂, houtputs, run_nil⟩
  have hcompare : RunsInRange suite ctx [checking .equalVerify] (amount :: amount :: s) s :=
    .of_run rfl ((run_equalVerify_iff _ _).2 ⟨rfl, run_nil⟩)
  rw [overflowSplit_eq]
  exact (hown.append (runsInRange_addUp hfee h₁ h₂ hsum)).append hcompare

end ShareCovenant.Covenant
