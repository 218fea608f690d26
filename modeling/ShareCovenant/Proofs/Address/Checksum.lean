import Mathlib
import ShareCovenant.Address.Checksum

/-!
# What the checksum fixes and what it catches

The register is linear over exclusive or, and it is never confused: from different registers, the same symbols
lead to different registers, because the low bits of the generators tell the leaving symbols apart. The first
eight symbols enter an empty register without feedback, so they can be read off it. Hence the payload fixes its
checksum, and two payloads that differ only within eight symbols are not both valid.
-/

namespace ShareCovenant.Checksum

/-! ## Linearity -/

/-- The bits of a sum of symbols select the sum of what the bits of each select, whatever the generators are. -/
theorem foldl_select_xor (gs : List (Register × Nat)) (s t : Symbol) (c d : Register) :
    gs.foldl (fun acc (g, i) => if (s ^^^ t).getLsbD i then acc ^^^ g else acc) (c ^^^ d) =
      gs.foldl (fun acc (g, i) => if s.getLsbD i then acc ^^^ g else acc) c ^^^
        gs.foldl (fun acc (g, i) => if t.getLsbD i then acc ^^^ g else acc) d := by
  induction gs generalizing c d with
  | nil => rfl
  | cons gi gs ih =>
      obtain ⟨g, i⟩ := gi
      rw [List.foldl_cons, List.foldl_cons, List.foldl_cons, ← ih]
      congr 1
      dsimp only
      rw [BitVec.getLsbD_xor]
      cases s.getLsbD i <;> cases t.getLsbD i
      · rfl
      · exact xor_assoc c d g
      · change c ^^^ d ^^^ g = c ^^^ g ^^^ d
        ac_rfl
      · change c ^^^ d = c ^^^ g ^^^ (d ^^^ g)
        rw [xor_assoc, xor_xor_cancel_comm_assoc]

theorem feedback_xor (s t : Symbol) : feedback (s ^^^ t) = feedback s ^^^ feedback t :=
  foldl_select_xor generators.zipIdx s t 0 0

theorem feedback_zero : feedback 0 = 0 := rfl

theorem step_xor (c d : Register) (s t : Symbol) : step (c ^^^ d) (s ^^^ t) = step c s ^^^ step d t := by
  simp only [step, BitVec.shiftLeft_xor_distrib, BitVec.ushiftRight_xor_distrib, BitVec.setWidth_xor, feedback_xor]
  ac_rfl

theorem run_cons (c : Register) (s : Symbol) (w : List Symbol) : run c (s :: w) = run (step c s) w := rfl

theorem run_append (c : Register) (v w : List Symbol) : run c (v ++ w) = run (run c v) w := List.foldl_append

theorem run_xor (c d : Register) (w : List Symbol) :
    run (c ^^^ d) w = run c (List.replicate w.length 0) ^^^ run d w := by
  induction w generalizing c d with
  | nil => rfl
  | cons s w ih =>
      have hstep := step_xor c d 0 s
      rw [zero_xor] at hstep
      rw [List.length_cons, List.replicate_succ, run_cons, run_cons, run_cons, hstep, ih]

/-- The register after some symbols is that after as many zeros, plus what the symbols make of an empty one. -/
theorem run_eq_xor (c : Register) (w : List Symbol) :
    run c w = run c (List.replicate w.length 0) ^^^ run 0 w := by
  rw [← run_xor, xor_zero]

/-! ## Symbols without feedback -/

theorem toNat_step {c : Register} (h : c.toNat < 2 ^ 35) (s : Symbol) :
    (step c s).toNat = 32 * c.toNat + s.toNat := by
  have htop : (c >>> 35).setWidth 5 = (0 : Symbol) := by
    apply BitVec.eq_of_toNat_eq
    rw [BitVec.toNat_setWidth, BitVec.toNat_ushiftRight, Nat.shiftRight_eq_div_pow, Nat.div_eq_of_lt h]
    rfl
  have hs := s.isLt
  have hstep : (step c s).toNat = c.toNat * 2 ^ 5 ^^^ s.toNat := by
    rw [step, htop, feedback_zero, xor_zero, BitVec.toNat_xor, BitVec.toNat_shiftLeft, BitVec.toNat_setWidth,
      Nat.shiftLeft_eq, Nat.mod_eq_of_lt (by omega), Nat.mod_eq_of_lt (by omega)]
  -- the two parts share no bit, so the quotient by 32 is the one and the remainder the other
  have hdiv := Nat.xor_div_two_pow (a := c.toNat * 2 ^ 5) (b := s.toNat) (n := 5)
  have hmod := Nat.xor_mod_two_pow (a := c.toNat * 2 ^ 5) (b := s.toNat) (n := 5)
  rw [Nat.div_eq_of_lt hs, Nat.mul_div_cancel _ (by decide), Nat.xor_zero] at hdiv
  rw [Nat.mod_eq_of_lt hs, Nat.mul_mod_left, Nat.zero_xor] at hmod
  rw [hstep]
  omega

theorem digits_lt {w : List Symbol} : ∀ d ∈ (w.map BitVec.toNat).reverse, d < 32 := by
  simp only [List.mem_reverse, List.mem_map]
  rintro _ ⟨s, -, rfl⟩
  exact s.isLt

/-- Up to eight symbols are the digits of the number that they leave in an empty register. -/
theorem toNat_run_zero {w : List Symbol} (h : w.length ≤ 8) :
    (run 0 w).toNat = Nat.ofDigits 32 (w.map BitVec.toNat).reverse := by
  induction w using List.reverseRecOn with
  | nil => rfl
  | append_singleton w s ih =>
      rw [List.length_append, List.length_singleton] at h
      have hw := ih (by omega)
      have hlt : (run 0 w).toNat < 32 ^ 7 := by
        have hbound := Nat.ofDigits_lt_base_pow_length (by decide) (digits_lt (w := w))
        rw [List.length_reverse, List.length_map, ← hw] at hbound
        exact hbound.trans_le (Nat.pow_le_pow_right (by decide) (by omega))
      rw [run_append, run_cons, run, List.foldl_nil, toNat_step hlt, hw, List.map_append, List.reverse_append]
      simp [Nat.ofDigits_cons, Nat.add_comm]

theorem run_zero_injective {v w : List Symbol} (hlen : v.length = w.length) (h : w.length ≤ 8)
    (heq : run 0 v = run 0 w) : v = w := by
  have hnat := congrArg BitVec.toNat heq
  rw [toNat_run_zero (hlen ▸ h), toNat_run_zero h] at hnat
  have hdigits := Nat.ofDigits_inj_of_len_eq (by decide) (by simpa using hlen) digits_lt digits_lt hnat
  exact List.map_injective_iff.2 (fun _ _ => BitVec.eq_of_toNat_eq) (List.reverse_injective hdigits)

theorem length_symbols (c : Register) : (symbols c).length = 8 := rfl

theorem run_zero_symbols (c : Register) : run 0 (symbols c) = c := by
  apply BitVec.eq_of_toNat_eq
  have hc := c.isLt
  rw [toNat_run_zero (length_symbols c).le]
  simp only [symbols, List.map_cons, List.map_nil, List.reverse_cons, List.reverse_nil, List.nil_append,
    List.cons_append, Nat.ofDigits_cons, Nat.ofDigits_nil, BitVec.toNat_setWidth, BitVec.toNat_ushiftRight,
    Nat.shiftRight_eq_div_pow]
  norm_num
  omega

/-- Eight symbols are those of a register if they leave it in an empty one. -/
theorem eq_symbols_iff {w : List Symbol} (h : w.length = 8) (c : Register) : w = symbols c ↔ run 0 w = c := by
  constructor
  · rintro rfl
    exact run_zero_symbols c
  · rintro rfl
    exact run_zero_injective h (length_symbols _).le (run_zero_symbols _).symm

/-! ## Registers stay apart -/

/-- The low bits of the generators are independent. -/
theorem eq_zero_of_feedback : ∀ s : Symbol, (feedback s).setWidth 5 = (0 : Symbol) → s = 0 := by
  decide

theorem setWidth_step_zero (c : Register) :
    (step c 0).setWidth 5 = (feedback ((c >>> 35).setWidth 5)).setWidth 5 := by
  have hshift : (c <<< 5).setWidth 5 = (0 : Symbol) := by
    apply BitVec.eq_of_toNat_eq
    rw [BitVec.toNat_setWidth, BitVec.toNat_shiftLeft, Nat.shiftLeft_eq]
    change c.toNat * 2 ^ 5 % 2 ^ 40 % 2 ^ 5 = 0
    omega
  rw [step, BitVec.setWidth_xor, BitVec.setWidth_xor, hshift]
  exact zero_xor _

theorem eq_zero_of_step {c : Register} (h : step c 0 = 0) : c = 0 := by
  have htop : (c >>> 35).setWidth 5 = (0 : Symbol) := by
    apply eq_zero_of_feedback
    rw [← setWidth_step_zero, h]
    rfl
  have hlt : c.toNat < 2 ^ 35 := by
    have hnat := congrArg BitVec.toNat htop
    have hc := c.isLt
    rw [BitVec.toNat_setWidth, BitVec.toNat_ushiftRight, Nat.shiftRight_eq_div_pow] at hnat
    change _ = 0 at hnat
    omega
  have hnat := toNat_step hlt 0
  rw [h] at hnat
  change 0 = 32 * c.toNat + 0 at hnat
  apply BitVec.eq_of_toNat_eq
  change c.toNat = 0
  omega

theorem step_injective {c d : Register} {s : Symbol} (h : step c s = step d s) : c = d := by
  have hstep := step_xor c d s s
  rw [h, LawfulXor.xor_self, LawfulXor.xor_self] at hstep
  exact xor_eq_zero_iff.1 (eq_zero_of_step hstep)

theorem run_injective {c d : Register} {w : List Symbol} (h : run c w = run d w) : c = d := by
  induction w generalizing c d with
  | nil => exact h
  | cons s w ih => exact step_injective (ih h)

/-! ## Valid payloads -/

theorem isValid_iff (hrp : String) (payload : List Symbol) :
    isValid hrp payload = true ↔ run 1 (hrpSymbols hrp ++ payload) = 1 := by
  rw [isValid, residue, beq_iff_eq, xor_eq_zero_iff]

theorem length_make (hrp : String) (data : List Symbol) : (make hrp data).length = 8 := rfl

/-- Data have one checksum. -/
theorem isValid_append_iff (hrp : String) (data : List Symbol) {check : List Symbol} (h : check.length = 8) :
    isValid hrp (data ++ check) = true ↔ check = make hrp data := by
  rw [isValid_iff, make, residue, eq_symbols_iff h, ← List.append_assoc, run_append 1 _ check, run_append 1 _ (.replicate _ _),
    run_eq_xor, h, xor_eq_iff_right_eq]

/-- Valid payloads that agree before and after eight symbols agree in them. -/
theorem eq_of_isValid {hrp : String} {before window window' after : List Symbol}
    (hlen : window.length = window'.length) (h8 : window'.length ≤ 8)
    (h : isValid hrp (before ++ (window ++ after)) = true)
    (h' : isValid hrp (before ++ (window' ++ after)) = true) : window = window' := by
  rw [isValid_iff, ← List.append_assoc, run_append, run_append] at h h'
  have hwindow := run_injective (h.trans h'.symm)
  rw [run_eq_xor, run_eq_xor _ window', hlen] at hwindow
  exact run_zero_injective hlen h8 ((xor_right_involutive _).injective hwindow)

/-! ## Bursts -/

/-- Two lists of one length that differ, but only within some number of consecutive places. -/
structure Burst {α : Type} (width : Nat) (s t : List α) : Prop where
  length_eq : s.length = t.length
  ne : s ≠ t
  within : ∃ start, ∀ i, s[i]? ≠ t[i]? → start ≤ i ∧ i < start + width

theorem burst_iff_exists_append {α : Type} {width : Nat} {s t : List α} :
    Burst width s t ↔ ∃ before window window' after, s = before ++ (window ++ after) ∧
      t = before ++ (window' ++ after) ∧ window.length = window'.length ∧ window'.length ≤ width ∧
      window ≠ window' := by
  constructor
  · rintro ⟨hlen, hne, start, hwithin⟩
    have hbefore : s.take start = t.take start := by
      apply List.ext_getElem?
      intro i
      rw [List.getElem?_take, List.getElem?_take]
      split_ifs with hi
      · by_contra hdiff
        have := (hwithin i hdiff).1
        omega
      · rfl
    have hafter : s.drop (start + width) = t.drop (start + width) := by
      apply List.ext_getElem?
      intro i
      rw [List.getElem?_drop, List.getElem?_drop]
      by_contra hdiff
      have := (hwithin _ hdiff).2
      omega
    have hsplit : ∀ u : List α,
        u = u.take start ++ ((u.drop start).take width ++ u.drop (start + width)) := by
      intro u
      rw [← List.drop_drop, List.take_append_drop, List.take_append_drop]
    refine ⟨s.take start, (s.drop start).take width, (t.drop start).take width, s.drop (start + width), hsplit s,
      ?_, by simp [hlen], by simp, ?_⟩
    · rw [hbefore, hafter]
      exact hsplit t
    · intro hwindow
      apply hne
      rw [hsplit s, hsplit t, hbefore, hwindow, hafter]
  · rintro ⟨before, window, window', after, rfl, rfl, hlen, hwidth, hne⟩
    refine ⟨by simp [hlen], ?_, before.length, ?_⟩
    · simpa using hne
    · intro i hdiff
      by_contra hi
      apply hdiff
      rcases lt_or_ge i before.length with hlt | hge
      · rw [List.getElem?_append_left hlt, List.getElem?_append_left hlt]
      · rw [List.getElem?_append_right hge, List.getElem?_append_right hge,
          List.getElem?_append_right (by omega), List.getElem?_append_right (by omega), hlen]

theorem Burst.of_map {α β : Type} {f : α → β} (hf : Function.Injective f) {width : Nat} {s t : List α}
    (h : Burst width (s.map f) (t.map f)) : Burst width s t := by
  obtain ⟨hlen, hne, start, hwithin⟩ := h
  refine ⟨by simpa using hlen, fun heq => hne (heq ▸ rfl), start, fun i hdiff => hwithin i ?_⟩
  rw [List.getElem?_map, List.getElem?_map]
  exact (Option.map_injective hf).ne hdiff

/-- No burst of up to eight symbols leads from a valid payload to a valid one. -/
theorem isValid_of_burst {hrp : String} {p q : List Symbol} (h : Burst 8 p q) (hp : isValid hrp p = true) :
    isValid hrp q = false := by
  obtain ⟨before, window, window', after, rfl, rfl, hlen, h8, hne⟩ := burst_iff_exists_append.1 h
  rw [← Bool.not_eq_true]
  exact fun hq => hne (eq_of_isValid hlen h8 hp hq)

end ShareCovenant.Checksum
