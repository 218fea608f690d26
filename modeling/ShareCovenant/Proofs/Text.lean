import Mathlib
import ShareCovenant.Text.Unicode

/-!
# Cutting at separators

A text is cut at the first separator if and only if there is none in the part before it, and at the last one if
and only if there is none in the part after it.
-/

namespace ShareCovenant.Text

variable {sep : Char} {cs before after : List Char}

/-! ## The first separator -/

theorem cutFirst?_append (h : sep ∉ before) : cutFirst? sep (before ++ sep :: after) = some (before, after) := by
  induction before with
  | nil => simp [cutFirst?]
  | cons c before ih =>
      rw [List.mem_cons, not_or] at h
      rw [List.cons_append, cutFirst?, if_neg (Ne.symm h.1), ih h.2]
      rfl

theorem eq_append_of_cutFirst? (h : cutFirst? sep cs = some (before, after)) :
    cs = before ++ sep :: after ∧ sep ∉ before := by
  induction cs generalizing before with
  | nil => cases h
  | cons c cs ih =>
      rw [cutFirst?] at h
      split_ifs at h with hc
      · cases h
        simp [hc]
      · obtain ⟨⟨front, back⟩, hcut, hparts⟩ := Option.map_eq_some_iff.1 h
        cases hparts
        obtain ⟨rfl, hfront⟩ := ih hcut
        simp [hfront, Ne.symm hc]

theorem cutFirst?_eq_none_iff : cutFirst? sep cs = none ↔ sep ∉ cs := by
  induction cs with
  | nil => simp [cutFirst?]
  | cons c cs ih =>
      rw [cutFirst?]
      split_ifs with hc
      · simp [hc]
      · simp [ih, Ne.symm hc]

/-! ## The last separator -/

theorem cutLast?_append (h : sep ∉ after) : cutLast? sep (before ++ sep :: after) = some (before, after) := by
  have hreverse : (before ++ sep :: after).reverse = after.reverse ++ sep :: before.reverse := by simp
  rw [cutLast?, hreverse, cutFirst?_append (by simpa using h)]
  simp

theorem eq_append_of_cutLast? (h : cutLast? sep cs = some (before, after)) :
    cs = before ++ sep :: after ∧ sep ∉ after := by
  obtain ⟨⟨back, front⟩, hcut, hparts⟩ := Option.map_eq_some_iff.1 h
  cases hparts
  obtain ⟨hcs, hback⟩ := eq_append_of_cutFirst? hcut
  refine ⟨?_, by simpa using hback⟩
  rw [← List.reverse_reverse cs, hcs]
  simp

theorem cutLast?_eq_none_iff : cutLast? sep cs = none ↔ sep ∉ cs := by
  rw [cutLast?, Option.map_eq_none_iff, cutFirst?_eq_none_iff, List.mem_reverse]

end ShareCovenant.Text
