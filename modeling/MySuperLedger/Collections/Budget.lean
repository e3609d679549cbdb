import Mathlib.Algebra.GroupWithZero.Nat
import Mathlib.Data.List.Infix

/-! # Prefixes within a budget

The elements of a list have a cost. `within` takes elements from the front for as
long as their costs stay within a limit.
-/

namespace Collections

open List

variable {α : Type} (cost : α → Nat)

def within (limit used : Nat) : List α → List α
  | [] => []
  | x :: xs => if limit < used + cost x then [] else x :: within limit (used + cost x) xs

variable {cost} {limit used m : Nat} {xs : List α}

theorem within_isPrefix : within cost limit used xs <+: xs := by
  induction xs generalizing used with
  | nil => exact prefix_rfl
  | cons x xs ih =>
    unfold within
    split
    · exact nil_prefix
    · exact (prefix_cons_inj x).mpr ih

/-- An element is taken exactly if everything up to it is within the limit. -/
theorem lt_length_within_iff : m < (within cost limit used xs).length ↔
    m < xs.length ∧ used + ((xs.take (m + 1)).map cost).sum ≤ limit := by
  induction xs generalizing used m with
  | nil => simp [within]
  | cons x xs ih =>
    unfold within
    split
    · simp only [length_nil, take_succ_cons, map_cons, sum_cons]
      omega
    · cases m with
      | zero =>
        simp
        omega
      | succ m =>
        simp only [length_cons, take_succ_cons, map_cons, sum_cons,
          Nat.add_lt_add_iff_right, ih, ← Nat.add_assoc]

theorem cost_le_of_mem_within {x : α} (h : x ∈ within cost limit used xs) : cost x ≤ limit := by
  induction xs generalizing used with
  | nil => cases h
  | cons y ys ih =>
    rw [within] at h
    split at h
    · cases h
    · rcases mem_cons.mp h with rfl | h
      · omega
      · exact ih h

theorem sum_within_le (h : used ≤ limit) :
    used + ((within cost limit used xs).map cost).sum ≤ limit := by
  induction xs generalizing used with
  | nil => simpa [within] using h
  | cons x xs ih =>
    unfold within
    split
    · simpa using h
    · have hr := ih (Nat.le_of_not_lt ‹_›)
      simp only [map_cons, sum_cons]
      omega

theorem within_cons_ne_nil {x : α} (h : used + cost x ≤ limit) :
    within cost limit used (x :: xs) ≠ [] := by
  rw [within, if_neg (Nat.not_lt.mpr h)]
  exact cons_ne_nil _ _

end Collections
