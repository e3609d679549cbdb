import Mathlib.Data.List.TakeDrop

/-! # Files of fixed size

A file that is mapped into memory is a list of cells whose length does not
change. A write replaces the cells from a position on, a read copies them out.
-/

namespace Collections

open List

variable {α : Type}

def writeAt (cells : List α) (position : Nat) (written : List α) : List α :=
  cells.take position ++ written ++ cells.drop (position + written.length)

def readAt (cells : List α) (position length : Nat) : List α := (cells.drop position).take length

variable {position : Nat} {olds news : List α} {n : Nat}

theorem length_writeAt {cells : List α} {position : Nat} {written : List α}
    (h : position + written.length ≤ cells.length) :
    (writeAt cells position written).length = cells.length := by
  simp [writeAt]
  omega

/-- A write behind `front` leaves `front` and what lies beyond the write. -/
theorem writeAt_append (front behind written : List α) :
    writeAt (front ++ behind) front.length written =
      front ++ written ++ behind.drop written.length := by
  simp [writeAt, drop_append]

theorem readAt_append (front found behind : List α) :
    readAt (front ++ found ++ behind) front.length found.length = found := by
  simp [readAt, append_assoc]

/-- The file after a crash while `new` was written back over `old`: the cells from
`position` on that have reached the disk are new, the others old. -/
def torn (persisted : Nat → Bool) (position : Nat) : List α → List α → List α
  | old :: olds, new :: news =>
    (if persisted position then new else old) :: torn persisted (position + 1) olds news
  | _, _ => []

/-- How many cells from `position` on have reached the disk without a gap. -/
def persistedRun (persisted : Nat → Bool) (position : Nat) : Nat → Nat
  | 0 => 0
  | n + 1 => if persisted position then persistedRun persisted (position + 1) n + 1 else 0

variable {persisted : Nat → Bool}

theorem torn_self (position : Nat) (cells : List α) :
    torn persisted position cells cells = cells := by
  induction cells generalizing position with
  | nil => rfl
  | cons cell cells ih => simp [torn, ih]

theorem torn_append {old new : List α} (h : old.length = new.length) :
    torn persisted position (old ++ olds) (new ++ news) =
      torn persisted position old new ++ torn persisted (position + old.length) olds news := by
  induction old generalizing position new with
  | nil =>
    obtain rfl := length_eq_zero_iff.mp h.symm
    rfl
  | cons cell old ih =>
    cases new with
    | nil => cases h
    | cons cell' new =>
      simp only [cons_append, torn, length_cons]
      rw [ih (Nat.succ.inj h), Nat.add_assoc, Nat.add_comm 1]

theorem length_torn (position : Nat) (h : olds.length = news.length) :
    (torn persisted position olds news).length = news.length := by
  induction olds generalizing position news with
  | nil =>
    obtain rfl := length_eq_zero_iff.mp h.symm
    rfl
  | cons old olds ih =>
    cases news with
    | nil => cases h
    | cons new news => simp [torn, ih _ (Nat.succ.inj h)]

theorem drop_torn (position k : Nat) (olds news : List α) :
    (torn persisted position olds news).drop k =
      torn persisted (position + k) (olds.drop k) (news.drop k) := by
  induction k generalizing position olds news with
  | zero => rfl
  | succ k ih =>
    cases olds with
    | nil => simp [torn]
    | cons old olds =>
      cases news with
      | nil => simp [torn]
      | cons new news =>
        simp only [torn, drop_succ_cons]
        rw [ih, Nat.add_assoc, Nat.add_comm 1]

theorem torn_eq_old (hl : olds.length = news.length)
    (hn : ∀ i < olds.length, persisted (position + i) = false) :
    torn persisted position olds news = olds := by
  induction olds generalizing position news with
  | nil => cases news <;> rfl
  | cons old olds ih =>
    cases news with
    | nil => cases hl
    | cons new news =>
      have hf : persisted position = false := hn 0 (Nat.succ_pos _)
      have hr : torn persisted (position + 1) olds news = olds := by
        refine ih (Nat.succ.inj hl) fun i hi => ?_
        have := hn (i + 1) (Nat.succ_lt_succ hi)
        rwa [Nat.add_comm i, ← Nat.add_assoc] at this
      simp [torn, hf, hr]

theorem persistedRun_le (position n : Nat) : persistedRun persisted position n ≤ n := by
  induction n generalizing position with
  | zero => exact Nat.le_refl 0
  | succ n ih =>
    unfold persistedRun
    split
    · exact Nat.succ_le_succ (ih _)
    · exact Nat.zero_le _

/-- Up to the first gap the cells are new. -/
theorem take_torn_run (position : Nat) (h : olds.length = news.length) :
    (torn persisted position olds news).take (persistedRun persisted position news.length) =
      news.take (persistedRun persisted position news.length) := by
  induction news generalizing position olds with
  | nil => simp [persistedRun]
  | cons new news ih =>
    cases olds with
    | nil => cases h
    | cons old olds =>
      by_cases hf : persisted position = true
      · simp [persistedRun, torn, hf, ih (position + 1) (Nat.succ.inj h)]
      · simp [persistedRun, hf]

theorem persisted_of_lt_run {i : Nat} (h : i < persistedRun persisted position n) :
    persisted (position + i) = true := by
  induction n generalizing position i with
  | zero => cases h
  | succ n ih =>
    unfold persistedRun at h
    split at h
    · rename_i hf
      cases i with
      | zero => exact hf
      | succ i =>
        have := ih (Nat.lt_of_succ_lt_succ h)
        rwa [Nat.add_assoc, Nat.add_comm 1] at this
    · cases h

theorem persistedRun_le_of_missing {i : Nat} (h : persisted (position + i) = false) :
    persistedRun persisted position n ≤ i := by
  by_contra hlt
  rw [persisted_of_lt_run (Nat.lt_of_not_le hlt)] at h
  cases h

theorem not_persisted_run (h : persistedRun persisted position n < n) :
    persisted (position + persistedRun persisted position n) = false := by
  induction n generalizing position with
  | zero => cases h
  | succ n ih =>
    unfold persistedRun at h ⊢
    split at h
    · rename_i hf
      rw [if_pos hf]
      have := ih (Nat.lt_of_succ_lt_succ h)
      rwa [Nat.add_assoc, Nat.add_comm 1] at this
    · rename_i hf
      rw [if_neg hf]
      simpa using hf

end Collections
