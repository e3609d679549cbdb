import Mathlib.Data.List.Pairwise

/-! # Rows in the order of their numbers

Each row has a number, and later rows have larger ones. A position in the
sequence is a number: the rows up to it are behind a reader, the later ones are
still to come.
-/

namespace Collections

open List

variable {Row Number : Type} [LE Number] [LT Number] (number : Row → Number)

def Increasing (rows : List Row) : Prop :=
  rows.Pairwise fun earlier later => number earlier < number later

def upTo [DecidableLE Number] (rows : List Row) (index : Number) : List Row :=
  rows.filter fun row => number row ≤ index

def laterThan [DecidableLT Number] (rows : List Row) (index : Number) : List Row :=
  rows.filter fun row => index < number row

variable [Std.IsLinearOrder Number] [Std.LawfulOrderLT Number]
variable {number} {front rest rows : List Row} {row : Row} {index : Number}

theorem upTo_append [DecidableLE Number] (hf : ∀ row ∈ front, number row ≤ index)
    (hr : ∀ row ∈ rest, index < number row) : upTo number (front ++ rest) index = front := by
  unfold upTo
  rw [filter_append, filter_eq_self.mpr, filter_eq_nil_iff.mpr, append_nil]
  · intro row hm hle
    exact Std.not_le.mpr (hr row hm) (of_decide_eq_true hle)
  · intro row hm
    exact decide_eq_true (hf row hm)

theorem laterThan_append [DecidableLT Number] (hf : ∀ row ∈ front, number row ≤ index)
    (hr : ∀ row ∈ rest, index < number row) : laterThan number (front ++ rest) index = rest := by
  unfold laterThan
  rw [filter_append, filter_eq_nil_iff.mpr, nil_append, filter_eq_self.mpr]
  · intro row hm
    exact decide_eq_true (hr row hm)
  · intro row hm hlt
    exact Std.not_le.mpr (of_decide_eq_true hlt) (hf row hm)

variable [DecidableLE Number] [DecidableLT Number]

theorem upTo_append_laterThan (hi : Increasing number rows) (index : Number) :
    upTo number rows index ++ laterThan number rows index = rows := by
  induction rows with
  | nil => rfl
  | cons row rows ih =>
    obtain ⟨hf, hr⟩ := pairwise_cons.mp hi
    by_cases hle : number row ≤ index
    · have hlt : ¬ index < number row := fun hlt => Std.not_le.mpr hlt hle
      simpa [upTo, laterThan, hle, hlt] using ih hr
    · -- all that follows is later still
      have hlater : ∀ later ∈ row :: rows, index < number later := by
        refine forall_mem_cons.mpr ⟨Std.not_le.mp hle, fun later hl => ?_⟩
        exact Std.lt_trans (Std.not_le.mp hle) (hf later hl)
      have hnone : ∀ earlier ∈ ([] : List Row), number earlier ≤ index := nofun
      have hup := upTo_append hnone hlater
      have hla := laterThan_append hnone hlater
      rw [nil_append] at hup hla
      rw [hup, hla, nil_append]

/-- One row further. -/
theorem upTo_next (hi : Increasing number rows) (hn : laterThan number rows index = row :: rest) :
    upTo number rows (number row) = upTo number rows index ++ [row] := by
  have hs := upTo_append_laterThan hi index
  rw [hn] at hs
  generalize upTo number rows index = stored at hs
  subst hs
  obtain ⟨-, hr, hc⟩ := pairwise_append.mp hi
  rw [append_cons]
  refine upTo_append ?_ (pairwise_cons.mp hr).1
  intro earlier hm
  rcases mem_append.mp hm with hst | hrow
  · exact Std.le_of_lt (hc earlier hst row mem_cons_self)
  · rw [mem_singleton.mp hrow]
    exact Std.le_refl _

end Collections
