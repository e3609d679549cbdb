import Mathlib.Data.List.Pairwise
import Mathlib.Data.List.Sort
import Mathlib.Order.Basic

/-! # Tables kept in the order of their primary key

A table is the list of its rows in strictly increasing key order, so no two rows
share a key and the first row above a bound is the least one above it. An insert
is refused when the key is taken.
-/

namespace Collections

open List

structure SortedTable {Row K : Type} [LinearOrder K] (key : Row → K) where
  rows : List Row
  sorted : rows.Pairwise fun earlier later => key earlier < key later

namespace SortedTable

variable {Row K : Type} [LinearOrder K] {key : Row → K}

def empty : SortedTable key where
  rows := []
  sorted := List.Pairwise.nil

instance [DecidableEq Row] : DecidableEq (SortedTable key) := fun left right =>
  decidable_of_iff (left.rows = right.rows) (by cases left; cases right; simp)

theorem pairwise_orderedInsert {row : Row} {rows : List Row}
    (hr : rows.Pairwise fun earlier later => key earlier < key later)
    (hn : ∀ other ∈ rows, key other ≠ key row) :
    (rows.orderedInsert (fun left right => key left ≤ key right) row).Pairwise
      fun earlier later => key earlier < key later := by
  induction rows with
  | nil => simp
  | cons head rest ih =>
    rw [pairwise_cons] at hr
    have hh : key head ≠ key row := hn head mem_cons_self
    rw [orderedInsert_cons]
    by_cases hle : key row ≤ key head
    · have hlt : key row < key head := lt_of_le_of_ne hle (Ne.symm hh)
      rw [if_pos hle, pairwise_cons, pairwise_cons]
      refine ⟨fun other hoth => ?_, hr⟩
      rcases mem_cons.mp hoth with rfl | hrest
      · exact hlt
      · exact hlt.trans (hr.1 other hrest)
    · rw [if_neg hle, pairwise_cons]
      refine ⟨fun other hoth => ?_, ih hr.2 fun o ho => hn o (mem_cons_of_mem _ ho)⟩
      rw [mem_orderedInsert] at hoth
      rcases hoth with rfl | hrest
      · exact lt_of_not_ge hle
      · exact hr.1 other hrest

/-- `INSERT`, which the primary key refuses when a row has the same key. -/
def insert? (table : SortedTable key) (row : Row) : Option (SortedTable key) :=
  if hnew : ∀ other ∈ table.rows, key other ≠ key row then
    some ⟨table.rows.orderedInsert (fun left right => key left ≤ key right) row,
      pairwise_orderedInsert table.sorted hnew⟩
  else none

/-- The row with the least key above `bound`. -/
def next? (table : SortedTable key) (bound : K) : Option Row :=
  table.rows.find? fun row => bound < key row

theorem insert?_eq_some {table after : SortedTable key} {row : Row}
    (h : table.insert? row = some after) :
    (∀ other ∈ table.rows, key other ≠ key row) ∧
      ∀ other, other ∈ after.rows ↔ other = row ∨ other ∈ table.rows := by
  unfold insert? at h
  split at h
  · rename_i hn
    obtain rfl := Option.some.inj h
    exact ⟨hn, fun other => mem_orderedInsert _⟩
  · cases h

theorem eq_of_key_eq (table : SortedTable key) {row other : Row} (hr : row ∈ table.rows)
    (ho : other ∈ table.rows) (hk : key row = key other) : row = other := by
  by_contra hne
  have ha := table.sorted.imp (S := fun left right => key left ≠ key right) ne_of_lt
  have hsymm : Std.Symm fun left right : Row => key left ≠ key right :=
    ⟨fun _ _ hs => Ne.symm hs⟩
  exact ha.forall hr ho hne hk

theorem next?_eq_some_iff (table : SortedTable key) {bound : K} {row : Row} :
    table.next? bound = some row ↔ row ∈ table.rows ∧ bound < key row ∧
        ∀ other ∈ table.rows, bound < key other → key row ≤ key other := by
  obtain ⟨rows, hsort⟩ := table
  unfold next?
  induction rows with
  | nil => simp
  | cons head rest ih =>
    rw [pairwise_cons] at hsort
    by_cases hhead : bound < key head
    · simp only [find?_cons, hhead, decide_true, Option.some.injEq, mem_cons]
      constructor
      · rintro rfl
        refine ⟨.inl rfl, hhead, fun other hoth _ => ?_⟩
        rcases hoth with rfl | hrest
        · exact le_refl _
        · exact (hsort.1 other hrest).le
      · intro hrow
        rcases hrow.1 with rfl | hrest
        · rfl
        · have hle := hrow.2.2 head (.inl rfl) hhead
          exact absurd (hsort.1 row hrest) hle.not_gt
    · simp only [find?_cons, hhead, decide_false, mem_cons]
      rw [ih hsort.2]
      constructor
      · intro hrow
        refine ⟨.inr hrow.1, hrow.2.1, fun other hoth hbd => ?_⟩
        rcases hoth with rfl | hrest
        · exact absurd hbd hhead
        · exact hrow.2.2 other hrest hbd
      · intro hrow
        refine ⟨?_, hrow.2.1, fun other hoth => hrow.2.2 other (.inr hoth)⟩
        rcases hrow.1 with rfl | hrest
        · exact absurd hrow.2.1 hhead
        · exact hrest

end SortedTable

end Collections
