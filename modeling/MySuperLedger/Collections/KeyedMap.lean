import Mathlib.Algebra.BigOperators.Group.Finset.Basic
import Mathlib.Data.Finmap

/-! # Finite maps whose values know their key

An ordered map that is only ever written as `map[key(v)] = v` holds each value
under its own key. `KeyedMap key` is a finite map with that fact as a field, so
a lookup also tells the key of what it finds. The sum over all values is the
accounting side of such a map: a `put` changes it by the difference between the
new value and the one it replaces.
-/

namespace Collections

open Option

structure KeyedMap {K V : Type} [DecidableEq K] (key : V → K) where
  toFinmap : Finmap fun _ : K => V
  key_eq : ∀ {k : K} {v : V}, toFinmap.lookup k = some v → key v = k

namespace KeyedMap

variable {K V : Type} [DecidableEq K] {key : V → K}

def empty : KeyedMap key where
  toFinmap := ∅
  key_eq := by simp

instance : Inhabited (KeyedMap key) := ⟨empty⟩

def find? (map : KeyedMap key) (k : K) : Option V := map.toFinmap.lookup k

def put (map : KeyedMap key) (v : V) : KeyedMap key where
  toFinmap := map.toFinmap.insert (key v) v
  key_eq {k w} h := by
    by_cases hk : k = key v
    · subst hk
      rw [Finmap.lookup_insert] at h
      rw [some.inj h]
    · rw [Finmap.lookup_insert_of_ne _ hk] at h
      exact map.key_eq h

def keys (map : KeyedMap key) : Finset K := map.toFinmap.keys

instance [DecidableEq V] : DecidableEq (KeyedMap key) := fun left right =>
  decidable_of_iff (left.toFinmap = right.toFinmap) (by cases left; cases right; simp)

@[ext] theorem ext {left right : KeyedMap key} (h : ∀ k, left.find? k = right.find? k) :
    left = right := by
  obtain ⟨leftMap, _⟩ := left
  obtain ⟨rightMap, _⟩ := right
  obtain rfl : leftMap = rightMap := Finmap.ext_lookup h
  rfl

variable {map : KeyedMap key} {k : K} {v : V}

theorem key_of_find? (h : map.find? k = some v) : key v = k :=
  map.key_eq h

@[simp] theorem find?_empty (k : K) : (empty : KeyedMap key).find? k = none :=
  Finmap.lookup_empty k

theorem find?_put (map : KeyedMap key) (v : V) (k : K) :
    (map.put v).find? k = if k = key v then some v else map.find? k := by
  by_cases hk : k = key v
  · subst hk
    rw [if_pos rfl]
    exact Finmap.lookup_insert _
  · rw [if_neg hk]
    exact Finmap.lookup_insert_of_ne _ hk

@[simp] theorem find?_put_self (map : KeyedMap key) (v : V) :
    (map.put v).find? (key v) = some v := by
  rw [find?_put, if_pos rfl]

theorem find?_put_of_ne (map : KeyedMap key) (hk : k ≠ key v) :
    (map.put v).find? k = map.find? k := by
  rw [find?_put, if_neg hk]

theorem mem_keys : k ∈ map.keys ↔ ∃ v, map.find? k = some v := by
  rw [keys, Finmap.mem_keys, Finmap.mem_iff, find?]

theorem find?_eq_none : map.find? k = none ↔ k ∉ map.keys := by
  rw [mem_keys, eq_none_iff_forall_ne_some]
  exact ⟨fun h ⟨v, hv⟩ => h v hv, fun h v hv => h ⟨v, hv⟩⟩

@[simp] theorem keys_empty : (empty : KeyedMap key).keys = ∅ := Finmap.keys_empty

theorem keys_put (map : KeyedMap key) (v : V) : (map.put v).keys = insert (key v) map.keys := by
  ext k
  rw [Finset.mem_insert, mem_keys, mem_keys, find?_put]
  by_cases hk : k = key v <;> simp [hk]

variable {M : Type} [AddCommMonoid M]

/-- The value at `k` under `f`, zero where the map has none. -/
def valueAt (map : KeyedMap key) (f : V → M) (k : K) : M := (map.find? k).elim 0 f

def sum (map : KeyedMap key) (f : V → M) : M := ∑ k ∈ map.keys, map.valueAt f k

@[simp] theorem sum_empty (f : V → M) : (empty : KeyedMap key).sum f = 0 := by simp [sum]

theorem valueAt_put_self (map : KeyedMap key) (f : V → M) (v : V) :
    (map.put v).valueAt f (key v) = f v := by
  simp [valueAt]

theorem valueAt_put_of_ne (map : KeyedMap key) (f : V → M) (hk : k ≠ key v) :
    (map.put v).valueAt f k = map.valueAt f k := by
  rw [valueAt, find?_put_of_ne _ hk, valueAt]

theorem sum_put (map : KeyedMap key) (f : V → M) (v : V) :
    (map.put v).sum f = f v + ∑ k ∈ map.keys.erase (key v), map.valueAt f k := by
  have hm : key v ∈ insert (key v) map.keys := Finset.mem_insert_self _ _
  rw [sum, keys_put, ← Finset.add_sum_erase _ _ hm, Finset.erase_insert_eq_erase, valueAt_put_self]
  congr 1
  exact Finset.sum_congr rfl fun k hk => valueAt_put_of_ne _ _ (Finset.ne_of_mem_erase hk)

theorem sum_put_of_find?_none (f : V → M) (h : map.find? (key v) = none) :
    (map.put v).sum f = f v + map.sum f := by
  rw [sum_put, Finset.erase_eq_of_notMem (find?_eq_none.mp h), sum]

theorem sum_put_of_find?_some (f : V → M) {w : V} (h : map.find? (key v) = some w) :
    f w + (map.put v).sum f = f v + map.sum f := by
  have hm : key v ∈ map.keys := mem_keys.mpr ⟨w, h⟩
  have hw : map.valueAt f (key v) = f w := by rw [valueAt, h, elim_some]
  rw [sum_put, sum, ← Finset.add_sum_erase _ _ hm, hw, add_left_comm]

end KeyedMap

end Collections
