import Mathlib.Algebra.Group.Nat.Defs
import Mathlib.Data.List.AList
import Mathlib.Data.List.Infix
import MySuperLedger.Transition.System

/-! # Snapshot files

`SnapshotUtil` writes a snapshot under a temporary name, renames it, and loads
the file whose name carries the largest offset. An attempt may fail at each of
its steps or be cut short by a crash; a crash keeps the renames done so far, and
leaves any bytes in a temporary file that has not been synced. The result of
`createSnapshotAndPersist` is only returned, after the rename.
-/

namespace MySuperLedger

open List Option AList

namespace Snapshots

open Transition (System)

abbrev FileName := List Char

abbrev Content := List UInt8

/-- The regular files of the snapshot directory. -/
abbrev Files := AList fun _ : FileName => Content

def kSnapshot : FileName := ['s', 'n', 'a', 'p', 's', 'h', 'o', 't']

def kSnapshotSuffix : FileName := '.' :: kSnapshot

def snapshotFileName (offset : UInt64) : FileName :=
  Nat.toDigits 10 offset.toNat ++ kSnapshotSuffix

def tmpSnapshotFileName (offset : UInt64) : FileName :=
  snapshotFileName offset ++ ['.', 't', 'm', 'p']

inductive Crash where
  | beforeOpen
  /-- Also the `exit` of `checkFileState`; `left` is what the temporary file then holds. -/
  | beforeSync (left : Content)
  | beforeRename
  | beforeReturn
  deriving DecidableEq

/-- One call of `takeSnapshotAndPersist` and what befalls it: `content` is what
`createSnapshotAndPersist` writes, `result` what it returns. -/
structure Attempt where
  offset : UInt64
  content : Content
  result : Bool := true
  opens : Bool := true
  renames : Bool := true
  crash : Option Crash := none
  deriving DecidableEq

/-- The files afterwards and the returned flag, unless the process is gone. -/
def takeSnapshotAndPersist (files : Files) (attempt : Attempt) : Files × Option Bool :=
  let tmp := tmpSnapshotFileName attempt.offset
  let written := files.insert tmp attempt.content
  if attempt.crash = some .beforeOpen then (files, none)
  else if attempt.opens = false then (files, some false)
  else
    match attempt.crash with
    | some (.beforeSync left) => (files.insert tmp left, none)
    | some .beforeRename => (written, none)
    | crash =>
      let returned (flag : Bool) := if crash.isSome then none else some flag
      if attempt.renames then
        ((written.erase tmp).insert (snapshotFileName attempt.offset) attempt.content,
          returned attempt.result)
      else (written, returned false)

/-- What `([0-9]+).snapshot$` captures if it matches from the start of `text`. -/
def matchAt (text : List Char) : Option (List Char) :=
  let digits := text.take (text.length - 9)
  match text.drop (text.length - 9) with
  | any :: rest =>
    if digits ≠ [] ∧ digits.all Char.isDigit ∧ any ≠ '\n' ∧ any ≠ '\r' ∧
        rest = kSnapshot then some digits
    else none
  | [] => none

/-- `std::regex_search`, with the captured digits and the whole match: the match
that starts furthest to the left. -/
def snapshotMatch (path : List Char) : Option (List Char × FileName) :=
  path.tails.findSome? fun text => (matchAt text).map (·, text)

/-- `std::stoll` throws `std::out_of_range` inside a function that is `noexcept`. -/
inductive Check where
  | outOfRange
  deriving DecidableEq

def scan (largest : Int × FileName) (path : List Char) : Except Check (Int × FileName) :=
  match snapshotMatch path with
  | none => .ok largest
  | some (digits, whole) =>
    let index := Nat.ofDigitChars 10 digits 0
    if index < 2 ^ 63 then
      if largest.1 < index then .ok (index, whole) else .ok largest
    else .error .outOfRange

def getLargestSnapshot (paths : List (List Char)) : Except Check (Option FileName) :=
  (paths.foldlM scan (-1, [])).map fun largest =>
    if largest.1 ≠ -1 then some largest.2 else none

/-- The file `loadLatestSnapshot` opens, with what it reads from it. -/
def loadLatestSnapshot (snapshotDir : List Char) (files : Files) (listing : List FileName) :
    Except Check (Option (FileName × Content)) :=
  (getLargestSnapshot (listing.map fun name => snapshotDir ++ '/' :: name)).map fun found =>
    found.bind fun name => (files.lookup name).map (name, ·)

theorem matchAt_eq_some {text digits : List Char} (h : matchAt text = some digits) :
    ∃ any, text = digits ++ any :: kSnapshot ∧ ∀ c ∈ digits, c.isDigit = true := by
  unfold matchAt at h
  simp only at h
  split at h
  · rename_i any rest hr
    split at h
    · rename_i hm
      obtain ⟨-, hd, -, -, rfl⟩ := hm
      obtain rfl := some.inj h
      refine ⟨any, ?_, all_eq_true.mp hd⟩
      rw [← hr, take_append_drop]
    · cases h
  · cases h

theorem matchAt_append {digits : List Char} (hne : digits ≠ [])
    (hd : ∀ c ∈ digits, c.isDigit = true) : matchAt (digits ++ kSnapshotSuffix) = some digits := by
  have hl : (digits ++ kSnapshotSuffix).length - 9 = digits.length := by
    simp [kSnapshotSuffix, kSnapshot]
  have ha : digits.all Char.isDigit = true := all_eq_true.mpr hd
  unfold matchAt
  simp only [hl, take_left, drop_left]
  simp [kSnapshotSuffix, hne, ha]

theorem snapshotMatch_cons (c : Char) (path : List Char) : snapshotMatch (c :: path) =
      ((matchAt (c :: path)).map (·, c :: path)).or (snapshotMatch path) := by
  cases hm : matchAt (c :: path) <;> simp [snapshotMatch, hm]

theorem snapshotMatch_snapshotFileName (snapshotDir : List Char) (offset : UInt64) :
    snapshotMatch (snapshotDir ++ '/' :: snapshotFileName offset) =
      some (Nat.toDigits 10 offset.toNat, snapshotFileName offset) := by
  have hne : Nat.toDigits 10 offset.toNat ≠ [] := Nat.toDigits_ne_nil
  have hdig : ∀ c ∈ Nat.toDigits 10 offset.toNat, c.isDigit = true :=
    fun c hc => Nat.isDigit_of_mem_toDigits (by decide) (by decide) hc
  -- a match from further to the left would take the slash for a digit
  have hslas : ∀ front : List Char,
      matchAt (front ++ '/' :: snapshotFileName offset) = none := by
    intro front
    rw [eq_none_iff_forall_ne_some]
    intro digits hmat
    obtain ⟨any, htext, hall⟩ := matchAt_eq_some hmat
    rw [snapshotFileName, ← cons_append, ← append_assoc] at htext
    have hfrt := append_inj_left' htext rfl
    have hdigit := hall '/' (by rw [← hfrt]; simp)
    exact absurd hdigit (by decide)
  induction snapshotDir with
  | nil =>
    obtain ⟨first, rest, hname⟩ := exists_cons_of_ne_nil (l := snapshotFileName offset)
      (by simp [snapshotFileName, hne])
    rw [nil_append, snapshotMatch_cons, ← nil_append ('/' :: _), hslas, hname,
      snapshotMatch_cons, ← hname, snapshotFileName, matchAt_append hne hdig]
    rfl
  | cons c rest ih =>
    rw [cons_append, snapshotMatch_cons, ← cons_append, hslas, ih]
    rfl

theorem suffix_of_snapshotMatch {path : List Char} {found : List Char × FileName}
    (h : snapshotMatch path = some found) : kSnapshot <:+ path := by
  obtain ⟨text, ht, hf⟩ := exists_of_findSome?_eq_some h
  obtain ⟨digits, hd, -⟩ := map_eq_some_iff.mp hf
  obtain ⟨any, rfl, -⟩ := matchAt_eq_some hd
  exact List.IsSuffix.trans ⟨digits ++ [any], by simp⟩ ((mem_tails _ _).mp ht)

theorem snapshotMatch_tmpSnapshotFileName (snapshotDir : List Char) (offset : UInt64) :
    snapshotMatch (snapshotDir ++ '/' :: tmpSnapshotFileName offset) = none := by
  rw [eq_none_iff_forall_ne_some]
  intro found hf
  have he := (suffix_of_snapshotMatch hf).getLast (by simp [kSnapshot])
  simp [kSnapshot, tmpSnapshotFileName] at he

theorem snapshotFileName_injective {offset other : UInt64}
    (h : snapshotFileName offset = snapshotFileName other) : offset = other := by
  have hd := append_cancel_right h
  have hv := congrArg (Nat.ofDigitChars 10 · 0) hd
  simp only [Nat.ofDigitChars_ten_toDigits] at hv
  exact UInt64.toNat_inj.mp hv

theorem tmpSnapshotFileName_ne (offset other : UInt64) :
    tmpSnapshotFileName offset ≠ snapshotFileName other := by
  intro h
  have he := congrArg List.getLast? h
  simp [tmpSnapshotFileName, snapshotFileName, kSnapshotSuffix, kSnapshot] at he

/-- What the loop has found once it has seen `listing`. -/
inductive IsLargest (listing : List FileName) : Int × FileName → Prop
  | nothing : (∀ offset, snapshotFileName offset ∉ listing) → IsLargest listing (-1, [])
  | found (offset : UInt64) : snapshotFileName offset ∈ listing →
      (∀ other, snapshotFileName other ∈ listing → other ≤ offset) →
      IsLargest listing (offset.toNat, snapshotFileName offset)

/-- The names attempts give to files. -/
def IsKnown (name : FileName) : Prop :=
  ∃ offset, name = snapshotFileName offset ∨ name = tmpSnapshotFileName offset

theorem scan_snapshotFileName (snapshotDir : List Char) (largest : Int × FileName)
    (offset : UInt64) :
    scan largest (snapshotDir ++ '/' :: snapshotFileName offset) =
      if offset.toNat < 2 ^ 63 then
        if largest.1 < offset.toNat then .ok (offset.toNat, snapshotFileName offset)
        else .ok largest
      else .error .outOfRange := by
  simp [scan, snapshotMatch_snapshotFileName]

theorem scan_tmpSnapshotFileName (snapshotDir : List Char) (largest : Int × FileName)
    (offset : UInt64) :
    scan largest (snapshotDir ++ '/' :: tmpSnapshotFileName offset) = .ok largest := by
  simp [scan, snapshotMatch_tmpSnapshotFileName]

section Listing

variable (snapshotDir : List Char) {listing : List FileName}

theorem IsLargest.scan {seen : List FileName} {largest : Int × FileName} {name : FileName}
    (h : IsLargest seen largest) (hkn : IsKnown name)
    (hrng : ∀ offset, snapshotFileName offset = name → offset.toNat < 2 ^ 63) :
    ∃ next, scan largest (snapshotDir ++ '/' :: name) = .ok next ∧
      IsLargest (seen ++ [name]) next := by
  obtain ⟨offset, rfl | rfl⟩ := hkn
  · have hmem : ∀ other, snapshotFileName other ∈ seen ++ [snapshotFileName offset] ↔
        snapshotFileName other ∈ seen ∨ other = offset := by
      intro other
      rw [mem_append, mem_singleton]
      exact or_congr_right ⟨snapshotFileName_injective, congrArg _⟩
    rw [scan_snapshotFileName, if_pos (hrng offset rfl)]
    have hlast := (hmem offset).mpr (.inr rfl)
    cases h with
    | nothing hnone =>
      have hless : ((-1 : Int), ([] : FileName)).1 < offset.toNat := by simp only; omega
      rw [if_pos hless]
      refine ⟨_, rfl, .found offset hlast fun other hoth => ?_⟩
      rcases (hmem other).mp hoth with hseen | rfl
      · exact absurd hseen (hnone other)
      · exact UInt64.le_refl _
    | found best hbest hall =>
      by_cases hless : (best.toNat : Int) < offset.toNat
      · rw [if_pos hless]
        refine ⟨_, rfl, .found offset hlast fun other hoth => ?_⟩
        rcases (hmem other).mp hoth with hseen | rfl
        · exact UInt64.le_trans (hall other hseen) (UInt64.le_iff_toNat_le.mpr (by omega))
        · exact UInt64.le_refl _
      · rw [if_neg hless]
        refine ⟨_, rfl, .found best ((hmem best).mpr (.inl hbest)) fun other hoth => ?_⟩
        rcases (hmem other).mp hoth with hseen | rfl
        · exact hall other hseen
        · exact UInt64.le_iff_toNat_le.mpr (by omega)
  · have hmem : ∀ other, snapshotFileName other ∈ seen ++ [tmpSnapshotFileName offset] ↔
        snapshotFileName other ∈ seen := by
      intro other
      simp [(tmpSnapshotFileName_ne offset other).symm]
    refine ⟨largest, scan_tmpSnapshotFileName snapshotDir largest offset, ?_⟩
    cases h with
    | nothing hnone => exact .nothing fun other hoth => hnone other ((hmem other).mp hoth)
    | found best hbest hall =>
      exact .found best ((hmem best).mpr hbest) fun other hoth =>
        hall other ((hmem other).mp hoth)

theorem exists_isLargest (hkn : ∀ name ∈ listing, IsKnown name)
    (hr : ∀ offset, snapshotFileName offset ∈ listing → offset.toNat < 2 ^ 63) :
    ∃ largest, (listing.map fun name => snapshotDir ++ '/' :: name).foldlM scan (-1, []) =
      .ok largest ∧ IsLargest listing largest := by
  induction listing using List.reverseRecOn with
  | nil => exact ⟨_, rfl, .nothing (by simp)⟩
  | append_singleton seen name ih =>
    obtain ⟨largest, hs, hl⟩ := ih (fun other hoth => hkn other (by simp [hoth]))
      fun offset ho => hr offset (by simp [ho])
    obtain ⟨next, hscan, hn⟩ := hl.scan snapshotDir
      (hkn name (by simp)) fun offset ho => hr offset (by simp [ho])
    refine ⟨next, ?_, hn⟩
    rw [map_append, foldlM_append, hs, ← hscan]
    exact bind_pure (scan largest _)

theorem foldlM_scan_of_le {offset : UInt64} (hm : snapshotFileName offset ∈ listing)
    (hle : 2 ^ 63 ≤ offset.toNat) :
    (listing.map fun name => snapshotDir ++ '/' :: name).foldlM scan (-1, []) =
      .error .outOfRange := by
  obtain ⟨seen, rest, rfl⟩ := append_of_mem hm
  rw [map_append, foldlM_append]
  cases (seen.map fun name => snapshotDir ++ '/' :: name).foldlM scan (-1, []) with
  | error check => rfl
  | ok largest =>
    have hs := scan_snapshotFileName snapshotDir largest offset
    rw [if_neg (by omega)] at hs
    have hr : ((snapshotFileName offset :: rest).map fun name =>
        snapshotDir ++ '/' :: name).foldlM scan largest = .error .outOfRange := by
      rw [map_cons, foldlM_cons, hs]
      rfl
    exact hr

end Listing

/-- The attempt's file gets its final name. -/
def Attempt.isVisible (attempt : Attempt) : Bool :=
  attempt.opens && attempt.renames && (attempt.crash = none || attempt.crash = some .beforeReturn)

/-- The directory, with the offsets and contents of the attempts that completed
their content and renamed it, newest first. -/
structure History where
  files : Files := ∅
  successes : List (UInt64 × Content) := []

def History.take (s : History) (attempt : Attempt) : History where
  files := (takeSnapshotAndPersist s.files attempt).1
  successes :=
    if attempt.isVisible && attempt.result then
      (attempt.offset, attempt.content) :: s.successes
    else s.successes

/-- The success with the largest offset, the newest one if several have it. -/
def latest : List (UInt64 × Content) → Option (UInt64 × Content)
  | [] => none
  | success :: older =>
    match latest older with
    | none => some success
    | some best => if best.1 ≤ success.1 then some success else some best

/-- However the directory is listed, the latest success is what is opened. -/
def History.LoadsLatest (snapshotDir : List Char) (s : History) : Prop :=
  ∀ listing : List FileName, listing.Perm s.files.keys →
    loadLatestSnapshot snapshotDir s.files listing =
      .ok ((latest s.successes).map fun success => (snapshotFileName success.1, success.2))

/-- What an attempt may do without spoiling the next load. -/
def History.IsSound (s : History) (attempt : Attempt) : Prop :=
  attempt.isVisible = true → attempt.offset.toNat < 2 ^ 63 ∧ (attempt.result = true ∨
      (∃ offset, snapshotFileName offset ∈ s.files ∧ attempt.offset < offset) ∨
      s.files.lookup (snapshotFileName attempt.offset) = some attempt.content)

def soundAttempts : System History :=
  System.ofGuardedStep {} History.IsSound fun s attempt => some (s.take attempt)

theorem takeSnapshotAndPersist_files (files : Files) (attempt : Attempt) :
    (attempt.isVisible = true ∧ (takeSnapshotAndPersist files attempt).1 =
      ((files.insert (tmpSnapshotFileName attempt.offset) attempt.content).erase
        (tmpSnapshotFileName attempt.offset)).insert
          (snapshotFileName attempt.offset) attempt.content) ∨
      attempt.isVisible = false ∧ ((takeSnapshotAndPersist files attempt).1 = files ∨
        ∃ left, (takeSnapshotAndPersist files attempt).1 =
          files.insert (tmpSnapshotFileName attempt.offset) left) := by
  obtain ⟨offset, content, result, opens, renames, crash⟩ := attempt
  rcases crash with _ | _ | left | _ | _ <;> cases opens <;> cases renames <;>
    simp [takeSnapshotAndPersist, Attempt.isVisible] <;> exact .inr ⟨_, rfl⟩

theorem lookup_take (s : History) (attempt : Attempt) (offset : UInt64) :
    (s.take attempt).files.lookup (snapshotFileName offset) =
      if attempt.isVisible = true ∧ offset = attempt.offset then some attempt.content
      else s.files.lookup (snapshotFileName offset) := by
  have ht : snapshotFileName offset ≠ tmpSnapshotFileName attempt.offset :=
    (tmpSnapshotFileName_ne _ _).symm
  unfold History.take
  rcases takeSnapshotAndPersist_files s.files attempt with ⟨hv, hf⟩ | ⟨hv, hf | ⟨left, hf⟩⟩
  · simp only [hf, hv, true_and]
    by_cases heq : offset = attempt.offset
    · subst heq
      rw [if_pos rfl, lookup_insert]
    · rw [if_neg heq, lookup_insert_ne fun h => heq (snapshotFileName_injective h),
        lookup_erase_ne ht, lookup_insert_ne ht]
  · simp [hf, hv]
  · simp only [hf, hv, Bool.false_eq_true, false_and, if_false]
    exact lookup_insert_ne ht

theorem isKnown_take {s : History} {attempt : Attempt} (h : ∀ name ∈ s.files, IsKnown name) :
    ∀ name ∈ (s.take attempt).files, IsKnown name := by
  intro name hn
  unfold History.take at hn
  rcases takeSnapshotAndPersist_files s.files attempt with ⟨-, hf⟩ | ⟨-, hf | ⟨left, hf⟩⟩
  · rw [hf, mem_insert, mem_erase, mem_insert] at hn
    rcases hn with rfl | ⟨hne, rfl | ho⟩
    · exact ⟨_, .inl rfl⟩
    · exact absurd rfl hne
    · exact h name ho
  · rw [hf] at hn
    exact h name hn
  · rw [hf, mem_insert] at hn
    rcases hn with rfl | ho
    · exact ⟨_, .inr rfl⟩
    · exact h name ho

/-- What the directory must look like for the next load. -/
structure History.IsReady (s : History) : Prop where
  range : ∀ {offset content}, s.files.lookup (snapshotFileName offset) = some content →
    offset.toNat < 2 ^ 63
  latest_eq : ∀ {offset content}, s.files.lookup (snapshotFileName offset) = some content →
    ∃ best, latest s.successes = some best ∧ offset ≤ best.1
  lookup_eq : ∀ {best}, latest s.successes = some best →
    s.files.lookup (snapshotFileName best.1) = some best.2

section Load

variable {s : History} {snapshotDir : List Char} {listing : List FileName}

theorem mem_iff_lookup {files : Files} {name : FileName} :
    name ∈ files.keys ↔ ∃ content, files.lookup name = some content := by
  rw [← AList.mem_keys, ← AList.lookup_isSome, isSome_iff_exists]

/-- The load opens the visible file with the largest offset. -/
theorem load_cases (hkn : ∀ name ∈ s.files, IsKnown name)
    (hrng : ∀ {offset content}, s.files.lookup (snapshotFileName offset) = some content →
      offset.toNat < 2 ^ 63) (hlist : listing.Perm s.files.keys) :
    (loadLatestSnapshot snapshotDir s.files listing = .ok none ∧
      ∀ offset, s.files.lookup (snapshotFileName offset) = none) ∨
      ∃ offset content, s.files.lookup (snapshotFileName offset) = some content ∧
        loadLatestSnapshot snapshotDir s.files listing =
          .ok (some (snapshotFileName offset, content)) ∧
        ∀ {other content'}, s.files.lookup (snapshotFileName other) = some content' →
          other ≤ offset := by
  have hmem : ∀ name, name ∈ listing ↔ ∃ content, s.files.lookup name = some content :=
    fun name => hlist.mem_iff.trans mem_iff_lookup
  obtain ⟨largest, hfold, hlar⟩ := exists_isLargest snapshotDir
    (fun name hname => hkn name (hlist.mem_iff.mp hname))
    fun offset hoff => hrng ((hmem _).mp hoff).choose_spec
  unfold loadLatestSnapshot getLargestSnapshot
  rw [hfold]
  cases hlar with
  | nothing hnone =>
    refine .inl ⟨rfl, fun offset => eq_none_iff_forall_ne_some.mpr ?_⟩
    exact fun content hlook => hnone offset ((hmem _).mpr ⟨content, hlook⟩)
  | found offset hoff hall =>
    obtain ⟨content, hlook⟩ := (hmem _).mp hoff
    refine .inr ⟨offset, content, hlook, ?_, fun h => hall _ ((hmem _).mpr ⟨_, h⟩)⟩
    have hidx : (offset.toNat : Int) ≠ -1 := by omega
    simp [Except.map, hidx, hlook]

theorem loadsLatest_iff (hkn : ∀ name ∈ s.files, IsKnown name) :
    s.LoadsLatest snapshotDir ↔ s.IsReady := by
  constructor
  · intro h
    have hkeys := h s.files.keys (List.Perm.refl _)
    have hrng : ∀ {offset content},
        s.files.lookup (snapshotFileName offset) = some content → offset.toNat < 2 ^ 63 := by
      intro offset content hlook
      by_contra hle
      have hfold := foldlM_scan_of_le snapshotDir
        (mem_iff_lookup.mpr ⟨content, hlook⟩) (not_lt.mp hle)
      rw [loadLatestSnapshot, getLargestSnapshot, hfold] at hkeys
      cases hkeys
    refine ⟨hrng, ?_, ?_⟩ <;> rcases load_cases hkn hrng (List.Perm.refl _) with ⟨hload, hnone⟩ |
        ⟨best, found, hlook, hload, hall⟩ <;>
      rw [hload, Except.ok.injEq] at hkeys
    · exact fun h => absurd h (by simp [hnone])
    · obtain ⟨success, hsuc, heq⟩ := map_eq_some_iff.mp hkeys.symm
      obtain rfl := snapshotFileName_injective (Prod.mk.inj heq).1
      exact fun h => ⟨success, hsuc, hall h⟩
    · intro best hbest
      rw [hbest] at hkeys
      cases hkeys
    · intro success hsuc
      rw [hsuc] at hkeys
      obtain ⟨hname, rfl⟩ := Prod.mk.inj (some.inj hkeys)
      rw [← hname]
      exact hlook
  · intro h listing hlist
    rcases load_cases hkn h.range hlist with ⟨hload, hnone⟩ | ⟨offset, content, hlook, hload, hall⟩
    · cases hlat : latest s.successes with
      | none => exact hload
      | some best =>
        have hbest := h.lookup_eq hlat
        rw [hnone] at hbest
        cases hbest
    · obtain ⟨best, hlat, hle⟩ := h.latest_eq hlook
      have hbest := h.lookup_eq hlat
      obtain rfl : best.1 = offset := UInt64.le_antisymm (hall hbest) hle
      rw [hload, hlat, map_some, some.inj (hlook.symm.trans hbest)]

end Load

theorem History.IsReady.congr {s after : History} (h : s.IsReady)
    (hl : ∀ offset, after.files.lookup (snapshotFileName offset) =
      s.files.lookup (snapshotFileName offset)) (hs : after.successes = s.successes) :
    after.IsReady := by
  refine ⟨?_, ?_, ?_⟩ <;> simp only [hl, hs]
  exacts [h.range, h.latest_eq, h.lookup_eq]

theorem latest_cons (success : UInt64 × Content) (older : List (UInt64 × Content)) :
    ∃ best, latest (success :: older) = some best ∧ success.1 ≤ best.1 ∧
      (best = success ∨ latest older = some best ∧ success.1 < best.1) ∧
      ∀ other, latest older = some other → other.1 ≤ best.1 := by
  rw [latest]
  cases hl : latest older with
  | none => exact ⟨success, rfl, UInt64.le_refl _, .inl rfl, by simp⟩
  | some best =>
    by_cases hle : best.1 ≤ success.1
    · exact ⟨success, by simp [hle], UInt64.le_refl _, .inl rfl, by simpa using hle⟩
    · have hlt := UInt64.not_le.mp hle
      exact ⟨best, by simp [hle], UInt64.le_of_lt hlt, .inr ⟨rfl, hlt⟩, by simp⟩

section Attempt

variable {s : History} {attempt : Attempt}

/-- A completed attempt is the latest success, or the latest one has a larger offset. -/
theorem isReady_take_of_result (h : s.IsReady) (hvis : attempt.isVisible = true)
    (hres : attempt.result = true) (hrng : attempt.offset.toNat < 2 ^ 63) :
    (s.take attempt).IsReady := by
  have hlook := lookup_take s attempt
  simp only [hvis, true_and] at hlook
  have hsuc : (s.take attempt).successes =
      (attempt.offset, attempt.content) :: s.successes := by
    simp [History.take, hvis, hres]
  obtain ⟨best, hlat, hle, hbest, hmax⟩ :=
    latest_cons (attempt.offset, attempt.content) s.successes
  refine ⟨fun hfile => ?_, fun hfile => ?_, fun hnew => ?_⟩
  · rw [hlook] at hfile
    split at hfile
    · rename_i heq
      exact heq ▸ hrng
    · exact h.range hfile
  · rw [hlook] at hfile
    refine ⟨best, hsuc ▸ hlat, ?_⟩
    split at hfile
    · rename_i heq
      exact heq ▸ hle
    · obtain ⟨other, hother, hoth⟩ := h.latest_eq hfile
      exact UInt64.le_trans hoth (hmax other hother)
  · rw [hsuc, hlat] at hnew
    obtain rfl := some.inj hnew
    rw [hlook]
    rcases hbest with rfl | ⟨hold, hlt⟩
    · exact if_pos rfl
    · rw [if_neg (UInt64.ne_of_lt hlt).symm]
      exact h.lookup_eq hold

/-- A file that is not complete must stay below a visible one, or change nothing. -/
theorem isReady_take_iff_of_not_result (h : s.IsReady) (hvis : attempt.isVisible = true)
    (hres : attempt.result = false) (hrng : attempt.offset.toNat < 2 ^ 63) :
    (s.take attempt).IsReady ↔
      (∃ offset, snapshotFileName offset ∈ s.files ∧ attempt.offset < offset) ∨
        s.files.lookup (snapshotFileName attempt.offset) = some attempt.content := by
  have hlook := lookup_take s attempt
  simp only [hvis, true_and] at hlook
  have hsuc : (s.take attempt).successes = s.successes := by
    simp [History.take, hres]
  have hown : (s.take attempt).files.lookup (snapshotFileName attempt.offset) =
      some attempt.content := by rw [hlook, if_pos rfl]
  constructor
  · intro hrdy
    obtain ⟨best, hlat, hle⟩ := hrdy.latest_eq hown
    rw [hsuc] at hlat
    have hbest := h.lookup_eq hlat
    by_cases heq : best.1 = attempt.offset
    · have hnew := hrdy.lookup_eq (hsuc ▸ hlat)
      rw [heq, hown] at hnew
      rw [heq, ← hnew] at hbest
      exact .inr hbest
    · refine .inl ⟨best.1, mem_iff_lookup.mpr ⟨best.2, hbest⟩, ?_⟩
      exact UInt64.lt_of_le_of_ne hle (Ne.symm heq)
  · rintro (⟨offset, hmem, hlt⟩ | hsame)
    · obtain ⟨content, hfile⟩ := mem_iff_lookup.mp hmem
      obtain ⟨best, hlat, hle⟩ := h.latest_eq hfile
      have hless := UInt64.lt_of_lt_of_le hlt hle
      refine ⟨fun hfile' => ?_, fun hfile' => ?_, fun hnew => ?_⟩
      · rw [hlook] at hfile'
        split at hfile'
        · rename_i heq
          exact heq ▸ hrng
        · exact h.range hfile'
      · rw [hlook] at hfile'
        rw [hsuc]
        split at hfile'
        · rename_i heq
          exact ⟨best, hlat, heq ▸ UInt64.le_of_lt hless⟩
        · exact h.latest_eq hfile'
      · rw [hsuc, hlat] at hnew
        obtain rfl := some.inj hnew
        rw [hlook, if_neg (UInt64.ne_of_lt hless).symm]
        exact h.lookup_eq hlat
    · refine h.congr (fun offset => ?_) hsuc
      rw [hlook]
      split
      · rename_i heq
        rw [heq, hsame]
      · rfl

theorem isReady_take_iff (h : s.IsReady) : (s.take attempt).IsReady ↔ s.IsSound attempt := by
  have hl := lookup_take s attempt
  by_cases hvis : attempt.isVisible = true
  · have ho : (s.take attempt).files.lookup (snapshotFileName attempt.offset) =
        some attempt.content := by rw [hl, if_pos ⟨hvis, rfl⟩]
    unfold History.IsSound
    simp only [hvis, forall_true_left]
    by_cases hr : attempt.offset.toNat < 2 ^ 63
    · cases hres : attempt.result with
      | true => exact iff_of_true (isReady_take_of_result h hvis hres hr) ⟨hr, .inl rfl⟩
      | false =>
        rw [isReady_take_iff_of_not_result h hvis hres hr]
        simp only [hr, true_and, Bool.false_eq_true, false_or]
    · exact iff_of_false (fun hrdy => hr (hrdy.range ho)) fun hs => hr hs.1
  · have hs : s.IsSound attempt := fun hv => absurd hv hvis
    refine iff_of_true (h.congr (fun offset => ?_) ?_) hs
    · rw [hl, if_neg fun hv => hvis hv.1]
    · simp [History.take, hvis]

end Attempt

theorem inv_of_reachable {s : History} (h : soundAttempts.Reachable s) :
    (∀ name ∈ s.files, IsKnown name) ∧ s.IsReady := by
  refine h.invariant (fun s => (∀ name ∈ s.files, IsKnown name) ∧ s.IsReady) ?_ ?_
  · rintro _ rfl
    refine ⟨fun name hn => absurd hn (AList.notMem_empty name), ?_, ?_, ?_⟩ <;>
      intro <;> simp_all [latest]
  · rintro s _ hs ⟨attempt, hsnd, hstep⟩
    obtain rfl := some.inj hstep
    exact ⟨isKnown_take hs.1, (isReady_take_iff hs.2).mpr hsnd⟩

/-- After sound attempts the latest success is loaded, and an attempt keeps it so
exactly if it is sound. -/
theorem latest_snapshot_loads_iff (snapshotDir : List Char) {s : History}
    (h : soundAttempts.Reachable s) :
    s.LoadsLatest snapshotDir ∧
      ∀ attempt, (s.take attempt).LoadsLatest snapshotDir ↔ s.IsSound attempt := by
  obtain ⟨hk, hr⟩ := inv_of_reachable h
  refine ⟨(loadsLatest_iff hk).mpr hr, fun attempt => ?_⟩
  rw [loadsLatest_iff (isKnown_take hk)]
  exact isReady_take_iff hr

/-- The content at offset 5 could not be created either, but there is a snapshot above it. -/
theorem latest_snapshot_loads_failedBelow :
    let s := (History.take {} { offset := 7, content := [1] }).take
      { offset := 5, content := [2], result := false }
    snapshotFileName 5 ∈ s.files ∧ latest s.successes = some (7, [1]) ∧ s.LoadsLatest ['d'] := by
  have hr : soundAttempts.Reachable (History.take {} { offset := 7, content := [1] }) :=
    .step (.init rfl) ⟨_, fun _ => ⟨by decide, .inl rfl⟩, rfl⟩
  refine ⟨by decide, by decide, ((latest_snapshot_loads_iff ['d'] hr).2 _).mpr fun _ => ?_⟩
  exact ⟨by decide, .inr (.inl ⟨7, by decide, by decide⟩)⟩

/-- Above the snapshot the same content is what gets loaded. -/
theorem incomplete_snapshot_loaded :
    let s := (History.take {} { offset := 5, content := [1] }).take
      { offset := 7, content := [2], result := false }
    latest s.successes = some (5, [1]) ∧
      loadLatestSnapshot ['d'] s.files s.files.keys = .ok (some (snapshotFileName 7, [2])) := by
  decide +kernel

end Snapshots

end MySuperLedger
