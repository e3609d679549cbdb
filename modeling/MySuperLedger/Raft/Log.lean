import MySuperLedger.Collections.Budget

/-! # The write-ahead log of a node

The state that survives a crash: the entries from `firstIndex` on, the current
term and the vote. Terms and indices are natural numbers; an index is a position
in the log, starting at 1. What an entry carries besides its term and index
(payload, checksum, key version, tag) is never read by the log or by the
protocol and is one type parameter.
-/

namespace MySuperLedger.Raft

open Collections List Option

structure LogEntry (Payload : Type) where
  term : Nat
  index : Nat
  noop : Bool
  payload : Payload
deriving DecidableEq, Repr

/-- The numerals of clusters with one and two nodes. -/
instance oneNode : NeZero 1 := ⟨Nat.one_ne_zero⟩

instance twoNodes : NeZero 2 := ⟨Nat.succ_ne_zero 1⟩

structure Log (size : Nat) (Payload : Type) where
  firstIndex : Nat
  entries : List (LogEntry Payload)
  currentTerm : Nat
  voteFor : Option (Fin size)
  /-- Every vote that was ever made durable, with its term. History: nothing reads it. -/
  votes : List (Nat × Fin size)
deriving DecidableEq

namespace Log

variable {size : Nat} {Payload : Type}

def empty : Log size Payload where
  firstIndex := 1
  entries := []
  currentTerm := 0
  voteFor := none
  votes := []

variable (log : Log size Payload)

def lastLogIndex : Nat := log.firstIndex - 1 + log.entries.length

def getEntry (index : Nat) : Option (LogEntry Payload) :=
  if index < log.firstIndex then none else log.entries[index - log.firstIndex]?

/-- The index just before the first one counts as term 0. -/
def getTerm (index : Nat) : Option Nat :=
  if index = log.firstIndex - 1 then some 0 else (log.getEntry index).map LogEntry.term

/-- A batch from `startIndex` on; the check that fails is the one on a start past the end.
A batch never crosses a segment, and `room` is what is left of the segment it starts in. -/
def getEntries (byteSize : LogEntry Payload → Nat)
    (startIndex maxLenInBytes maxBatchSize room : Nat) : Option (List (LogEntry Payload)) :=
  if log.lastLogIndex < startIndex then
    if startIndex = log.lastLogIndex + 1 then some [] else none
  else if startIndex < log.firstIndex then some []
  else
    some (within byteSize maxLenInBytes 0
      ((log.entries.drop (startIndex - log.firstIndex)).take (min maxBatchSize room)))

def appendEntry (entry : LogEntry Payload) : Option (Log size Payload) :=
  if entry.index = log.lastLogIndex + 1 then
    some { log with entries := log.entries ++ [entry] }
  else none

def truncateSuffix (lastIndexKept : Nat) : Log size Payload :=
  if log.lastLogIndex ≤ lastIndexKept then log
  else
    { log with
      firstIndex := if lastIndexKept < log.firstIndex then lastIndexKept + 1 else log.firstIndex
      entries := log.entries.take (lastIndexKept + 1 - log.firstIndex) }

def truncatePrefix (firstIndexKept : Nat) : Log size Payload :=
  if firstIndexKept ≤ log.firstIndex then log
  else
    { log with
      firstIndex := firstIndexKept
      entries := log.entries.drop (firstIndexKept - log.firstIndex) }

def setCurrentTerm (term : Nat) : Log size Payload :=
  { log with currentTerm := term }

def setVoteFor (voteFor : Option (Fin size)) : Log size Payload :=
  { log with
    voteFor := voteFor
    votes := log.votes ++ (voteFor.map (log.currentTerm, ·)).toList }

def IsNumbered (entries : List (LogEntry Payload)) : Prop :=
  ∀ (k : Nat) (entry : LogEntry Payload), entries[k]? = some entry → entry.index = k + 1

variable {entries : List (LogEntry Payload)} {entry : LogEntry Payload} {index : Nat}
  {byteSize : LogEntry Payload → Nat} {startIndex maxLenInBytes maxBatchSize room : Nat}

theorem IsNumbered.of_isPrefix {entries' : List (LogEntry Payload)} (h : IsNumbered entries)
    (hp : entries' <+: entries) : IsNumbered entries' := by
  intro k entry hk
  rcases hp with ⟨rest, rfl⟩
  rcases List.getElem?_eq_some_iff.mp hk with ⟨hlt, _⟩
  exact h k entry (by rw [List.getElem?_append_left hlt, hk])

theorem IsNumbered.concat (h : IsNumbered entries) (hi : entry.index = entries.length + 1) :
    IsNumbered (entries ++ [entry]) := by
  intro k e hk
  rcases Nat.lt_trichotomy k entries.length with hlt | heq | hgt
  · rw [getElem?_append_left hlt] at hk
    exact h k e hk
  · rw [heq, getElem?_concat_length] at hk
    cases hk
    rw [hi, heq]
  · rw [getElem?_eq_none (by simp; omega)] at hk
    cases hk

variable {before : List (LogEntry Payload)} {log' : Log size Payload}
  {batch : List (LogEntry Payload)}

theorem IsNumbered.index_eq (h : IsNumbered entries) (hp : before ++ [entry] <+: entries) :
    entry.index = before.length + 1 := by
  rcases hp with ⟨rest, rfl⟩
  exact h before.length entry (by simp)

theorem isNumbered_of_index_eq
    (h : ∀ before entry, before ++ [entry] <+: entries → entry.index = before.length + 1) :
    IsNumbered entries := by
  intro k entry hk
  rcases List.getElem?_eq_some_iff.mp hk with ⟨hlt, heq⟩
  have hp : entries.take k ++ [entry] <+: entries := by
    rw [← heq, take_concat_get']
    exact take_prefix _ _
  have hi := h _ _ hp
  rwa [length_take_of_le hlt.le] at hi

theorem IsNumbered.concat_isPrefix (h : IsNumbered entries) (hb : before <+: entries)
    (hm : entry ∈ entries) (hi : entry.index = before.length + 1) :
    before ++ [entry] <+: entries := by
  rcases append_of_mem hm with ⟨front, rest, heq⟩
  have hf : front ++ [entry] <+: entries := ⟨rest, by simp [heq]⟩
  have hl := h.index_eq hf
  have hs : before = front := by
    refine (prefix_of_prefix_length_le hb ((prefix_append _ _).trans hf)
      (by omega)).eq_of_length (by omega)
  rw [hs]
  exact hf

theorem IsNumbered.index_le (h : IsNumbered entries) (hm : entry ∈ entries) :
    entry.index ≤ entries.length := by
  rcases append_of_mem hm with ⟨front, rest, rfl⟩
  have hi := h.index_eq (show front ++ [entry] <+: _ from ⟨rest, by simp⟩)
  simp
  omega

/-- Nothing was dropped in front, and every entry knows its position. -/
structure IsWhole (log : Log size Payload) : Prop where
  firstIndex_eq : log.firstIndex = 1
  numbered : IsNumbered log.entries

variable {log : Log size Payload}

theorem isWhole_empty : (empty : Log size Payload).IsWhole where
  firstIndex_eq := rfl
  numbered k entry h := by simp [empty] at h

section

variable (h : log.IsWhole)
include h

theorem IsWhole.lastLogIndex_eq : log.lastLogIndex = log.entries.length := by
  unfold lastLogIndex
  rw [h.firstIndex_eq]
  omega

theorem IsWhole.getEntry_eq (hp : 1 ≤ index) : log.getEntry index = log.entries[index - 1]? := by
  unfold getEntry
  rw [h.firstIndex_eq, if_neg (by omega)]

theorem IsWhole.one_le_of_getEntry (he : log.getEntry index = some entry) : 1 ≤ index := by
  by_contra hlt
  unfold getEntry at he
  rw [h.firstIndex_eq, if_pos (by omega)] at he
  cases he

theorem IsWhole.getEntry_of_mem (hm : entry ∈ log.entries) :
    log.getEntry entry.index = some entry := by
  obtain ⟨k, hk⟩ := getElem?_of_mem hm
  have hi := h.numbered k entry hk
  rw [h.getEntry_eq (by omega), hi]
  exact hk

theorem IsWhole.exists_concat_of_getEntry (he : log.getEntry index = some entry) :
    ∃ before, before.length + 1 = index ∧ before ++ [entry] <+: log.entries := by
  have hp := h.one_le_of_getEntry he
  rw [h.getEntry_eq hp] at he
  rcases List.getElem?_eq_some_iff.mp he with ⟨hlt, heq⟩
  refine ⟨log.entries.take (index - 1), ?_, ?_⟩
  · rw [length_take]
    omega
  · rw [← heq, take_concat_get']
    exact take_prefix _ _

theorem IsWhole.exists_getEntry (h' : log'.IsWhole)
    {shared : List (LogEntry Payload)} (hs : shared <+: log.entries)
    (hs' : shared <+: log'.entries) (hp : 1 ≤ index) (hle : index ≤ shared.length) :
    ∃ entry, log.getEntry index = some entry ∧ log'.getEntry index = some entry := by
  have hlt : index - 1 < shared.length := by omega
  refine ⟨shared[index - 1], ?_, ?_⟩
  · rw [h.getEntry_eq hp, hs.getElem hlt]
    exact getElem?_eq_getElem _
  · rw [h'.getEntry_eq hp, hs'.getElem hlt]
    exact getElem?_eq_getElem _

theorem IsWhole.getEntry_of_isPrefix (h' : log'.IsWhole)
    (hpre : log.entries <+: log'.entries) (he : log.getEntry index = some entry) :
    log'.getEntry index = some entry := by
  have hp := h.one_le_of_getEntry he
  rw [h.getEntry_eq hp] at he
  rw [h'.getEntry_eq hp]
  rcases List.getElem?_eq_some_iff.mp he with ⟨hlt, rfl⟩
  exact List.prefix_iff_getElem?.mp hpre _ hlt

theorem IsWhole.getTerm_eq (hle : index ≤ log.entries.length) : log.getTerm index =
      some (((log.entries.take index).getLast?.map LogEntry.term).getD 0) := by
  unfold getTerm getEntry
  rw [h.firstIndex_eq]
  rcases index with _ | k
  · simp
  · have hk : k < log.entries.length := hle
    simp [getLast?_take, getElem?_eq_getElem hk]

theorem IsWhole.appendEntry_eq (hi : entry.index = log.entries.length + 1) :
    log.appendEntry entry = some { log with entries := log.entries ++ [entry] } := by
  unfold appendEntry
  rw [h.lastLogIndex_eq, if_pos hi]

theorem IsWhole.truncateSuffix_eq {kept : Nat} (hlt : kept < log.entries.length) :
    log.truncateSuffix kept = { log with entries := log.entries.take kept } := by
  unfold truncateSuffix
  rw [h.lastLogIndex_eq, if_neg (by omega), h.firstIndex_eq]
  have hf : (if kept < 1 then kept + 1 else 1) = 1 := by
    split
    · omega
    · rfl
  rw [hf, Nat.add_sub_cancel, ← h.firstIndex_eq]

end

theorem IsWhole.getEntries_inv (h : log.IsWhole)
    (hb : log.getEntries byteSize startIndex maxLenInBytes maxBatchSize room = some batch) :
    startIndex ≤ log.entries.length + 1 ∧ batch <+: log.entries.drop (startIndex - 1) := by
  unfold getEntries at hb
  rw [h.lastLogIndex_eq, h.firstIndex_eq] at hb
  split at hb
  · split at hb
    · cases hb
      exact ⟨by omega, nil_prefix⟩
    · cases hb
  · split at hb
    · cases hb
      exact ⟨by omega, nil_prefix⟩
    · cases hb
      exact ⟨by omega, within_isPrefix.trans (List.take_prefix _ _)⟩

theorem getEntries_length_le
    (hb : log.getEntries byteSize startIndex maxLenInBytes maxBatchSize room = some batch) :
    batch.length ≤ maxBatchSize := by
  unfold getEntries at hb
  split at hb
  · split at hb
    · cases hb
      exact Nat.zero_le _
    · cases hb
  · split at hb
    · cases hb
      exact Nat.zero_le _
    · cases hb
      have hl := (within_isPrefix : within byteSize maxLenInBytes 0
        ((log.entries.drop (startIndex - log.firstIndex)).take
          (min maxBatchSize room)) <+: _).length_le
      simp only [length_take] at hl
      omega

theorem IsWhole.getEntries_ne_none (h : log.IsWhole) (hle : startIndex ≤ log.entries.length + 1) :
    log.getEntries byteSize startIndex maxLenInBytes maxBatchSize room ≠ none := by
  unfold getEntries
  rw [h.lastLogIndex_eq]
  split
  · rw [if_pos (by omega)]
    exact some_ne_none _
  · split
    · exact some_ne_none _
    · exact some_ne_none _

end Log

end MySuperLedger.Raft
