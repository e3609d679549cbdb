import MySuperLedger.Storage.Reading

/-! # Reads up to the commit index

`loadCommandEventsList` serves the entries from a given index on. It cuts the size
it is asked for down to the commit index, and `RaftCore::getEntries` asserts the
same range once more. Both compute the last index of the range in 64 bits.
-/

namespace MySuperLedger.Storage

open Collections Effects List SegmentLog

variable {Entry : Type} (config : Config Entry)

inductive LoadCheck where
  /-- `startIndex + size - 1 <= mCommitIndex` -/
  | range
  | log (check : Check)
  deriving DecidableEq

/-- `RaftCore::getEntries`. -/
def RaftCore.getEntries (disk : Disk) (log : SegmentLog) (commitIndex : UInt64)
    (maxLenInBytes : Nat) (startIndex size : UInt64) : Except LoadCheck (Nat × List Entry) :=
  if startIndex + size - 1 ≤ commitIndex then
    (log.getEntries config disk startIndex.toNat maxLenInBytes size.toNat).mapError .log
  else .error .range

/-- The size of the range that is read. -/
def clampedSize (commitIndex commandId size : UInt64) : UInt64 :=
  if commandId + size - 1 > commitIndex then commitIndex - commandId + 1 else size

/-- `loadCommandEventsList`, up to the entries that are decrypted then. -/
def loadCommandEventsList (disk : Disk) (log : SegmentLog) (commitIndex : UInt64)
    (maxLenInBytes : Nat) (commandId size : UInt64) : Except LoadCheck (Nat × List Entry) :=
  if commandId ≤ 0 ∨ commandId > commitIndex then .ok (0, [])
  else
    RaftCore.getEntries config disk log commitIndex maxLenInBytes commandId
      (clampedSize commitIndex commandId size)

section

variable {commitIndex commandId size : UInt64}

theorem range_of_wraps (hf : 1 ≤ commandId.toNat) (hc : commandId.toNat ≤ commitIndex.toNat)
    (hw : 2 ^ 64 < commandId.toNat + size.toNat) : commandId + size - 1 ≤ commitIndex := by
  have hs := size.toNat_lt
  rw [UInt64.le_iff_toNat_le, UInt64.toNat_sub, UInt64.toNat_add]
  simp only [UInt64.toNat_one]
  omega

theorem clampedSize_of_wraps (hf : 1 ≤ commandId.toNat) (hc : commandId.toNat ≤ commitIndex.toNat)
    (hw : 2 ^ 64 < commandId.toNat + size.toNat) : clampedSize commitIndex commandId size = size :=
  if_neg (UInt64.not_lt.mpr (range_of_wraps hf hc hw))

theorem clampedSize_of_not_wraps (hfst : 1 ≤ commandId.toNat)
    (hcom : commandId.toNat ≤ commitIndex.toNat) (hwrap : commandId.toNat + size.toNat ≤ 2 ^ 64) :
    commandId + clampedSize commitIndex commandId size - 1 ≤ commitIndex ∧
      (clampedSize commitIndex commandId size).toNat ≤ size.toNat ∧
      commandId.toNat + (clampedSize commitIndex commandId size).toNat ≤ commitIndex.toNat + 1 := by
  have hlt := commitIndex.toNat_lt
  have hlast : (commandId + size - 1).toNat = commandId.toNat + size.toNat - 1 := by
    rw [UInt64.toNat_sub, UInt64.toNat_add]
    simp only [UInt64.toNat_one]
    omega
  unfold clampedSize
  split
  · rename_i hgt
    have hgt := UInt64.lt_iff_toNat_lt.mp hgt
    have hclam : (commitIndex - commandId + 1).toNat =
        commitIndex.toNat - commandId.toNat + 1 := by
      rw [UInt64.toNat_add, UInt64.toNat_sub]
      simp only [UInt64.toNat_one]
      omega
    have hcut : (commandId + (commitIndex - commandId + 1) - 1).toNat = commitIndex.toNat := by
      rw [UInt64.toNat_sub, UInt64.toNat_add, hclam]
      simp only [UInt64.toNat_one]
      omega
    rw [hclam]
    exact ⟨UInt64.le_iff_toNat_le.mpr hcut.le, by omega, by omega⟩
  · rename_i hle
    have hle := UInt64.not_lt.mp hle
    have hnat := UInt64.le_iff_toNat_le.mp hle
    exact ⟨hle, le_rfl, by omega⟩

end

/-- Entries that stand in the log from `commandId` on, none behind the commit index, and at
most `size` of them. -/
def ServesCommitted (disk : Disk) (log : SegmentLog) (commitIndex : UInt64) (maxLenInBytes : Nat)
    (commandId size : UInt64) : Prop :=
  ∃ entries, loadCommandEventsList config disk log commitIndex maxLenInBytes commandId size =
      .ok (entries.length, entries) ∧
    entries.length ≤ size.toNat ∧ log.StoresFrom config disk commandId.toNat entries ∧
    ∀ k < entries.length, commandId.toNat + k ≤ commitIndex.toNat

/-- The segment of `startIndex` goes on behind the commit index, and the entries up to the first
one behind it are within the byte limit. -/
def ReachesPast (disk : Disk) (log : SegmentLog) (commitIndex maxLenInBytes startIndex : Nat) :
    Prop :=
  ∃ segment, log.getSegment startIndex = .ok (some segment) ∧ commitIndex < segment.lastIndex ∧
    ∃ entries, log.StoresFrom config disk startIndex entries ∧
      startIndex + entries.length = commitIndex + 2 ∧
      Segment.dataLength config entries ≤ maxLenInBytes

variable {config} {disk : Disk} {log : SegmentLog}

theorem SegmentLog.StoresFrom.unique {startIndex : Nat} {entries others : List Entry}
    (h : log.StoresFrom config disk startIndex entries)
    (h' : log.StoresFrom config disk startIndex others) (hl : entries.length = others.length) :
    entries = others := by
  refine ext_getElem hl fun k hk hk' => ?_
  have hg := h k _ (getElem?_eq_getElem hk)
  rw [h' k _ (getElem?_eq_getElem hk')] at hg
  exact (Option.some.inj (Except.ok.inj hg)).symm

theorem SegmentLog.getEntries_outside {startIndex : Nat}
    (ho : startIndex < log.firstIndex ∨ log.lastIndex < startIndex)
    (hb : startIndex ≤ log.lastIndex + 1) (maxLenInBytes maxBatchSize : Nat) :
    log.getEntries config disk startIndex maxLenInBytes maxBatchSize = .ok (0, []) := by
  unfold getEntries
  split
  · rename_i hl
    rw [ensure_of (by omega)]
    rfl
  · have hn : log.getSegment startIndex = .ok none := by
      simp only [getSegment, ho, if_true, ite_self]
    rw [hn]
    rfl

section

variable {stale : List Nat} {memory : InMemoryLog Entry} {startIndex : Nat}

/-- What a read in the log returns stands there, and goes past `commitIndex` exactly if
everything up to the first entry behind it is within the limits. -/
theorem CoveredBy.read (h : CoveredBy config stale disk log memory)
    (hfst : memory.firstIndex ≤ startIndex) (hlast : startIndex ≤ memory.lastIndex)
    (maxLenInBytes maxBatchSize : Nat) :
    ∃ batch, log.getEntries config disk startIndex maxLenInBytes maxBatchSize =
        .ok (batch.length, batch) ∧ batch.length ≤ maxBatchSize ∧
      log.StoresFrom config disk startIndex batch ∧
      ∀ commitIndex, startIndex ≤ commitIndex → commitIndex + 1 - startIndex < maxBatchSize →
        (commitIndex + 1 < startIndex + batch.length ↔
          ReachesPast config disk log commitIndex maxLenInBytes startIndex) := by
  obtain ⟨segment, block, hseg, hend, -, hblk, hget⟩ :=
    h.getEntries_eq hfst hlast maxLenInBytes maxBatchSize
  have htak : within (Segment.byteSize config) maxLenInBytes 0 (block.take maxBatchSize) <+:
      block.take maxBatchSize := within_isPrefix
  have hsto : log.StoresFrom config disk startIndex block := by
    intro k entry hent
    obtain ⟨rest, hrest⟩ := hblk
    refine h.getEntry_add hfst ?_
    rw [← hrest, List.getElem?_append_left (List.getElem?_eq_some_iff.mp hent).1, hent]
  have hfrt : ∀ {entries}, entries <+: block → log.StoresFrom config disk startIndex entries := by
    rintro entries ⟨rest, rfl⟩ k entry hent
    refine hsto k entry ?_
    rw [List.getElem?_append_left (List.getElem?_eq_some_iff.mp hent).1, hent]
  refine ⟨_, hget, htak.length_le.trans (List.length_take_le _ _),
    hfrt (htak.trans (List.take_prefix _ _)), fun commitIndex hle hsize => ?_⟩
  have hpast : commitIndex + 1 - startIndex < block.length ↔ commitIndex < segment.lastIndex := by
    omega
  have hcnt : commitIndex + 1 - startIndex < (within (Segment.byteSize config) maxLenInBytes 0
      (block.take maxBatchSize)).length ↔ _ := lt_length_within_iff
  rw [take_take, Nat.min_eq_left hsize, length_take, Nat.zero_add] at hcnt
  have hgoal : commitIndex + 1 < startIndex + (within (Segment.byteSize config) maxLenInBytes 0
      (block.take maxBatchSize)).length ↔ _ := (by omega : _ ↔ _).trans hcnt
  rw [hgoal]
  constructor
  · rintro ⟨hlen, hbyt⟩
    have hlt := hlen.trans_le (Nat.min_le_right _ _)
    refine ⟨segment, hseg, hpast.mp hlt, _, hfrt (List.take_prefix _ _), ?_, hbyt⟩
    rw [length_take]
    omega
  · rintro ⟨other, hoth, hlt, entries, hents, hlen, hbyt⟩
    rw [hseg] at hoth
    cases hoth
    have hin := hpast.mpr hlt
    have hsame : entries = block.take (commitIndex + 1 - startIndex + 1) := by
      refine hents.unique (hfrt (List.take_prefix _ _)) ?_
      rw [length_take]
      omega
    exact ⟨lt_min hsize hin, hsame ▸ hbyt⟩

theorem ReachesPast.bounds {commitIndex maxLenInBytes : Nat}
    (h : ReachesPast config disk log commitIndex maxLenInBytes startIndex) :
    log.firstIndex ≤ startIndex ∧ startIndex ≤ log.lastIndex := by
  obtain ⟨segment, hs, -⟩ := h
  by_contra hn
  have ho : startIndex < log.firstIndex ∨ log.lastIndex < startIndex := by omega
  rw [getSegment] at hs
  simp only [ho, if_true, ite_self] at hs
  cases hs

variable {commitIndex commandId size : UInt64} {maxLenInBytes : Nat}

theorem loadCommandEventsList_eq (hf : 1 ≤ commandId.toNat)
    (hc : commandId.toNat ≤ commitIndex.toNat)
    (hr : commandId + clampedSize commitIndex commandId size - 1 ≤ commitIndex) :
    loadCommandEventsList config disk log commitIndex maxLenInBytes commandId size =
      (log.getEntries config disk commandId.toNat maxLenInBytes
        (clampedSize commitIndex commandId size).toNat).mapError .log := by
  have hin : ¬ (commandId ≤ 0 ∨ commandId > commitIndex) := by
    simp only [UInt64.le_iff_toNat_le, UInt64.lt_iff_toNat_lt, gt_iff_lt, UInt64.toNat_zero]
    omega
  rw [loadCommandEventsList, if_neg hin, RaftCore.getEntries, if_pos hr]

theorem CoveredBy.serves (h : CoveredBy config stale disk log memory)
    (hfst : 1 ≤ commandId.toNat) (hcom : commandId.toNat ≤ commitIndex.toNat)
    (hrng : commandId + clampedSize commitIndex commandId size - 1 ≤ commitIndex)
    (hsize : (clampedSize commitIndex commandId size).toNat ≤ size.toNat) :
    ServesCommitted config disk log commitIndex maxLenInBytes commandId size ↔
      commandId.toNat ≤ log.lastIndex + 1 ∧
        (commandId.toNat + (clampedSize commitIndex commandId size).toNat ≤ commitIndex.toNat + 1 ∨
          ¬ ReachesPast config disk log commitIndex.toNat maxLenInBytes commandId.toNat) := by
  unfold ServesCommitted
  rw [loadCommandEventsList_eq hfst hcom hrng]
  by_cases hbeh : commandId.toNat ≤ log.lastIndex + 1
  · by_cases hin : log.firstIndex ≤ commandId.toNat ∧ commandId.toNat ≤ log.lastIndex
    · obtain ⟨batch, hget, hlen, hsto, hpast⟩ :=
        h.read (h.firstIndex_eq ▸ hin.1) (h.lastIndex_eq ▸ hin.2) maxLenInBytes
          (clampedSize commitIndex commandId size).toNat
      have hpast := hpast commitIndex.toNat hcom
      rw [hget]
      constructor
      · rintro ⟨entries, hents, -, -, hwit⟩
        obtain rfl : batch = entries := congrArg Prod.snd (Except.ok.inj hents)
        refine ⟨hbeh, or_iff_not_imp_left.mpr fun hnot hreac => ?_⟩
        have hlast := hwit (commitIndex.toNat + 1 - commandId.toNat)
        have hgone := (hpast (by omega)).mpr hreac
        omega
      · rintro ⟨-, hcond⟩
        refine ⟨batch, rfl, hlen.trans hsize, hsto, fun k hk => ?_⟩
        rcases hcond with hclam | hnot
        · omega
        · by_contra hgt
          exact hnot ((hpast (by omega)).mp (by omega))
    · have hout : commandId.toNat < log.firstIndex ∨ log.lastIndex < commandId.toNat := by omega
      rw [getEntries_outside hout hbeh]
      refine iff_of_true ⟨[], rfl, Nat.zero_le _, by simp [SegmentLog.StoresFrom], by simp⟩
        ⟨hbeh, .inr fun hreac => hin hreac.bounds⟩
  · have hlast : log.lastIndex < commandId.toNat := by omega
    have hfail : log.getEntries config disk commandId.toNat maxLenInBytes
        (clampedSize commitIndex commandId size).toNat = .error .startIndex := by
      rw [getEntries, if_pos hlast, ensure, if_neg (by omega)]
      rfl
    rw [hfail]
    refine iff_of_false ?_ fun hcond => hbeh hcond.1
    rintro ⟨entries, hents, -⟩
    cases hents

end

/-- Only committed entries are served exactly if the range does not wrap, or the log does not
have enough in one segment and within the byte limit to read past the commit index. -/
theorem only_committed_served_iff {operations : List (Operation Entry)}
    (hvalid : Operation.AllValid config {} operations) {steps : List Step}
    (hrun : Program.RunsTo (Operation.start config operations) {} steps log disk)
    (commitIndex : UInt64) (maxLenInBytes : Nat) (commandId size : UInt64) :
    ServesCommitted config disk log commitIndex maxLenInBytes commandId size ↔
      commandId.toNat = 0 ∨ commitIndex.toNat < commandId.toNat ∨
        commandId.toNat ≤ log.lastIndex + 1 ∧ (commandId.toNat + size.toNat ≤ 2 ^ 64 ∨
            ¬ ReachesPast config disk log commitIndex.toNat maxLenInBytes commandId.toNat) := by
  obtain ⟨stale, hcov⟩ := coveredBy_of_run hvalid hrun
  by_cases hout : commandId ≤ 0 ∨ commandId > commitIndex
  · have hnat := hout
    simp only [UInt64.le_iff_toNat_le, UInt64.lt_iff_toNat_lt, gt_iff_lt, UInt64.toNat_zero] at hnat
    refine iff_of_true ⟨[], ?_, Nat.zero_le _, by simp [SegmentLog.StoresFrom], by simp⟩ (by omega)
    rw [loadCommandEventsList, if_pos hout]
    rfl
  · simp only [UInt64.le_iff_toNat_le, UInt64.lt_iff_toNat_lt, gt_iff_lt, UInt64.toNat_zero] at hout
    have hfst : 1 ≤ commandId.toNat := by omega
    have hcom : commandId.toNat ≤ commitIndex.toNat := by omega
    have hlt := commitIndex.toNat_lt
    by_cases hwrap : commandId.toNat + size.toNat ≤ 2 ^ 64
    · obtain ⟨hrng, hsize, hclam⟩ := clampedSize_of_not_wraps hfst hcom hwrap
      rw [hcov.serves hfst hcom hrng hsize]
      simp only [hclam, hwrap, true_or, and_true]
      omega
    · have hsame : clampedSize commitIndex commandId size = size :=
        clampedSize_of_wraps hfst hcom (by omega)
      have hrng : commandId + size - 1 ≤ commitIndex :=
        range_of_wraps hfst hcom (by omega)
      have hnot : ¬ commandId.toNat + size.toNat ≤ commitIndex.toNat + 1 := by omega
      have hzero : ¬ commandId.toNat = 0 := by omega
      have hgt : ¬ commitIndex.toNat < commandId.toNat := by omega
      rw [hcov.serves hfst hcom (hsame.symm ▸ hrng) (congrArg UInt64.toNat hsame).le, hsame]
      simp only [hnot, hwrap, hzero, hgt, false_or]

theorem isBatch_three : IsBatch keyedPage 1 [1, 2, 3] where
  fits := ⟨by decide, by decide⟩
  numbered := ⟨rfl, rfl, rfl, trivial⟩
  signed _ _ _ := .inr (mem_singleton.mpr rfl)

theorem only_committed_served_one : ∃ steps log disk,
      Program.RunsTo (Operation.start keyedPage [.append [1, 2, 3]]) {} steps log
        disk ∧
      ServesCommitted keyedPage disk log 2 4096 2 1 := by
  obtain ⟨steps, disk, hr, -⟩ := exists_run_append _ isBatch_three
  have hv : Operation.AllValid keyedPage {} [.append [1, 2, 3]] :=
    ⟨isBatch_three, trivial⟩
  refine ⟨steps, _, disk, hr, (only_committed_served_iff hv hr 2 4096 2 1).mpr ?_⟩
  exact .inr (.inr ⟨by decide, .inl (by decide)⟩)

/-- Two of three entries are committed. From index 2 on all are asked for: the last index of the
range is 0 in 64 bits, and entry 3 is served as well. -/
theorem uncommitted_entry_served : ∃ steps log disk,
      Program.RunsTo (Operation.start keyedPage [.append [1, 2, 3]]) {} steps log
        disk ∧
      log.lastIndex = 3 ∧
      loadCommandEventsList keyedPage disk log 2 4096 2
        18446744073709551615 = .ok (2, [2, 3]) := by
  obtain ⟨steps, disk, hrun, hd⟩ := exists_run_append _ isBatch_three
  refine ⟨steps, _, disk, hrun, rfl, ?_⟩
  have hh : Holds keyedPage disk
      (segmentOf keyedPage true 1 [1, 2, 3]).name 1 [1, 2, 3] _ :=
    hd.active_holds _ rfl
  have hr := hh.getEntries Nat.one_pos (by decide : 1 < 3) 4096 18446744073709551615
  have hw : clampedSize 2 2 18446744073709551615 = 18446744073709551615 := by decide
  rw [loadCommandEventsList_eq (by decide) (by decide) (by decide), hw]
  have hg : getEntries keyedPage disk
      ((Layout.fresh.append [1, 2, 3]).toLog keyedPage) 2 4096
      18446744073709551615 = .ok (2, [2, 3]) := hr
  exact congrArg (Except.mapError LoadCheck.log) hg

end MySuperLedger.Storage
