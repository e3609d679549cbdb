import MySuperLedger.Collections.Budget
import MySuperLedger.Storage.Discard

/-! # Batched reads and terms

`getEntries` reads a run of entries from one segment: it ends with the segment,
with the batch limit or with the byte limit. Followers, readers and the log sync
go on behind what they got. `getTerm` is what the consistency check of raft asks
for, also one index before the log.
-/

namespace MySuperLedger.Storage

open Collections Effects List Option Segment Operation
open Program (RunsTo)

variable {Entry : Type} (config : Config Entry)

namespace Segment

/-- The loop of `getEntries`, for `left` more rounds: the batch size and the entries.
An entry that cannot be parsed makes the batch size 0. -/
def readLoop (disk : Disk) (segment : Segment) (startIndex maxLenInBytes : Nat) :
    Nat → List Entry → Nat → Except Check (Nat × List Entry)
  | 0, entries, _ => .ok (entries.length, entries)
  | left + 1, entries, lenInBytes => do
      let record ← getMeta disk segment segment.name (startIndex + entries.length)
      if maxLenInBytes < lenInBytes + record.length then
        return (entries.length, entries)
      else
        ensure .entryAddr (record.offset ≤ segment.dataOffset)
        let bytes := readAt (disk.dataOf segment.name) record.offset record.length
        verifyHMAC config record bytes
        match config.format.parse bytes with
        | none => return (0, entries)
        | some entry =>
          readLoop disk segment startIndex maxLenInBytes left (entries ++ [entry])
            (lenInBytes + record.length)

def getEntries (disk : Disk) (segment : Segment) (startIndex maxLenInBytes maxBatchSize : Nat) :
    Except Check (Nat × List Entry) := do
  ensure .withInBoundary (segment.isWithInBoundary startIndex = true)
  readLoop config disk segment startIndex maxLenInBytes
    (min maxBatchSize (segment.lastIndex - startIndex + 1)) [] 0

end Segment

namespace SegmentLog

/-- `getEntries`, with an empty vector to fill. -/
def getEntries (disk : Disk) (log : SegmentLog) (startIndex maxLenInBytes maxBatchSize : Nat) :
    Except Check (Nat × List Entry) :=
  if log.lastIndex < startIndex then do
    ensure .startIndex (startIndex = log.lastIndex + 1)
    return (0, [])
  else do
    match ← log.getSegment startIndex with
    | none => return (0, [])
    | some segment => segment.getEntries config disk startIndex maxLenInBytes maxBatchSize

/-- A reader that goes on behind what it got, until it gets nothing: all it read.
`none` if `fuel` reads are not enough. -/
def readOn (disk : Disk) (log : SegmentLog) (maxLenInBytes maxBatchSize : Nat) :
    Nat → Nat → Except Check (Option (List Entry))
  | 0, _ => .ok none
  | fuel + 1, startIndex => do
      let (batchSize, entries) ← log.getEntries config disk startIndex maxLenInBytes maxBatchSize
      if batchSize = 0 then
        return some []
      else
        let rest ← readOn disk log maxLenInBytes maxBatchSize fuel (startIndex + batchSize)
        return rest.map (entries ++ ·)

/-- `entries` stand in the log from `startIndex` on, one behind the other. -/
def StoresFrom (disk : Disk) (log : SegmentLog) (startIndex : Nat) (entries : List Entry) : Prop :=
  ∀ k entry, entries[k]? = some entry → log.getEntry config disk (startIndex + k) = .ok (some entry)

end SegmentLog

/-- `InMemoryLog::getTerm`. The term before the log is at index 0, wherever the log starts. -/
def InMemoryLog.getTerm (memory : InMemoryLog Entry) (index : Nat) : Option Nat :=
  if index = 0 then some 0
  else if index < memory.firstIndex ∨ memory.lastIndex < index then none
  else memory.log[index - memory.firstIndex]?.map config.format.term

variable {config}

section

variable {disk : Disk} {first : Nat} {entries : List Entry} {tail : List LogMeta}
  {isActive : Bool} {k : Nat}

theorem dataLength_take_le (entries : List Entry) (k : Nat) :
    dataLength config (entries.take k) ≤ dataLength config entries := by
  have hs : dataLength config (entries.take k ++ entries.drop k) = _ :=
    dataLength_append _ _
  rw [take_append_drop] at hs
  omega

section

variable (h : Holds config disk (segmentOf config isActive first entries).name first entries tail)
  (hpos : 0 < first)
include h hpos

/-- The rounds of the loop over a block, behind what is already read. -/
theorem Holds.readLoop {maxLenInBytes left lenInBytes : Nat} {read : List Entry}
    (hleft : k + read.length + left ≤ entries.length) :
    Segment.readLoop config disk (segmentOf config isActive first entries) (first + k)
        maxLenInBytes left read lenInBytes =
      .ok ((read ++ within (Segment.byteSize config) maxLenInBytes lenInBytes
          ((entries.drop (k + read.length)).take left)).length,
        read ++ within (Segment.byteSize config) maxLenInBytes lenInBytes
          ((entries.drop (k + read.length)).take left)) := by
  induction left generalizing read lenInBytes with
  | zero => simp [Segment.readLoop, within]
  | succ left ih =>
    have hlt : k + read.length < entries.length := by omega
    have hent := getElem?_eq_getElem hlt
    have hsign := h.signed _ (mem_of_getElem? hent)
    have hoff : (recordOf config (Segment.dataLength config
        (entries.take (k + read.length))) (entries[k + read.length])).offset ≤
        (segmentOf config isActive first entries).dataOffset := dataLength_take_le _ _
    rw [drop_eq_getElem_cons hlt, take_succ_cons]
    simp only [Segment.readLoop, Nat.add_assoc first, h.getMeta hpos hent, bind, Except.bind,
      ensure_of hoff, recordOf_length, within]
    by_cases hlim : maxLenInBytes < lenInBytes + Segment.byteSize config (entries[k + read.length])
    · simp only [hlim, if_true, append_nil]
      rfl
    · have hnext : k + (read ++ [entries[k + read.length]]).length + left ≤ entries.length := by
        simp only [length_append, length_singleton]
        omega
      simp only [hlim, if_false, recordOf_offset, h.readAt hent, verifyHMAC_recordOf hsign,
        config.format.parse_serialize]
      rw [ih hnext]
      simp [Nat.add_assoc]

/-- A batch read from a block is the part of it within both limits. -/
theorem Holds.getEntries (hk : k < entries.length) (maxLenInBytes maxBatchSize : Nat) :
    (segmentOf config isActive first entries).getEntries config disk (first + k) maxLenInBytes
        maxBatchSize =
      .ok ((within (Segment.byteSize config) maxLenInBytes 0
          ((entries.drop k).take maxBatchSize)).length,
        within (Segment.byteSize config) maxLenInBytes 0
          ((entries.drop k).take maxBatchSize)) := by
  have hb : (segmentOf config isActive first entries).isWithInBoundary (first + k) = true :=
    (isWithInBoundary_segmentOf isActive hpos k).trans (decide_eq_true hk)
  have hr : (segmentOf config isActive first entries).lastIndex - (first + k) + 1 =
      entries.length - k := by
    simp only [segmentOf]
    omega
  have hl : Segment.readLoop config disk (segmentOf config isActive first entries) (first + k)
      maxLenInBytes (min maxBatchSize (entries.length - k)) [] 0 = _ :=
    h.readLoop hpos (by simp only [length_nil]; omega)
  have ht : (entries.drop k).take (min maxBatchSize (entries.length - k)) =
      (entries.drop k).take maxBatchSize := by
    rw [← length_drop, ← take_eq_take_min]
  simp only [Segment.getEntries, ensure_of hb, bind, Except.bind, hr, hl,
    nil_append, length_nil, Nat.add_zero, ht]

theorem Holds.getTerm (hk : k < entries.length) :
    (segmentOf config isActive first entries).getTerm disk (first + k) =
      .ok (some (config.format.term (entries[k]))) := by
  simp only [Segment.getTerm, isWithInBoundary_segmentOf isActive hpos k, hk, decide_true, if_true,
    h.getMeta hpos (getElem?_eq_getElem hk), bind, Except.bind]
  rfl

end

end

section

variable {stale : List Nat} {clean disk : Disk} {log : SegmentLog} {memory : InMemoryLog Entry}
  {index startIndex : Nat} {segment : Segment} {maxLenInBytes maxBatchSize : Nat}

theorem SegmentLog.Apart.getSegment (h : log.Apart stale)
    (hs : log.getSegment index = .ok (some segment)) : segment.Apart stale := by
  unfold SegmentLog.getSegment at hs
  split at hs
  · cases hs
  · split at hs
    · cases hs
    · split at hs
      · rename_i active hf
        cases hs
        exact h.active _ (filter_eq_some_iff.mp hf).1
      · split at hs
        · rename_i closed hl
          cases hs
          have hm := (mem_filter.mp (mem_of_getLast? hl)).1
          exact apart_of_closed (h.closed _ hm)
        · cases hs

theorem Beside.readLoop_eq (h : Beside stale clean disk) (ha : segment.Apart stale)
    (startIndex maxLenInBytes left lenInBytes : Nat) (entries : List Entry) :
    readLoop config disk segment startIndex maxLenInBytes left entries lenInBytes =
      readLoop config clean segment startIndex maxLenInBytes left entries lenInBytes := by
  induction left generalizing entries lenInBytes with
  | zero => rfl
  | succ left ih =>
    simp only [readLoop, getMeta, h.metaOf_eq ha.name, h.dataOf_eq ha.name, ih]

/-- The log reads what it would read without the files beside it. -/
theorem Beside.getEntries_eq (h : Beside stale clean disk) (hap : log.Apart stale)
    (startIndex maxLenInBytes maxBatchSize : Nat) :
    log.getEntries config disk startIndex maxLenInBytes maxBatchSize =
      log.getEntries config clean startIndex maxLenInBytes maxBatchSize := by
  unfold SegmentLog.getEntries
  split
  · rfl
  · cases hs : log.getSegment startIndex with
    | error check => rfl
    | ok found =>
      cases found with
      | none => rfl
      | some segment =>
        simp only [getEntries, bind, Except.bind, h.readLoop_eq (hap.getSegment hs)]

theorem Beside.getEntry_eq (h : Beside stale clean disk) (ha : log.Apart stale) (index : Nat) :
    log.getEntry config disk index = log.getEntry config clean index := by
  unfold SegmentLog.getEntry
  cases hs : log.getSegment index with
  | error check => rfl
  | ok found =>
    cases found with
    | none => rfl
    | some segment =>
      have hn := (ha.getSegment hs).name
      simp only [bind, Except.bind, getEntry, getMeta, h.metaOf_eq hn, h.dataOf_eq hn]

section

variable (h : CoveredBy config stale disk log memory)
include h

theorem CoveredBy.getEntry_eq (dummy : Entry) (hi : 1 ≤ index) :
    log.getEntry config disk index = .ok (memory.getEntry dummy index) := by
  obtain ⟨clean, hs, hb⟩ := h.stored
  rw [hb.getEntry_eq (hs.apart hb.gone)]
  exact hs.agrees.getEntry_eq dummy index hi

theorem CoveredBy.agrees : Agrees config disk log memory := by
  obtain ⟨clean, hs, -⟩ := h.stored
  exact { hs.agrees with getEntry_eq := fun dummy _ hi => h.getEntry_eq dummy hi }

/-- A batch comes from the segment that holds its first entry. -/
theorem CoveredBy.getEntries_eq
    (hfst : memory.firstIndex ≤ startIndex) (hlast : startIndex ≤ memory.lastIndex)
    (maxLenInBytes maxBatchSize : Nat) :
    ∃ segment block, log.getSegment startIndex = .ok (some segment) ∧
      segment.lastIndex + 1 = startIndex + block.length ∧ block ≠ [] ∧
      block <+: memory.log.drop (startIndex - memory.firstIndex) ∧
      log.getEntries config disk startIndex maxLenInBytes maxBatchSize =
        .ok ((within (byteSize config) maxLenInBytes 0 (block.take maxBatchSize)).length,
          within (byteSize config) maxLenInBytes 0 (block.take maxBatchSize)) := by
  obtain ⟨clean, hsto, hbes⟩ := h.stored
  rw [hbes.getEntries_eq (hsto.apart hbes.gone)]
  obtain ⟨layout, n, hdir, rfl, rfl⟩ := hsto
  obtain ⟨isActive, first, block, hloc⟩ := hdir.exists_located hfst hlast
  obtain ⟨records, hhold⟩ := hloc.holds
  obtain ⟨before, behind, hents, hpre⟩ := hloc.entries_eq
  have hposition : startIndex - first < block.length :=
    Nat.sub_lt_left_of_lt_add hloc.le hloc.lt
  have hst : first + (startIndex - first) = startIndex := Nat.add_sub_cancel' hloc.le
  have hget := hhold.getEntries hloc.pos hposition maxLenInBytes maxBatchSize
  rw [hst] at hget
  refine ⟨_, block.drop (startIndex - first), hloc.getSegment_eq, ?_, ?_, ?_, ?_⟩
  · have hpos := hloc.pos
    simp only [segmentOf, length_drop]
    omega
  · rw [ne_eq, drop_eq_nil_iff]
    omega
  · have hbase := layout.isLive.1
    have hle : layout.firstIndex ≤ startIndex := hfst
    have hdrop : layout.firstIndex - layout.base + (startIndex - layout.firstIndex) =
        before.length + (startIndex - first) := by
      have := hloc.le
      omega
    simp only [Layout.toMemory, drop_drop, hdrop, hents, drop_length_add_append]
    rw [drop_append_of_le_length hposition.le]
    exact prefix_append _ _
  · have hnot : ¬ (layout.toLog config).lastIndex < startIndex := Nat.not_lt.mpr hlast
    simp only [SegmentLog.getEntries, hnot, if_false, hloc.getSegment_eq, bind, Except.bind, hget]

theorem CoveredBy.length_eq : memory.firstIndex + memory.log.length = memory.lastIndex + 1 := by
  obtain ⟨clean, ⟨layout, n, hd, rfl, rfl⟩, -⟩ := h.stored
  have hle := layout.firstIndex_sub_base_le
  have hb := layout.isLive.1
  have hpos := layout.base_pos
  simp only [Layout.toMemory, Layout.lastIndex, length_drop]
  omega

theorem CoveredBy.firstIndex_pos : 0 < memory.firstIndex := by
  obtain ⟨clean, ⟨layout, n, hd, rfl, rfl⟩, -⟩ := h.stored
  exact layout.base_pos.trans_le layout.isLive.1

section

variable (hfst : memory.firstIndex ≤ startIndex)
include hfst

theorem CoveredBy.getEntry_add {k : Nat} {entry : Entry} :
    (memory.log.drop (startIndex - memory.firstIndex))[k]? = some entry →
      log.getEntry config disk (startIndex + k) = .ok (some entry) := by
  intro he
  have hpos := h.firstIndex_pos
  have hl := h.length_eq
  have hp : startIndex + k - memory.firstIndex = startIndex - memory.firstIndex + k :=
    Nat.sub_add_comm hfst
  rw [List.getElem?_drop, ← hp] at he
  have hlt := (List.getElem?_eq_some_iff.mp he).1
  have hb : ¬ (startIndex + k < memory.firstIndex ∨ memory.lastIndex < startIndex + k) := by
    omega
  rw [h.getEntry_eq entry (by omega), InMemoryLog.getEntry, if_neg (by omega), if_neg hb,
    he]

/-- A batch is not empty if its first entry is within the byte limit. -/
theorem CoveredBy.batch (hl : startIndex ≤ memory.lastIndex) (hbat : 1 ≤ maxBatchSize)
    (hf : ∀ entry, log.getEntry config disk startIndex = .ok (some entry) →
      byteSize config entry ≤ maxLenInBytes) :
    ∃ batch, log.getEntries config disk startIndex maxLenInBytes maxBatchSize =
        .ok (batch.length, batch) ∧ batch ≠ [] ∧
      batch <+: memory.log.drop (startIndex - memory.firstIndex) ∧
      batch.length ≤ maxBatchSize ∧ dataLength config batch ≤ maxLenInBytes := by
  obtain ⟨segment, block, -, -, hne, hb, hg⟩ :=
    h.getEntries_eq hfst hl maxLenInBytes maxBatchSize
  have ht : within (byteSize config) maxLenInBytes 0 (block.take maxBatchSize) <+:
      block.take maxBatchSize := within_isPrefix
  refine ⟨_, hg, ?_, ht.trans ((List.take_prefix _ _).trans hb), ?_, ?_⟩
  · obtain ⟨entry, block, rfl⟩ := exists_cons_of_ne_nil hne
    obtain ⟨rounds, rfl⟩ := Nat.exists_eq_add_of_le' hbat
    have hh : (memory.log.drop (startIndex - memory.firstIndex))[0]? = some entry := by
      obtain ⟨rest, hr⟩ := hb
      rw [← hr]
      rfl
    rw [take_succ_cons]
    exact within_cons_ne_nil ((Nat.zero_add _).trans_le (hf entry (h.getEntry_add hfst hh)))
  · exact ht.length_le.trans (length_take_le _ _)
  · simpa [dataLength] using sum_within_le (Nat.zero_le maxLenInBytes)

theorem CoveredBy.readOn {fuel : Nat} (hlast : startIndex ≤ memory.lastIndex + 1)
    (hbat : 1 ≤ maxBatchSize)
    (hfits : ∀ index entry, log.getEntry config disk index = .ok (some entry) →
      byteSize config entry ≤ maxLenInBytes)
    (hfuel : memory.lastIndex + 1 - startIndex < fuel) :
    log.readOn config disk maxLenInBytes maxBatchSize fuel startIndex =
      .ok (some (memory.log.drop (startIndex - memory.firstIndex))) := by
  have hlen := h.length_eq
  induction fuel generalizing startIndex with
  | zero => omega
  | succ fuel ih =>
    by_cases hend : memory.lastIndex < startIndex
    · -- the read behind the last entry, which a leader sends as a heartbeat
      have hst : startIndex = log.lastIndex + 1 := by
        rw [h.lastIndex_eq]
        omega
      have hnil : memory.log.drop (startIndex - memory.firstIndex) = [] :=
        drop_eq_nil_of_le (by omega)
      have hlog : log.lastIndex < startIndex := hst ▸ Nat.lt_succ_self _
      simp only [SegmentLog.readOn, SegmentLog.getEntries, hlog, if_true, ensure_of hst, bind,
        Except.bind, pure, Except.pure, hnil]
    · obtain ⟨batch, hget, hne, htak, -, -⟩ :=
        h.batch hfst (Nat.le_of_not_lt hend) hbat (hfits startIndex)
      have hpos : batch.length ≠ 0 := mt length_eq_zero_iff.mp hne
      have hle := htak.length_le
      rw [length_drop] at hle
      have hnext : memory.firstIndex ≤ startIndex + batch.length := by omega
      have hrest := ih hnext (by omega) (by omega)
      have hspl := prefix_iff_eq_append.mp htak
      rw [drop_drop, ← Nat.sub_add_comm hfst] at hspl
      simp only [SegmentLog.readOn, hget, bind, Except.bind, hpos, if_false, hrest, pure,
        Except.pure, map_some, hspl]

end

end

/-- Batches are runs of the log within both limits, and reading on from any index of the
log gives each later entry once, in its place. -/
theorem getEntries_enumerates {operations : List (Operation Entry)}
    (hvalid : AllValid config {} operations) {steps : List Step}
    (hrun : RunsTo (Operation.start config operations) {} steps log disk)
    {startIndex maxLenInBytes maxBatchSize : Nat} (hfirst : log.firstIndex ≤ startIndex)
    (hlast : startIndex ≤ log.lastIndex) (hbatch : 1 ≤ maxBatchSize) :
    ((∀ entry, log.getEntry config disk startIndex = .ok (some entry) →
        byteSize config entry ≤ maxLenInBytes) →
      ∃ batch, log.getEntries config disk startIndex maxLenInBytes maxBatchSize =
          .ok (batch.length, batch) ∧ batch ≠ [] ∧ log.StoresFrom config disk startIndex batch ∧
        batch.length ≤ maxBatchSize ∧ dataLength config batch ≤ maxLenInBytes) ∧
    ((∀ index entry, log.getEntry config disk index = .ok (some entry) →
        byteSize config entry ≤ maxLenInBytes) →
      ∃ entries, log.StoresFrom config disk startIndex entries ∧
        startIndex + entries.length = log.lastIndex + 1 ∧
        ∀ fuel, log.lastIndex + 1 - startIndex < fuel →
          log.readOn config disk maxLenInBytes maxBatchSize fuel startIndex =
            .ok (some entries)) := by
  obtain ⟨stale, hcov⟩ := coveredBy_of_run hvalid hrun
  have hlen := hcov.length_eq
  rw [hcov.firstIndex_eq] at hfirst
  rw [hcov.lastIndex_eq] at hlast ⊢
  constructor
  · intro hfits
    obtain ⟨batch, hget, hne, htak, hsize, hbyt⟩ := hcov.batch hfirst hlast hbatch hfits
    refine ⟨batch, hget, hne, fun k entry hent => hcov.getEntry_add hfirst ?_, hsize, hbyt⟩
    obtain ⟨rest, hrest⟩ := htak
    rw [← hrest, List.getElem?_append_left (List.getElem?_eq_some_iff.mp hent).1, hent]
  · intro hfits
    refine ⟨_, fun k entry => hcov.getEntry_add hfirst, ?_, fun fuel hfuel =>
      hcov.readOn hfirst (hlast.trans (Nat.le_succ _)) hbatch hfits hfuel⟩
    rw [length_drop]
    omega

/-- More entries than a segment has records for do not all stand in the active one. -/
theorem Stores.closedSegments_ne_nil {memory : InMemoryLog Entry}
    (h : Stores config disk log memory) (hlen : config.slots < memory.log.length) :
    log.closedSegments ≠ [] := by
  obtain ⟨layout, n, hdir, rfl, rfl⟩ := h
  have hact := (hdir.active_holds _ rfl).length_eq
  simp only [Layout.toMemory, Layout.entries, length_drop, length_append] at hlen
  simp only [Layout.toLog]
  cases hclosed : layout.closed with
  | nil =>
    rw [hclosed, flatten_nil, length_nil] at hlen
    omega
  | cons block blocks => simp [closedOf]

def fillAndRoll : List (Operation Nat) := [.append (range' 1 64), .append [65]]

theorem isBatch_fill : IsBatch keyedPage 1 (range' 1 64) where
  fits := ⟨by decide, by decide⟩
  numbered := by simp [range', Numbered, unaryConfig, unaryFormat]
  signed _ _ _ := .inr (mem_singleton.mpr rfl)

theorem isBatch_next : IsBatch keyedPage 65 [65] where
  fits := ⟨by decide, by decide⟩
  numbered := ⟨rfl, trivial⟩
  signed _ _ _ := .inr (mem_singleton.mpr rfl)

theorem getEntries_enumerates_fillAndRoll : ∃ steps log disk,
      RunsTo (Operation.start keyedPage fillAndRoll) {} steps log disk ∧
      log.closedSegments ≠ [] ∧
      (∃ batch, log.getEntries keyedPage disk 60 4096 10 = .ok (batch.length, batch) ∧
        batch ≠ [] ∧ batch.length ≤ 10) ∧
      ∃ entries : List Nat, entries.length = 65 ∧ log.StoresFrom keyedPage disk 1 entries ∧
        log.readOn keyedPage disk 4096 10 66 1 = .ok (some entries) := by
  have ha : AllAdmissible keyedPage {} fillAndRoll := ⟨isBatch_fill, isBatch_next, trivial⟩
  obtain ⟨steps, log, disk, hr, hs⟩ := exists_run keyedPage ha
  have hfirst : log.firstIndex = 1 := hs.agrees.firstIndex_eq
  have hlast : log.lastIndex = 65 := hs.agrees.lastIndex_eq
  have hfits : ∀ index entry, log.getEntry keyedPage disk index = .ok (some entry) →
      byteSize keyedPage entry ≤ 4096 := by
    intro index entry he
    cases index with
    | zero => simp [SegmentLog.getEntry, SegmentLog.getSegment, Segment.isEmpty, hfirst, hlast,
        bind, Except.bind, pure, Except.pure] at he
    | succ index =>
      rw [hs.agrees.getEntry_eq 0 _ (Nat.succ_pos _)] at he
      have hm : entry ∈ range' 1 65 := by
        simp only [InMemoryLog.getEntry, Nat.succ_ne_zero, if_false, Except.ok.injEq] at he
        obtain ⟨-, he⟩ := ite_none_left_eq_some.mp he
        exact mem_of_getElem? he
      obtain ⟨-, hlt⟩ := mem_range'_1.mp hm
      simp only [byteSize, unaryConfig, unaryFormat, length_replicate]
      omega
  have hv : AllValid keyedPage {} fillAndRoll := ⟨isBatch_fill, isBatch_next, trivial⟩
  refine ⟨steps, log, disk, hr, hs.closedSegments_ne_nil (by decide), ?_, ?_⟩
  · obtain ⟨batch, hg, hne, -, hle, -⟩ := (getEntries_enumerates hv hr
      (by omega : _ ≤ 60) (by omega) (by decide : 1 ≤ 10)).1 (hfits 60)
    exact ⟨batch, hg, hne, hle⟩
  · obtain ⟨entries, hst, hlen, hread⟩ := (getEntries_enumerates hv hr
      hfirst.le (by omega) (by decide : 1 ≤ 10)).2 hfits
    exact ⟨entries, by omega, hst, hread 66 (by omega)⟩

section

variable (h : CoveredBy config stale disk log memory)
include h

/-- The segment in which the log looks for an index, and the place of its entry there. -/
theorem CoveredBy.located (hfst : memory.firstIndex ≤ index) (hlast : index ≤ memory.lastIndex) :
    ∃ isActive first block tail, 0 < first ∧ first ≤ index ∧ index - first < block.length ∧
      log.getSegment index = .ok (some (segmentOf config isActive first block)) ∧
      Holds config disk (segmentOf config isActive first block).name first block tail ∧
      block[index - first]? = memory.log[index - memory.firstIndex]? := by
  obtain ⟨clean, hsto, hbes⟩ := h.stored
  have hap := hsto.apart hbes.gone
  obtain ⟨layout, n, hdir, rfl, rfl⟩ := hsto
  obtain ⟨isActive, first, block, hloc⟩ := hdir.exists_located hfst hlast
  obtain ⟨tail, hhold⟩ := hloc.holds
  have hname := (hap.getSegment hloc.getSegment_eq).name
  refine ⟨isActive, first, block, tail, hloc.pos, hloc.le,
    Nat.sub_lt_left_of_lt_add hloc.le hloc.lt, hloc.getSegment_eq,
    hhold.congr (hbes.metas _ hname) (hbes.datas _ hname), ?_⟩
  have hbase := layout.isLive.1
  have hle : layout.firstIndex ≤ index := hfst
  have hdrop : layout.firstIndex - layout.base + (index - layout.firstIndex) =
      index - layout.base := by omega
  simp only [Layout.toMemory, getElem?_drop, hdrop, hloc.getElem?_eq]

theorem CoveredBy.getTerm_eq (hfst : memory.firstIndex ≤ index) (hlast : index ≤ memory.lastIndex) :
    log.getTerm disk index = .ok (memory.getTerm config index) := by
  have hpos := h.firstIndex_pos
  have hlog := h.firstIndex_eq
  obtain ⟨isActive, first, block, tail, hfirst, hle, hlt, hseg, hhold, hmem⟩ :=
    h.located hfst hlast
  have hget : (segmentOf config isActive first block).getTerm disk (first + (index - first)) = _ :=
    hhold.getTerm hfirst hlt
  rw [Nat.add_sub_cancel' hle] at hget
  have hnot : ¬ index + 1 = log.firstIndex := by
    rw [hlog]
    omega
  have hbds : ¬ (index < memory.firstIndex ∨ memory.lastIndex < index) := by omega
  simp only [SegmentLog.getTerm, hnot, if_false, hseg, bind, Except.bind, hget,
    InMemoryLog.getTerm, hbds, ← hmem, getElem?_eq_getElem hlt, map_some,
    if_neg (show ¬ index = 0 by omega)]

/-- The two logs differ on the index before the first one, unless that is index 0. -/
theorem CoveredBy.getTerm_eq_iff
    (hfst : memory.firstIndex ≤ index + 1) (hl : index ≤ memory.lastIndex) :
    log.getTerm disk index = .ok (memory.getTerm config index) ↔
      memory.firstIndex = 1 ∨ memory.firstIndex ≤ index := by
  by_cases hin : memory.firstIndex ≤ index
  · exact iff_of_true (h.getTerm_eq hin hl) (.inr hin)
  · have hp : index + 1 = log.firstIndex := by
      rw [h.firstIndex_eq]
      omega
    have hlog : log.getTerm disk index = .ok (some 0) := if_pos hp
    rw [hlog]
    by_cases hz : index = 0
    · have ho : memory.firstIndex = 1 := by
        have := h.firstIndex_pos
        omega
      simp [InMemoryLog.getTerm, hz, ho]
    · have hout : index < memory.firstIndex ∨ memory.lastIndex < index :=
        .inl (Nat.lt_of_not_le hin)
      have ho : memory.firstIndex ≠ 1 := by omega
      simp [InMemoryLog.getTerm, hz, hout, ho, hin]

end

/-- Whatever is appended and cut away, the two logs give the same term for an index from
before the log to its end exactly if the index is in the log or the log starts at 1. -/
theorem getTerm_agrees_iff {operations : List (Operation Entry)}
    (hadmissible : AllAdmissible config {} operations) :
    ∃ steps log disk,
      RunsTo (Operation.start config operations) {} steps log disk ∧
      ∀ index, log.firstIndex ≤ index + 1 → index ≤ log.lastIndex → (log.getTerm disk index =
            .ok ((allOnMemory config {} operations).getTerm config index) ↔
          log.firstIndex = 1 ∨ log.firstIndex ≤ index) := by
  obtain ⟨steps, log, disk, hr, hs⟩ := exists_run config hadmissible
  have hc := hs.coveredBy
  refine ⟨steps, log, disk, hr, fun index hfst hl => ?_⟩
  rw [hc.firstIndex_eq] at hfst ⊢
  rw [hc.lastIndex_eq] at hl
  exact hc.getTerm_eq_iff hfst hl

end

def appendAndCut : List (Operation Nat) := [.append [1, 2, 3], .truncatePrefix 2]

theorem appendAndCut_admissible : AllAdmissible keyedPage {} appendAndCut :=
  ⟨{ fits := ⟨by decide, by decide⟩
     numbered := ⟨rfl, rfl, rfl, trivial⟩
     signed := fun _ _ _ => .inr (mem_singleton.mpr rfl) }, (by decide : 2 ≤ 3), trivial⟩

theorem getTerm_agrees_iff_appendAndCut :
    AllAdmissible keyedPage {} appendAndCut ∧
    ∃ steps log disk,
      RunsTo (Operation.start keyedPage appendAndCut) {} steps log disk ∧
      ∀ index, log.firstIndex ≤ index + 1 → index ≤ log.lastIndex →
        (log.getTerm disk index = .ok ((allOnMemory keyedPage {}
            appendAndCut).getTerm keyedPage index) ↔
          log.firstIndex = 1 ∨ log.firstIndex ≤ index) :=
  ⟨appendAndCut_admissible, getTerm_agrees_iff appendAndCut_admissible⟩

/-- Index 1 is the one before the log: the segmented log has term 0 there, the log in
memory no term. -/
theorem getTerm_differs_before_first :
    AllAdmissible keyedPage {} appendAndCut ∧
    ∃ steps log disk,
      RunsTo (Operation.start keyedPage appendAndCut) {} steps log disk ∧
      log.firstIndex = 2 ∧ log.lastIndex = 3 ∧ log.getTerm disk 1 = .ok (some 0) ∧
      (allOnMemory keyedPage {} appendAndCut).getTerm
        keyedPage 1 = none := by
  obtain ⟨steps, log, disk, hr, hs⟩ := exists_run _ appendAndCut_admissible
  have hfst : log.firstIndex = 2 := hs.agrees.firstIndex_eq
  refine ⟨appendAndCut_admissible, steps, log, disk, hr, hfst, hs.agrees.lastIndex_eq, ?_, rfl⟩
  exact if_pos hfst.symm

end MySuperLedger.Storage
