import MySuperLedger.Ledger.LogEntry
import MySuperLedger.Storage.Reading

/-! # Batches that are not taken

`appendEntries` looks at the index of the first entry before it starts, at the
others while it writes, and decides once for the whole batch whether to roll. What
goes through is exactly a batch that is numbered on, that the node can sign and
that fits into an empty segment.
-/

namespace MySuperLedger.Storage

open Effects List Segment SegmentLog Operation
open Program (RunsTo)

variable {Entry : Type} {config : Config Entry}

variable {entry : Entry} {entries : List Entry} {segment : Segment} {layout : Layout Entry}

theorem canSign_of_createHMAC {digest : Digest} (h : createHMAC config entry = .ok digest) :
    CanSign config entry := by
  intro he
  unfold createHMAC at h
  rw [if_neg (by simp [he])] at h
  split at h
  · rename_i hm
    by_cases hz : config.format.secretKeyVersion entry = 0
    · exact .inl hz
    · rw [signingVersion, if_neg hz] at hm
      exact .inr hm
  · cases h

variable {first : Nat} {held : List Entry} {steps : List Step} {disk' : Disk} {tail : List LogMeta}

theorem recordsFor_inv {offset : Nat} {records : List LogMeta}
    (h : recordsFor config offset first entries = .ok records) :
    Numbered config first entries ∧ (∀ entry ∈ entries, CanSign config entry) ∧
      records.length = entries.length := by
  induction entries generalizing offset first records with
  | nil =>
    cases h
    exact ⟨trivial, by simp, rfl⟩
  | cons entry entries ih =>
    simp only [recordsFor, bind, Except.bind] at h
    split at h
    · cases h
    · rename_i hi
      split at h
      · cases h
      · rename_i digest hd
        split at h
        · cases h
        · rename_i rest hr
          cases h
          obtain ⟨hn, hs, hl⟩ := ih hr
          refine ⟨⟨(ensure_eq_ok.mp hi).symm, hn⟩, ?_, congrArg (· + 1) hl⟩
          exact forall_mem_cons.mpr ⟨canSign_of_createHMAC hd, hs⟩

variable {disk : Disk} {log : SegmentLog} {batch : List Entry}

/-- The active segment continues the log, and its files have the size they were created
with. -/
structure ActiveRoom (config : Config Entry) (disk : Disk) (log : SegmentLog) (first : Nat)
    (held : List Entry) : Prop where
  active_eq : log.activeSegment = some (segmentOf config true first held)
  pos : 0 < first
  next_eq : first + held.length = log.lastIndex + 1
  data_length : (disk.dataOf (.active first)).length = config.dataSizeLimit
  meta_length : (disk.metaOf (.active first)).length = config.slots

theorem activeRoom_created (log : SegmentLog) (disk : Disk) :
    ActiveRoom config (disk.createActive config (log.lastIndex + 1))
      { log with activeSegment := some (segmentOf config true (log.lastIndex + 1) []) }
      (log.lastIndex + 1) [] where
  active_eq := rfl
  pos := Nat.succ_pos _
  next_eq := rfl
  data_length := by simp [Disk.dataOf, Disk.createActive, Disk.after]
  meta_length := by simp [Disk.metaOf, Disk.createActive, Disk.after, Config.slots]

theorem ActiveRoom.rollIfNeeded {rolled : SegmentLog} (h : ActiveRoom config disk log first held)
    (hrun : (log.rollIfNeeded config batch).RunsTo disk steps rolled disk') :
    ∃ first' held', ActiveRoom config disk' rolled first' held' ∧
      rolled.lastIndex = log.lastIndex := by
  obtain ⟨_, active, _, _, ha, hb, -⟩ := hrun.of_bind
  obtain ⟨-, rfl, rfl⟩ := ha.unique (.require h.active_eq disk)
  obtain ⟨_, roll, _, _, hs, hr, -⟩ := hb.of_bind
  cases roll with
  | false =>
    obtain ⟨-, -, rfl⟩ := hs.unique (shouldRoll_runsTo config first held batch _)
    cases hr
    exact ⟨first, held, h, rfl⟩
  | true =>
    obtain ⟨_, _, _, _, -, hclos, -⟩ := RunsTo.of_bind hr
    obtain ⟨_, closed, middle, _, -, hc, -⟩ := hclos.of_bind
    obtain ⟨_, created, _, _, hcre, hl, -⟩ := hc.of_bind
    obtain ⟨-, rfl, rfl⟩ := hcre.unique (createActiveSegment_runsTo _ _)
    cases hl
    have hroom : ActiveRoom config (middle.createActive config (log.lastIndex + 1)) _ _ _ :=
      activeRoom_created log middle
    exact ⟨_, _, { hroom with active_eq := rfl, next_eq := rfl }, rfl⟩

theorem ActiveRoom.isBatch_of_append (h : ActiveRoom config disk log first held)
    (hrun : ((segmentOf config true first held).appendEntries config batch).RunsTo disk steps
      segment disk') : IsBatch config (log.lastIndex + 1) batch := by
  obtain ⟨_, _, opened, _, hasrt, hlift, -⟩ := hrun.of_bind
  obtain ⟨-, -, rfl⟩ := hasrt.of_assert
  obtain ⟨_, records, opened, _, hblt, hwrit, -⟩ := hlift.of_bind
  obtain ⟨hrecs, rfl⟩ := hblt.of_lift
  obtain ⟨_, _, _, _, hfst, hlate, -⟩ := hwrit.of_bind
  obtain ⟨hdata, -, rfl⟩ := perform_inv hfst
  obtain ⟨_, _, _, _, hsnd, -, -⟩ := hlate.of_bind
  obtain ⟨hmeta, -, -⟩ := perform_inv hsnd
  obtain ⟨hnum, hsig, hlen⟩ := recordsFor_inv hrecs
  have hpos := h.pos
  have hnext : (segmentOf config true first held).lastIndex + 1 = log.lastIndex + 1 := by
    have := h.next_eq
    simp only [segmentOf]
    omega
  have hposition : (segmentOf config true first held).metaOffset / metaSize = held.length :=
    Nat.mul_div_cancel _ (by decide)
  have hbyt : dataLength config held + dataLength config batch ≤
      config.dataSizeLimit := by
    have hle : dataLength config held + (bytesOf config batch).length ≤
      (opened.dataOf (.active first)).length := hdata
    rwa [h.data_length, length_bytesOf] at hle
  have hslot : held.length + batch.length ≤ config.slots := by
    have hle : (segmentOf config true first held).metaOffset / metaSize + records.length ≤
      (opened.metaOf (.active first)).length := hmeta
    rwa [hposition, hlen, h.meta_length] at hle
  exact {
    fits := Fits.of_held ⟨hslot, hbyt⟩
    numbered := hnext ▸ hnum
    signed := hsig }

def StartsAt (config : Config Entry) (next : Nat) (batch : List Entry) : Prop :=
  ∀ entry ∈ batch.head?, config.format.index entry = next

theorem Numbered.startsAt {next : Nat} (h : Numbered config next batch) :
    StartsAt config next batch := by
  cases batch with
  | nil => simp [StartsAt]
  | cons entry batch => simpa [StartsAt] using h.1

/-- A batch that does not start behind the log is refused, and nothing is written. -/
theorem appendEntries_refused (hs : ¬ StartsAt config (log.lastIndex + 1) batch) (disk : Disk) :
    (log.appendEntries config batch).RunsTo disk [] (log, false) disk := by
  cases batch with
  | nil => simp [StartsAt] at hs
  | cons entry batch =>
    have hi : config.format.index entry ≠ log.lastIndex + 1 := by
      simpa [StartsAt] using hs
    simp only [SegmentLog.appendEntries, hi, ne_eq, not_false_eq_true, if_true]
    rfl

/-- Whatever starts behind the log and goes through is a batch as `IsBatch` asks for, and
is taken. -/
theorem ActiveRoom.isBatch {result : SegmentLog × Bool} (h : ActiveRoom config disk log first held)
    (hst : StartsAt config (log.lastIndex + 1) batch)
    (hr : (log.appendEntries config batch).RunsTo disk steps result disk') :
    IsBatch config (log.lastIndex + 1) batch ∧ result.2 = true := by
  cases batch with
  | nil =>
    cases hr
    exact ⟨⟨⟨Nat.zero_le _, Nat.zero_le _⟩, trivial, by simp⟩, rfl⟩
  | cons entry batch =>
    have hi : ¬ config.format.index entry ≠ log.lastIndex + 1 :=
      not_not.mpr (hst entry rfl)
    simp only [SegmentLog.appendEntries, hi, if_false] at hr
    obtain ⟨_, rolled, middle, _, hroll, hb, -⟩ := hr.of_bind
    obtain ⟨first', held', hroom, hl⟩ := h.rollIfNeeded hroll
    obtain ⟨_, active, _, _, ha, hwr, -⟩ := hb.of_bind
    obtain ⟨-, rfl, rfl⟩ := ha.unique (.require hroom.active_eq middle)
    obtain ⟨_, segment, _, _, happ, hres, -⟩ := hwr.of_bind
    cases hres
    exact ⟨hl ▸ hroom.isBatch_of_append happ, rfl⟩

section

variable {stale : List Nat} {memory : InMemoryLog Entry}

theorem CoveredBy.activeRoom (h : CoveredBy config stale disk log memory) :
    ∃ first held, ActiveRoom config disk log first held := by
  obtain ⟨clean, hs, hb⟩ := h.stored
  have hap := hs.apart hb.gone
  obtain ⟨layout, n, hdir, rfl, rfl⟩ := hs
  have hn : ¬ (SegmentName.active layout.activeFirst).IsStale stale :=
    (hap.active _ rfl).name
  have hh := hdir.active_holds _ rfl
  obtain ⟨rest, hd, hsize⟩ := hh.data_eq
  refine ⟨layout.activeFirst, layout.active, rfl, layout.activeFirst_pos, ?_, ?_, ?_⟩
  · have hp := layout.activeFirst_pos
    have hl := layout.lastIndex_eq
    simp only [Layout.toLog]
    omega
  · rw [hb.dataOf_eq hn, Disk.dataOf, hd, Option.getD_some, length_append, length_bytesOf, hsize]
  · rw [hb.metaOf_eq hn, Disk.metaOf, hh.records_eq, Option.getD_some,
      length_append, length_recordsOf, hh.length_eq]

theorem CoveredBy.append_taken (h : CoveredBy config stale disk log memory)
    (hb : IsBatch config (memory.lastIndex + 1) batch) :
    ∃ steps log' disk', (log.appendEntries config batch).RunsTo disk steps (log', true) disk' ∧
      CoveredBy config stale disk' log' (memory.appendEntries config batch).1 := by
  have hv : (append batch).Valid config memory := hb
  obtain ⟨steps, log', disk', hrun, hc⟩ := h.operation hv hb (by simp)
  obtain ⟨first, held, hroom⟩ := h.activeRoom
  obtain ⟨steps', ⟨taken, b⟩, _, _, ha, hr, hs⟩ := RunsTo.of_bind hrun
  rw [← h.lastIndex_eq] at hb
  obtain ⟨-, rfl⟩ := hroom.isBatch hb.numbered.startsAt ha
  cases hr
  exact ⟨steps', log', disk', ha, hc⟩

end

namespace InMemoryLog

theorem lastIndex_le_appendEntries (config : Config Entry) (memory : InMemoryLog Entry)
    (batch : List Entry) : memory.lastIndex ≤ (memory.appendEntries config batch).1.lastIndex := by
  induction batch generalizing memory with
  | nil => exact le_rfl
  | cons entry batch ih =>
    unfold appendEntries appendEntry
    by_cases hi : memory.lastIndex + 1 ≠ config.format.index entry
    · rw [if_pos hi]
    · have hr := ih { memory with
        lastIndex := memory.lastIndex + 1
        log := memory.log ++ [entry] }
      rw [if_neg hi]
      exact (Nat.le_succ _).trans hr

/-- A batch that is numbered on is taken as a whole, any other one leaves the log as it was. -/
def AllOrNothing (config : Config Entry) (memory : InMemoryLog Entry) (batch : List Entry) : Prop :=
  (Numbered config (memory.lastIndex + 1) batch → memory.appendEntries config batch =
      ({ memory with
          lastIndex := memory.lastIndex + batch.length
          log := memory.log ++ batch }, true)) ∧
  (¬ Numbered config (memory.lastIndex + 1) batch →
    memory.appendEntries config batch = (memory, false))

/-- The log in memory takes the entries one by one, up to the first that is out of line. -/
theorem allOrNothing_iff (memory : InMemoryLog Entry) (batch : List Entry) :
    memory.AllOrNothing config batch ↔ (StartsAt config (memory.lastIndex + 1) batch →
        Numbered config (memory.lastIndex + 1) batch) := by
  constructor
  · rintro ⟨-, hnothing⟩ hst
    by_contra hnot
    cases batch with
    | nil => exact hnot trivial
    | cons entry batch =>
      have hidx : ¬ memory.lastIndex + 1 ≠ config.format.index entry :=
        not_not.mpr (hst entry rfl).symm
      have hsame := congrArg (fun result => result.1.lastIndex) (hnothing hnot)
      simp only [appendEntries, appendEntry, if_neg hidx] at hsame
      have hle := lastIndex_le_appendEntries config
        { memory with lastIndex := memory.lastIndex + 1, log := memory.log ++ [entry] } batch
      have hone : memory.lastIndex + 1 ≤ memory.lastIndex := hle.trans_eq hsame
      omega
  · intro h
    refine ⟨appendEntries_eq, fun hnot => ?_⟩
    cases batch with
    | nil => exact absurd trivial hnot
    | cons entry batch =>
      have hidx : memory.lastIndex + 1 ≠ config.format.index entry := by
        intro heq
        refine hnot (h fun other hoth => ?_)
        cases hoth
        exact heq.symm
      simp only [appendEntries, appendEntry, if_pos hidx]

end InMemoryLog

/-- The same for the segmented log, next to the log in memory that it agrees with. -/
def SegmentLog.AllOrNothing (config : Config Entry) (disk : Disk) (log : SegmentLog)
    (memory : InMemoryLog Entry) (batch : List Entry) : Prop :=
  (Numbered config (memory.lastIndex + 1) batch →
    ∃ steps log' disk', (log.appendEntries config batch).RunsTo disk steps (log', true) disk' ∧
      Agrees config disk' log' { memory with
        lastIndex := memory.lastIndex + batch.length
        log := memory.log ++ batch }) ∧
  (¬ Numbered config (memory.lastIndex + 1) batch →
    ∃ steps log' disk', (log.appendEntries config batch).RunsTo disk steps (log', false) disk' ∧
      Agrees config disk' log' memory)

/-- The segmented log fails an assertion instead, at an entry that is out of line or that
names a key the node does not have. -/
theorem CoveredBy.allOrNothing_iff {stale : List Nat} {memory : InMemoryLog Entry}
    (h : CoveredBy config stale disk log memory) (hfits : Fits config [] batch) :
    log.AllOrNothing config disk memory batch ↔ (StartsAt config (memory.lastIndex + 1) batch →
        Numbered config (memory.lastIndex + 1) batch ∧ ∀ entry ∈ batch, CanSign config entry) := by
  obtain ⟨first, held, hroom⟩ := h.activeRoom
  have hlast := h.lastIndex_eq
  constructor
  · rintro ⟨hall, hnothing⟩ hst
    have hbat : IsBatch config (memory.lastIndex + 1) batch := by
      by_cases hnum : Numbered config (memory.lastIndex + 1) batch
      · obtain ⟨steps, log', disk', hrun, -⟩ := hall hnum
        exact hlast ▸ (hroom.isBatch (hlast ▸ hst) hrun).1
      · obtain ⟨steps, log', disk', hrun, -⟩ := hnothing hnum
        exact hlast ▸ (hroom.isBatch (hlast ▸ hst) hrun).1
    exact ⟨hbat.numbered, hbat.signed⟩
  · intro hcond
    constructor
    · intro hnum
      obtain ⟨-, hsig⟩ := hcond hnum.startsAt
      obtain ⟨steps, log', disk', hrun, hcov⟩ := h.append_taken ⟨hfits, hnum, hsig⟩
      rw [InMemoryLog.appendEntries_eq hnum] at hcov
      exact ⟨steps, log', disk', hrun, hcov.agrees⟩
    · intro hnot
      have hst : ¬ StartsAt config (log.lastIndex + 1) batch := by
        rw [hlast]
        exact fun hst => hnot (hcond hst).1
      exact ⟨[], log, disk, appendEntries_refused hst disk, h.agrees⟩

/-- An append is all or nothing exactly if a batch that starts behind the log is numbered on
to its end; the segmented log also needs the keys that its entries name. -/
theorem appendEntries_allOrNothing_iff {operations : List (Operation Entry)}
    (hvalid : AllValid config {} operations) {steps : List Step}
    (hrun : RunsTo (Operation.start config operations) {} steps log disk)
    (hfits : Fits config [] batch) :
    (∀ memory : InMemoryLog Entry, memory.AllOrNothing config batch ↔
      (StartsAt config (memory.lastIndex + 1) batch →
        Numbered config (memory.lastIndex + 1) batch)) ∧
    (log.AllOrNothing config disk (allOnMemory config {} operations) batch ↔
      (StartsAt config (log.lastIndex + 1) batch →
        Numbered config (log.lastIndex + 1) batch ∧ ∀ entry ∈ batch, CanSign config entry)) := by
  obtain ⟨stale, hc⟩ := coveredBy_of_run hvalid hrun
  refine ⟨fun memory => memory.allOrNothing_iff batch, ?_⟩
  rw [hc.lastIndex_eq]
  exact hc.allOrNothing_iff hfits

theorem appendEntries_allOrNothing_gap : ∃ steps log disk,
      RunsTo (Operation.start keyedPage [.append [1]]) {} steps log disk ∧
      Fits keyedPage [] [3, 4] ∧
      log.AllOrNothing keyedPage disk
        (allOnMemory keyedPage {} [.append [1]]) [3, 4] := by
  obtain ⟨steps, disk, hr, -⟩ := exists_run_append _ isBatch_one
  have hf : Fits keyedPage [] [3, 4] := ⟨by decide, by decide⟩
  refine ⟨steps, _, disk, hr, hf,
    (appendEntries_allOrNothing_iff allValid_one hr hf).2.mpr fun hst => ?_⟩
  have hi := hst 3 rfl
  cases hi

/-- The second index is not the next one: the log in memory keeps the first entry and answers
`false`, the segmented log fails an assertion. -/
theorem append_half_taken : Fits keyedPage [] [1, 3] ∧
    ¬ Numbered keyedPage 1 [1, 3] ∧
    ({} : InMemoryLog Nat).appendEntries keyedPage [1, 3] =
      ({ log := [1], lastIndex := 1 }, false) ∧
    ((do
        let log ← init keyedPage
        log.appendEntries keyedPage [1, 3] :
        Action (SegmentLog × Bool)) {}).result = .error .entryIndex := by
  refine ⟨⟨by decide, by decide⟩, ?_, rfl, rfl⟩
  rintro ⟨-, hi, -⟩
  cases hi

/-- `getLatestSecKeyVersion`; 0 stands for no version. -/
def CryptoUtil.latestSecKeyVersion (crypto : CryptoUtil) : Nat :=
  crypto.descendingVersions.max?.getD 0

theorem canSign_latest
    (h : config.format.secretKeyVersion entry = config.crypto.latestSecKeyVersion) :
    CanSign config entry := by
  intro he
  rw [h, CryptoUtil.latestSecKeyVersion]
  cases hm : config.crypto.descendingVersions.max? with
  | none => exact absurd (max?_eq_none_iff.mp hm) (config.crypto.versions_ne_nil he)
  | some version => exact .inr (max?_mem hm)

/-- Batches as `handleClientRequests` hands them on, one after the other: each is numbered on
from the end of the log, and `persistAsync` gave its entries the latest key version. -/
def AllHanded (config : Config Entry) : Nat → List (List Entry) → Prop
  | _, [] => True
  | next, batch :: batches =>
    Numbered config next batch ∧ (∀ entry ∈ batch,
        config.format.secretKeyVersion entry = config.crypto.latestSecKeyVersion) ∧
      AllHanded config (next + batch.length) batches

theorem fits_nil_iff : Fits config [] batch ↔ batch.length * metaSize ≤ config.metaSizeLimit ∧
      dataLength config batch ≤ config.dataSizeLimit := by
  rw [← exceeds_segmentOf true 1 [] batch]
  simp [exceeds, segmentOf]

/-- No offset is behind the end of its file, and no closed segment is empty. -/
structure SegmentLog.Inside (log : SegmentLog) : Prop where
  offsets : ∀ segment, segment ∈ log.closedSegments ∨ log.activeSegment = some segment →
    segment.dataOffset ≤ segment.dataSizeLimit ∧ segment.metaOffset ≤ segment.metaSizeLimit
  closed : ∀ segment ∈ log.closedSegments, segment.firstIndex ≤ segment.lastIndex

theorem Holds.offsets_le {name : SegmentName} (h : Holds config disk name first entries tail)
    (isActive : Bool) :
    (segmentOf config isActive first entries).dataOffset ≤ config.dataSizeLimit ∧
      (segmentOf config isActive first entries).metaOffset ≤ config.metaSizeLimit := by
  obtain ⟨rest, -, hs⟩ := h.data_eq
  have hl := h.length_eq
  constructor
  · simp only [segmentOf]
    omega
  · rw [← slots_mul_metaSize]
    exact Nat.mul_le_mul_right _ (by omega)

section

variable {stale : List Nat} {memory : InMemoryLog Entry}

theorem CoveredBy.inside (h : CoveredBy config stale disk log memory) : log.Inside := by
  obtain ⟨clean, ⟨layout, n, hd, rfl, rfl⟩, -⟩ := h.stored
  constructor
  · rintro segment (hm | ha)
    · obtain ⟨front, block, behind, hcl, rfl⟩ := exists_of_mem_closedOf hm
      have hhold := hd.closed_hold
      rw [hcl] at hhold
      obtain ⟨-, ⟨tail, hblock⟩, -⟩ := holdAll_append.mp hhold
      exact hblock.offsets_le false
    · cases ha
      exact (hd.active_holds _ rfl).offsets_le true
  · intro segment hm
    obtain ⟨front, block, behind, hcl, rfl⟩ := exists_of_mem_closedOf hm
    have hl := length_pos_iff.mpr (layout.closed_ne_nil block (by simp [hcl]))
    simp only [segmentOf]
    omega

/-- The appends go through, which they do only if each write stays inside the mapped files,
and leave a log that is in order. -/
def StaysInside (config : Config Entry) (disk : Disk) (log : SegmentLog)
    (batches : List (List Entry)) : Prop :=
  ∃ steps log' disk',
    RunsTo (runAll config log (batches.map .append)) disk steps log' disk' ∧ log'.Inside

variable {batches : List (List Entry)}

theorem AllHanded.allValid (h : AllHanded config (memory.lastIndex + 1) batches)
    (hfits : ∀ batch ∈ batches, Fits config [] batch) :
    AllValid config memory (batches.map .append) := by
  induction batches generalizing memory with
  | nil => trivial
  | cons batch batches ih =>
    obtain ⟨hn, hl, hr⟩ := h
    obtain ⟨hf, hlate⟩ := forall_mem_cons.mp hfits
    refine ⟨⟨hf, hn, fun entry hm => canSign_latest (hl entry hm)⟩, ih ?_ hlate⟩
    rw [onMemory, InMemoryLog.appendEntries_eq hn]
    rwa [Nat.add_right_comm] at hr

theorem CoveredBy.fits_of_runAll {log' : SegmentLog} (h : CoveredBy config stale disk log memory)
    (hh : AllHanded config (memory.lastIndex + 1) batches)
    (hrun : RunsTo (runAll config log (batches.map .append)) disk steps log'
      disk') : ∀ batch ∈ batches, Fits config [] batch := by
  induction batches generalizing disk log memory steps stale with
  | nil => simp
  | cons batch batches ih =>
    obtain ⟨hnum, -, hr⟩ := hh
    obtain ⟨_, next, middle, _, ho, hl, -⟩ := RunsTo.of_bind hrun
    obtain ⟨_, result, _, _, ha, -, -⟩ := RunsTo.of_bind ho
    obtain ⟨first, held, hroom⟩ := h.activeRoom
    have hb : IsBatch config (memory.lastIndex + 1) batch := by
      have hst := hnum.startsAt
      rw [← h.lastIndex_eq] at hst ⊢
      exact (hroom.isBatch hst ha).1
    have hv : (append batch).Valid config memory := hb
    obtain ⟨stale', hn⟩ := h.of_operation hv ho
    rw [onMemory, InMemoryLog.appendEntries_eq hnum] at hn
    rw [Nat.add_right_comm] at hr
    exact forall_mem_cons.mpr ⟨hb.fits, ih hn hr hl⟩

end

/-- Whatever log they meet, the batches stay inside the mapped files exactly if each of them
fits into an empty segment. -/
theorem appends_stay_inside_iff {operations : List (Operation Entry)}
    (hvalid : AllValid config {} operations) {steps : List Step}
    (hrun : RunsTo (Operation.start config operations) {} steps log disk)
    {batches : List (List Entry)} (hhanded : AllHanded config (log.lastIndex + 1) batches) :
    StaysInside config disk log batches ↔
      ∀ batch ∈ batches, batch.length * metaSize ≤ config.metaSizeLimit ∧
        dataLength config batch ≤ config.dataSizeLimit := by
  obtain ⟨stale, hc⟩ := coveredBy_of_run hvalid hrun
  rw [hc.lastIndex_eq] at hhanded
  simp only [← fits_nil_iff]
  constructor
  · rintro ⟨steps', log', disk', ha, -⟩
    exact hc.fits_of_runAll hhanded ha
  · intro hf
    obtain ⟨steps', log', disk', ha, hc'⟩ :=
      hc.runAll_append (hhanded.allValid hf)
    exact ⟨steps', log', disk', ha, hc'.inside⟩

/-- The second batch finds no room behind the first one. -/
theorem appends_stay_inside_rolled : ∃ steps log disk,
      RunsTo (Operation.start keyedPage []) {} steps log disk ∧
      AllHanded keyedPage (log.lastIndex + 1) [range' 1 64, [65]] ∧
      ¬ Fits keyedPage (range' 1 64) [65] ∧
      StaysInside keyedPage disk log [range' 1 64, [65]] := by
  have hn : AllAdmissible keyedPage {} [] := trivial
  obtain ⟨steps, log, disk, hr, hs⟩ := exists_run _ hn
  have hl : log.lastIndex = 0 := hs.agrees.lastIndex_eq
  have hh : AllHanded keyedPage (log.lastIndex + 1) [range' 1 64, [65]] := by
    rw [hl]
    exact ⟨isBatch_fill.numbered, fun _ _ => rfl, isBatch_next.numbered, fun _ _ => rfl, trivial⟩
  have hv : AllValid keyedPage {} [] := trivial
  refine ⟨steps, log, disk, hr, hh, fun hf => absurd hf.1 (by decide),
    (appends_stay_inside_iff hv hr hh).mpr ?_⟩
  simp only [← fits_nil_iff, mem_cons, not_mem_nil, or_false, forall_eq_or_imp, forall_eq]
  exact ⟨isBatch_fill.fits, isBatch_next.fits⟩

theorem perform_outside {step : Step} (h : ¬ disk.allows step) :
    ((perform step) disk).result = .error step.check := by
  simp [perform, bind, Program.bind, Program.get, Program.assert, h]

/-- A batch that does not fit into an empty segment is written past the end of a file. -/
theorem ActiveRoom.outside (h : ActiveRoom config disk log first held)
    (hnum : Numbered config (log.lastIndex + 1) batch)
    (hsig : ∀ entry ∈ batch, CanSign config entry) (hnot : ¬ Fits config held batch) :
    ((segmentOf config true first held).appendEntries config batch disk).result =
      .error .outsideMapping := by
  have hpos := h.pos
  have hnext : (segmentOf config true first held).lastIndex + 1 = log.lastIndex + 1 := by
    have := h.next_eq
    simp only [segmentOf]
    omega
  have hrecs : recordsFor config (segmentOf config true first held).dataOffset
      ((segmentOf config true first held).lastIndex + 1) batch =
        .ok (recordsOf config (dataLength config held) batch) :=
    recordsFor_eq (hnext ▸ hnum) hsig
  have hposition : (segmentOf config true first held).metaOffset / metaSize = held.length :=
    Nat.mul_div_cancel _ (by decide)
  refine (RunsTo.assert rfl disk).result_bind.trans ?_
  rw [(RunsTo.lift hrecs disk).result_bind]
  by_cases hdata : disk.allows (.writeData (.active first) (dataLength config held)
      (bytesOf config batch))
  · refine (perform_runsTo hdata).result_bind.trans ?_
    refine Program.result_bind_error (perform_outside fun hmeta => hnot ⟨?_, ?_⟩)
    · have hle : (segmentOf config true first held).metaOffset / metaSize +
          (recordsOf config _ batch).length ≤ (disk.metaOf (.active first)).length := hmeta
      rwa [hposition, length_recordsOf, h.meta_length] at hle
    · have hle : dataLength config held + (bytesOf config batch).length ≤
          (disk.dataOf (.active first)).length := hdata
      rwa [h.data_length, length_bytesOf] at hle
  · exact Program.result_bind_error (perform_outside hdata)

theorem Directory.exists_rollIfNeeded (h : Directory config layout (some tail) disk)
    (batch : List Entry) :
    ∃ steps rolled disk', RunsTo (rollIfNeeded config (layout.toLog config) batch) disk steps rolled
        disk' := by
  have hr := layout.requireActive_runsTo config disk
  have hs := shouldRoll_runsTo config layout.activeFirst layout.active batch disk
  cases hroll : (segmentOf config true layout.activeFirst layout.active).exceeds config batch with
  | false =>
    rw [hroll] at hs
    exact ⟨[], _, disk, hr.bind_nil (hs.bind_nil rfl)⟩
  | true =>
    rw [hroll] at hs
    have hc : RunsTo (createActiveSegment config (layout.lastIndex + 1))
        (disk.moved (.active layout.activeFirst) (some layout.closedName)) _ _ _ :=
      createActiveSegment_runsTo _ _
    exact ⟨_, _, _, hr.bind_nil (hs.bind_nil (hr.bind_nil
      (h.closeActive_runsTo.bind (hc.bind_right rfl))))⟩

theorem Directory.append_outside (h : Directory config layout (some tail) disk)
    (hroom : ActiveRoom config disk (layout.toLog config) layout.activeFirst layout.active)
    (hn : Numbered config (layout.lastIndex + 1) batch)
    (hs : ∀ entry ∈ batch, CanSign config entry) (hnot : ¬ Fits config [] batch) :
    ((layout.toLog config).appendEntries config batch disk).result = .error .outsideMapping := by
  cases batch with
  | nil => exact absurd ⟨Nat.zero_le _, Nat.zero_le _⟩ hnot
  | cons entry batch =>
    have hi : ¬ config.format.index entry ≠ (layout.toLog config).lastIndex + 1 :=
      not_not.mpr hn.1
    obtain ⟨steps, rolled, disk', hr⟩ := h.exists_rollIfNeeded (entry :: batch)
    obtain ⟨first, held, hr', hl⟩ := hroom.rollIfNeeded hr
    have hn' : Numbered config (rolled.lastIndex + 1) (entry :: batch) :=
      hl ▸ hn
    simp only [SegmentLog.appendEntries, hi, if_false]
    rw [hr.result_bind, (RunsTo.require hr'.active_eq disk').result_bind]
    exact Program.result_bind_error (hr'.outside hn' hs fun hf => hnot hf.of_held)

/-- Entries that are their own index, each as large as an entry may be. -/
def fullFormat : EntryFormat Nat where
  term _ := 1
  index entry := entry
  secretKeyVersion _ := 0
  serialize entry :=
    replicate (Ledger.kMaxPayLoadSizeInBytes - entry) 0 ++ replicate entry 1
  parse bytes := some (bytes.count 1)
  parse_serialize entry := by simp [count_replicate]

/-- The segment sizes of the configuration files, without a key. -/
def shippedConfig : Config Nat where
  format := fullFormat
  crypto := {
    isEnabled := false
    descendingVersions := []
    versions_ne_nil := by simp
    hmac := fun _ _ _ => .replicate 32 0 }
  dataSizeLimit := 67108864
  metaSizeLimit := 4194304
  data_aligned := by decide
  meta_aligned := by decide

theorem byteSize_shippedConfig {entry : Nat} (h : entry ≤ Ledger.kMaxPayLoadSizeInBytes) :
    byteSize shippedConfig entry = Ledger.kMaxPayLoadSizeInBytes := by
  simp only [byteSize, shippedConfig, fullFormat, length_append, length_replicate]
  omega

/-- Seventeen entries of 4,000,000 bytes are one batch. Even the empty segment of a new log
has no room for them. -/
theorem seventeen_entries_leave_mapping : AllHanded shippedConfig 1 [range' 1 17] ∧
    (∀ entry ∈ range' 1 17, byteSize shippedConfig entry ≤ Ledger.kMaxPayLoadSizeInBytes) ∧
    ∃ steps log disk, RunsTo (init shippedConfig) {} steps log disk ∧ log.lastIndex = 0 ∧
      (log.appendEntries shippedConfig (range' 1 17) disk).result = .error .outsideMapping := by
  have hs : ∀ entry ∈ range' 1 17,
      byteSize shippedConfig entry = Ledger.kMaxPayLoadSizeInBytes := by
    intro entry hm
    obtain ⟨-, hlt⟩ := mem_range'_1.mp hm
    exact byteSize_shippedConfig (by simp only [Ledger.kMaxPayLoadSizeInBytes]; omega)
  have hn : Numbered shippedConfig 1 (range' 1 17) := by
    simp [Numbered, range', shippedConfig, fullFormat]
  have hnot : ¬ Fits shippedConfig [] (range' 1 17) := by
    rw [fits_nil_iff, dataLength, map_congr_left hs]
    decide
  have hd := (directory_fresh shippedConfig).createActive rfl
  refine ⟨⟨hn, fun _ _ => rfl, trivial⟩, fun entry hm => (hs entry hm).le, _, _, _, rfl, rfl, ?_⟩
  have hr : ActiveRoom shippedConfig (Disk.fresh.createActive shippedConfig 1) _ _ _ :=
    activeRoom_created (Layout.fresh.toLog shippedConfig) Disk.fresh
  exact hd.append_outside hr hn (fun _ _ => by simp [CanSign, shippedConfig]) hnot

end MySuperLedger.Storage
