import MySuperLedger.Collections.Cells
import MySuperLedger.Effects.Program
import Mathlib.Algebra.GroupWithZero.Nat
import Mathlib.Data.List.AList

/-! # Segments of the raft log

`storage::Segment` over the files it maps. A segment is a data file, which holds
the serialised entries one behind the other, and a meta file, an array of 64-byte
records that say where an entry lies. The names of the two files carry the state
of the segment: `segment_in_progress_first` while it is active, then
`segment_first_last`.

A program runs on the directory. Its effects are the durable file-system steps,
its checks the assertions of the source. Indices, terms and sizes are natural
numbers.
-/

namespace MySuperLedger.Storage

open Collections Effects

/-- The fields of `raft::LogEntry` that the storage reads, and its wire form. -/
structure EntryFormat (Entry : Type) where
  term : Entry → Nat
  index : Entry → Nat
  secretKeyVersion : Entry → Nat
  serialize : Entry → List UInt8
  parse : List UInt8 → Option Entry
  parse_serialize : ∀ entry, parse (serialize entry) = some entry

abbrev Digest := Vector UInt8 32

structure CryptoUtil where
  isEnabled : Bool
  descendingVersions : List Nat
  versions_ne_nil : isEnabled = true → descendingVersions ≠ []
  /-- Key version, index and bytes of an entry. -/
  hmac : Nat → Nat → List UInt8 → Digest

def pageSize : Nat := 4096

def metaSize : Nat := 64

/-- The limits are multiples of the page size, as `FileUtil::setFileSize` asks. -/
structure Config (Entry : Type) where
  format : EntryFormat Entry
  crypto : CryptoUtil
  dataSizeLimit : Nat
  metaSizeLimit : Nat
  data_aligned : 0 < dataSizeLimit ∧ pageSize ∣ dataSizeLimit
  meta_aligned : 0 < metaSizeLimit ∧ pageSize ∣ metaSizeLimit

structure LogMeta where
  offset : Nat
  length : Nat
  term : Nat
  index : Nat
  digest : Digest
  deriving DecidableEq

def LogMeta.blank : LogMeta := ⟨0, 0, 0, 0, .replicate 32 0⟩

inductive SegmentName where
  | active (firstIndex : Nat)
  | closed (firstIndex lastIndex : Nat)
  deriving DecidableEq, Repr

def SegmentName.firstIndex : SegmentName → Nat
  | .active firstIndex => firstIndex
  | .closed firstIndex _ => firstIndex

/-- The log directory. A dropped file keeps its content under a name that no
program looks for, so it is not kept here. -/
structure Disk where
  currentTerm : Option Nat := none
  voteFor : Option Nat := none
  firstIndex : Option Nat := none
  datas : AList (fun _ : SegmentName => List UInt8) := ∅
  metas : AList (fun _ : SegmentName => List LogMeta) := ∅

inductive Step where
  | setCurrentTerm (term : Nat)
  | setVoteFor (voteFor : Nat)
  | setFirstIndex (firstIndex : Nat)
  | createData (name : SegmentName) (size : Nat)
  | createMeta (name : SegmentName) (size : Nat)
  | renameData (source : SegmentName) (target : Option SegmentName)
  | renameMeta (source : SegmentName) (target : Option SegmentName)
  | writeData (name : SegmentName) (offset : Nat) (bytes : List UInt8)
  | writeMeta (name : SegmentName) (position : Nat) (records : List LogMeta)

/-- The assertions, and the two ways to die without one: a key version that is
not there and a write outside the mapped file. -/
inductive Check where
  | openData
  | openMeta
  | rename
  | outsideMapping
  | keyVersion
  | closedCorrupted
  | metaOffset
  | dataOffset
  | isActive
  | entryIndex
  | withInBoundary
  | metaIndex
  | entryAddr
  | digest
  | duplicateClosed
  | duplicateActive
  | closedEmpty
  | closedGap
  | activeGap
  | noActive
  | noClosed
  | startIndex
  deriving DecidableEq, Repr

/-- `assert(c)` in code that writes nothing. -/
def ensure (check : Check) (c : Prop) [Decidable c] : Except Check Unit :=
  if c then .ok () else .error check

@[simp] theorem ensure_of {check : Check} {c : Prop} [Decidable c] (h : c) :
    ensure check c = .ok () := if_pos h

theorem ensure_eq_ok {check : Check} {c : Prop} [Decidable c] {u : Unit} :
    ensure check c = .ok u ↔ c := by
  simp [ensure]

def found {α : Type} (check : Check) : Option α → Except Check α
  | some x => .ok x
  | none => .error check

namespace Disk

def dataOf (disk : Disk) (name : SegmentName) : List UInt8 := (disk.datas.lookup name).getD []

def metaOf (disk : Disk) (name : SegmentName) : List LogMeta := (disk.metas.lookup name).getD []

/-- `rename`, or a rename to a dropped name. -/
def moveTo {β : Type} (files : AList (fun _ : SegmentName => β)) (source : SegmentName)
    (target : Option SegmentName) : AList (fun _ : SegmentName => β) :=
  match files.lookup source, target with
  | some file, some target => (files.erase source).insert target file
  | _, _ => files.erase source

def after (disk : Disk) : Step → Disk
  | .setCurrentTerm term => { disk with currentTerm := some term }
  | .setVoteFor voteFor => { disk with voteFor := some voteFor }
  | .setFirstIndex firstIndex => { disk with firstIndex := some firstIndex }
  | .createData name size =>
    { disk with datas := disk.datas.insert name (List.replicate size 0) }
  | .createMeta name size =>
    { disk with metas := disk.metas.insert name (List.replicate (size / metaSize) .blank) }
  | .renameData source target => { disk with datas := moveTo disk.datas source target }
  | .renameMeta source target => { disk with metas := moveTo disk.metas source target }
  | .writeData name offset bytes =>
    { disk with datas := disk.datas.insert name (writeAt (disk.dataOf name) offset bytes) }
  | .writeMeta name position records =>
    { disk with metas := disk.metas.insert name (writeAt (disk.metaOf name) position records) }

def afterAll (disk : Disk) (steps : List Step) : Disk := steps.foldl after disk

/-- What a step needs to go through, and the check that fails otherwise. -/
def allows (disk : Disk) : Step → Prop
  | .renameData source _ => source ∈ disk.datas
  | .renameMeta source _ => source ∈ disk.metas
  | .writeData name offset bytes => offset + bytes.length ≤ (disk.dataOf name).length
  | .writeMeta name position records =>
    position + records.length ≤ (disk.metaOf name).length
  | _ => True

instance (disk : Disk) : (step : Step) → Decidable (disk.allows step)
  | .renameData source _ => inferInstanceAs (Decidable (source ∈ disk.datas))
  | .renameMeta source _ => inferInstanceAs (Decidable (source ∈ disk.metas))
  | .writeData _ _ _ => inferInstanceAs (Decidable (_ ≤ _))
  | .writeMeta _ _ _ => inferInstanceAs (Decidable (_ ≤ _))
  | .setCurrentTerm _ | .setVoteFor _ | .setFirstIndex _ | .createData _ _ | .createMeta _ _ =>
    .isTrue trivial

end Disk

def Step.check : Step → Check
  | .renameData _ _ | .renameMeta _ _ => .rename
  | _ => .outsideMapping

abbrev Action := Program Step Check Disk

def perform (step : Step) : Action Unit := do
  let disk ← Program.get
  Program.assert step.check (disk.allows step)
  Program.emit step
  Program.modify fun disk => disk.after step

structure Segment where
  isActive : Bool
  firstIndex : Nat
  lastIndex : Nat
  dataSizeLimit : Nat
  dataOffset : Nat := 0
  metaSizeLimit : Nat
  metaOffset : Nat := 0
  deriving DecidableEq, Repr

namespace Segment

variable {Entry : Type} (config : Config Entry)

variable (segment : Segment)

def name : SegmentName :=
  if segment.isActive then .active segment.firstIndex
  else .closed segment.firstIndex segment.lastIndex

/-- Like `mLastIndex = mFirstIndex - 1`, without the wrap at 0. -/
def isEmpty (firstIndex lastIndex : Nat) : Bool := lastIndex + 1 == firstIndex

def createActiveSegment (firstIndex : Nat) : Action Segment := do
  perform (.createData (.active firstIndex) config.dataSizeLimit)
  perform (.createMeta (.active firstIndex) config.metaSizeLimit)
  return { isActive := true
           firstIndex := firstIndex
           lastIndex := firstIndex - 1
           dataSizeLimit := config.dataSizeLimit
           metaSizeLimit := config.metaSizeLimit }

/-- The scan of the meta file: how far the indices of the records go on by one. -/
def scan (lastIndex : Nat) : List LogMeta → Nat
  | [] => lastIndex
  | record :: records =>
    if record.index = lastIndex + 1 then scan (lastIndex + 1) records else lastIndex

/-- `recoverActiveOrClosedSegment`. Nothing is written. -/
def recoverActiveOrClosedSegment (disk : Disk) (name : SegmentName) : Except Check Segment := do
  let data ← found .openData (disk.datas.lookup name)
  let records ← found .openMeta (disk.metas.lookup name)
  let firstIndex := name.firstIndex
  let lastIndex := scan (firstIndex - 1) records
  ensure .closedCorrupted (name = .active firstIndex ∨ name = .closed firstIndex lastIndex)
  let metaOffset := (lastIndex + 1 - firstIndex) * metaSize
  ensure .metaOffset (metaOffset ≤ records.length * metaSize)
  let last := (records[lastIndex - firstIndex]?).getD .blank
  let dataOffset := if isEmpty firstIndex lastIndex then 0 else last.offset + last.length
  ensure .dataOffset (dataOffset ≤ data.length)
  return { isActive := name = .active firstIndex
           firstIndex := firstIndex
           lastIndex := lastIndex
           dataSizeLimit := data.length
           dataOffset := dataOffset
           metaSizeLimit := records.length * metaSize
           metaOffset := metaOffset }

def renameFiles (source : SegmentName) (target : Option SegmentName) : Action Unit := do
  perform (.renameData source target)
  perform (.renameMeta source target)

def closeActiveSegment : Action Segment := do
  Program.assert .isActive (segment.isActive = true)
  renameFiles (.active segment.firstIndex) (some (.closed segment.firstIndex segment.lastIndex))
  return { segment with isActive := false }

def byteSize (entry : Entry) : Nat := (config.format.serialize entry).length

def dataLength (entries : List Entry) : Nat := (entries.map (byteSize config)).sum

/-- The entries do not fit behind those of the segment. -/
def exceeds (entries : List Entry) : Bool :=
  segment.metaOffset + entries.length * metaSize > segment.metaSizeLimit ||
    segment.dataOffset + dataLength config entries > segment.dataSizeLimit

def shouldRoll (entries : List Entry) : Action Bool := do
  Program.assert .isActive (segment.isActive = true)
  return segment.exceeds config entries

/-- The key version an entry is signed with; the oldest one if it names none. -/
def signingVersion (entry : Entry) : Nat :=
  if config.format.secretKeyVersion entry = 0 then config.crypto.descendingVersions.getLastD 0
  else config.format.secretKeyVersion entry

/-- `createHMAC`, called if the crypto is enabled. -/
def createHMAC (entry : Entry) : Except Check Digest :=
  if config.crypto.isEnabled = false then .ok LogMeta.blank.digest
  else if signingVersion config entry ∈ config.crypto.descendingVersions then
    .ok (config.crypto.hmac (signingVersion config entry) (config.format.index entry)
      (config.format.serialize entry))
  else .error .keyVersion

/-- The loop of `appendEntries` that fills `metaArr`. -/
def recordsFor (dataOffset nextIndex : Nat) : List Entry → Except Check (List LogMeta)
  | [] => .ok []
  | entry :: entries => do
      ensure .entryIndex (nextIndex = config.format.index entry)
      let digest ← createHMAC config entry
      let length := byteSize config entry
      let records ← recordsFor (dataOffset + length) (nextIndex + 1) entries
      return ⟨dataOffset, length, config.format.term entry, config.format.index entry, digest⟩
        :: records

def appendEntries (entries : List Entry) : Action Segment := do
  Program.assert .isActive (segment.isActive = true)
  let records ← Program.lift
    (recordsFor config segment.dataOffset (segment.lastIndex + 1) entries)
  perform (.writeData segment.name segment.dataOffset
    (entries.flatMap config.format.serialize))
  perform (.writeMeta segment.name (segment.metaOffset / metaSize) records)
  return { segment with
    dataOffset := segment.dataOffset + dataLength config entries
    metaOffset := segment.metaOffset + entries.length * metaSize
    lastIndex := segment.lastIndex + entries.length }

def isWithInBoundary (index : Nat) : Bool :=
  !isEmpty segment.firstIndex segment.lastIndex && segment.firstIndex ≤ index &&
    index ≤ segment.lastIndex

def getMeta (disk : Disk) (segment : Segment) (name : SegmentName) (index : Nat) :
    Except Check LogMeta := do
  ensure .withInBoundary (segment.isWithInBoundary index = true)
  let record := ((disk.metaOf name)[index - segment.firstIndex]?).getD .blank
  ensure .metaIndex (record.index = index)
  return record

/-- `verifyHMAC`: some key gives the digest of the record. The recently used key
is only tried first. -/
def verifyHMAC (record : LogMeta) (bytes : List UInt8) : Except Check Unit :=
  ensure .digest (config.crypto.isEnabled = false ∨ record.digest = LogMeta.blank.digest ∨
    ∃ version ∈ config.crypto.descendingVersions,
      config.crypto.hmac version record.index bytes = record.digest)

/-- `getEntry`; `none` is the answer `false`. -/
def getEntry (disk : Disk) (segment : Segment) (index : Nat) : Except Check (Option Entry) :=
  if segment.isWithInBoundary index then do
    let record ← getMeta disk segment segment.name index
    ensure .entryAddr (record.offset ≤ segment.dataOffset)
    let bytes := readAt (disk.dataOf segment.name) record.offset record.length
    verifyHMAC config record bytes
    return config.format.parse bytes
  else .ok none

/-- `getTerm`; `none` is the answer `false`. -/
def getTerm (disk : Disk) (segment : Segment) (index : Nat) : Except Check (Option Nat) :=
  if segment.isWithInBoundary index then do
    let record ← getMeta disk segment segment.name index
    return some record.term
  else .ok none

/-- `truncateSuffix`. The records behind `lastIndexKept` are cleared one by one,
upwards; a closed segment is renamed after that. -/
def truncateSuffix (lastIndexKept : Nat) : Action Segment := do
  if segment.lastIndex ≤ lastIndexKept then
    return segment
  else
    let kept := lastIndexKept + 1 - segment.firstIndex
    Program.forEach (List.range' kept (segment.lastIndex - lastIndexKept)) fun position =>
      perform (.writeMeta segment.name position [.blank])
    let disk ← Program.get
    let record ← Program.lift
      (getMeta disk { segment with lastIndex := lastIndexKept } segment.name lastIndexKept)
    let truncated := { segment with
      lastIndex := lastIndexKept
      metaOffset := kept * metaSize
      dataOffset := record.offset + record.length }
    Program.when (segment.isActive = false) (renameFiles segment.name (some truncated.name))
    return truncated

def dropSegment : Action Unit := renameFiles segment.name none

end Segment

end MySuperLedger.Storage
