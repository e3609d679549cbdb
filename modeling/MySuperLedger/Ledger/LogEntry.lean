import MySuperLedger.Ledger.Requests
import MySuperLedger.Protobuf.Size

/-! # The size of a log entry

An accepted command goes into the log with its events: the request as it came, and
the journal entry once more in the event that records it. `RaftLogStore::dequeue`
builds the entry and asserts that it is not larger than `kMaxPayLoadSizeInBytes`.
No step before asks for a size, and a request may have as many bytes as gRPC
receives.

The messages of `store.proto` and `raft.proto` are measured field by field. Those
of the ledger are not part of the repository; of them only the size is used, and
that an embedded message makes its parent at least as large as itself.
-/

namespace MySuperLedger.Ledger

open Protobuf List Option

/-- `MetaData` and `CommandMetaData`, as far as an entry carries them. -/
structure CommandMetaData where
  id : UInt64 := 0
  type : Int64 := 0
  createdTimeInNanos : UInt64 := 0
  creatorId : UInt64 := 0
  groupId : UInt64 := 0
  groupVersion : UInt64 := 0
  trackingContext : String := ""
  deriving DecidableEq, Repr

structure Protos.CommandEntry (Bytes : Type) where
  type : UInt64
  id : UInt64
  createdTimeInNanos : UInt64
  entry : Bytes
  creatorId : UInt64
  groupId : UInt64
  groupVersion : UInt64
  trackingContext : String
  deriving DecidableEq, Repr

structure Protos.RaftPayload (Bytes : Type) where
  command : Protos.CommandEntry Bytes
  events : List (EventEntry Bytes)
  deriving DecidableEq, Repr

/-- `raft::LogEntry`. Encryption is off: the payload is the serialized `RaftPayload`. -/
structure Protos.LogEntry (Bytes : Type) where
  term : UInt64
  index : UInt64
  noop : Bool := false
  checksum : UInt64 := 0
  payload : Option (Protos.RaftPayload Bytes) := none
  secretKeyVersion : UInt64
  specialTag : Option (UInt64 × String) := none
  deriving DecidableEq, Repr

/-- How the messages of the ledger are written, and how many bytes that takes. -/
structure Protos.Layout (Bytes : Type) where
  wire : Wire Bytes
  serializeRequest : Request → Bytes
  size : Bytes → Nat
  journalEntrySize : Protos.JournalEntry → Nat
  le_request : ∀ journalEntry,
    journalEntrySize journalEntry ≤
      size (serializeRequest (.recordJournalEntry (some journalEntry)))
  le_recordedEvent : ∀ event : Protos.RecordedEvent,
    journalEntrySize event.journalEntry ≤ size (wire.recordedEvent.serializeAsString event)

def Protos.Layout.requestBytes {Bytes : Type} (layout : Protos.Layout Bytes)
    (journalEntry : Protos.JournalEntry) : Nat :=
  layout.size (layout.serializeRequest (.recordJournalEntry (some journalEntry)))

/-- The size of the event that records it. The event does not have the id. -/
def Protos.Layout.eventBytes {Bytes : Type} (layout : Protos.Layout Bytes)
    (journalEntry : Protos.JournalEntry) : Nat :=
  layout.size (layout.wire.recordedEvent.serializeAsString ⟨1, { journalEntry with id := "" }⟩)

section

variable {Bytes : Type}

def Protos.CommandEntry.byteSizeLong (size : Bytes → Nat)
    (command : Protos.CommandEntry Bytes) : Nat :=
  uint64Field command.type + uint64Field command.id + uint64Field command.createdTimeInNanos +
    bytesField (size command.entry) + uint64Field command.creatorId +
    uint64Field command.groupId + uint64Field command.groupVersion +
    stringField command.trackingContext

def EventEntry.byteSizeLong (size : Bytes → Nat) (event : EventEntry Bytes) : Nat :=
  uint64Field event.type + uint64Field event.id + uint64Field event.commandId +
    uint64Field event.createdTimeInNanos + bytesField (size event.entry) +
    uint64Field event.creatorId + uint64Field event.groupId + uint64Field event.groupVersion +
    stringField event.trackingContext

def Protos.RaftPayload.byteSizeLong (size : Bytes → Nat)
    (payload : Protos.RaftPayload Bytes) : Nat :=
  messageField (payload.command.byteSizeLong size) +
    (payload.events.map fun event => messageField (event.byteSizeLong size)).sum

def Protos.LogEntry.byteSizeLong (size : Bytes → Nat) (entry : Protos.LogEntry Bytes) : Nat :=
  uint64Field entry.term + uint64Field entry.index + boolField entry.noop +
    uint64Field entry.checksum +
    (match entry.payload with
      | none => 0
      | some payload => bytesField (payload.byteSizeLong size)) +
    messageField (uint64Field entry.secretKeyVersion) +
    (match entry.specialTag with
      | none => 0
      | some (identifier, payload) =>
        messageField (uint64Field identifier + stringField payload))

end

def kMaxPayLoadSizeInBytes : Nat := 4000000

/-- What gRPC receives at most, unless told otherwise: 4 MiB. -/
def kMaxReceiveMessageSize : Nat := 4 * 1024 * 1024

/-- `encodeCommand`: `populateCommandEntry` and `set_entry`. The string of a command is the
request it came with. -/
def encodeCommand {Bytes : Type} (metaData : CommandMetaData) (entry : Bytes) :
    Protos.CommandEntry Bytes where
  type := metaData.type.toUInt64
  id := metaData.id
  createdTimeInNanos := metaData.createdTimeInNanos
  entry := entry
  creatorId := metaData.creatorId
  groupId := metaData.groupId
  groupVersion := metaData.groupVersion
  trackingContext := metaData.trackingContext

structure LogStore.PersistEntry (Bytes : Type) where
  metaData : CommandMetaData
  request : Bytes
  events : List Event
  entry : Protos.LogEntry Bytes

/-- `RaftLogStore`: the term and the key version of the store at the time. -/
structure LogStore where
  term : UInt64
  secretKeyVersion : UInt64

namespace LogStore

variable {Bytes : Type}

def persistAsync (store : LogStore) (metaData : CommandMetaData) (specialTag : Option String)
    (request : Bytes) (events : List Event) (index : UInt64) : PersistEntry Bytes where
  metaData := metaData
  request := request
  events := events
  entry :=
    { term := store.term
      index := index
      secretKeyVersion := store.secretKeyVersion
      specialTag := specialTag.map fun tag => (metaData.type.toUInt64, tag) }

/-- `RaftCommandEventStore::persistAsync` of a command with events: they get their numbers and the
id of the command, which is also the index of the entry. -/
def persistEvents (store : LogStore) (metaData : CommandMetaData) (specialTag : Option String)
    (request : Bytes) (events : List Event) : PersistEntry Bytes :=
  store.persistAsync metaData specialTag request (stampAll metaData.id 0 events) metaData.id

def buildEntry (layout : Protos.Layout Bytes) (queued : PersistEntry Bytes) :
    Option (Protos.LogEntry Bytes) :=
  (queued.events.mapM (encodeEvent layout.wire)).map fun events =>
    { queued.entry with payload := some ⟨encodeCommand queued.metaData queued.request, events⟩ }

/-- `none` is the failed assertion, or an event that cannot be encoded. -/
def dequeue (layout : Protos.Layout Bytes) (queued : PersistEntry Bytes) :
    Option (Protos.LogEntry Bytes) :=
  (buildEntry layout queued).bind fun entry =>
    if entry.byteSizeLong layout.size ≤ kMaxPayLoadSizeInBytes then some entry else none

end LogStore

theorem TransactionType.toType_typeOf {type : Protos.TransactionType}
    (h : typeOf type ≠ .unknown) : (typeOf type).toType = type := by
  cases type with
  | unknownTransactionType => exact absurd rfl h
  | debit | credit => rfl
  | unrecognized number => exact absurd rfl h

theorem Amount.encodeTo_ofProto {proto : Protos.Amount} {amount : Amount}
    (h : ofProto proto = some amount) (old : Protos.Amount) :
    amount.encodeTo old = some proto ∧ amount.IsV1 := by
  unfold ofProto at h
  split at h
  · rename_i hv
    cases h
    exact ⟨by rw [encodeTo, if_pos hv], hv⟩
  · cases h

variable {proto : Protos.JournalEntry} {journalLine : JournalLine}
  {protos : List Protos.JournalLine} {journalLines : List JournalLine} {journalEntry : JournalEntry}

theorem JournalLine.encodeTo_initWith {proto : Protos.JournalLine}
    (h : initWith proto = some journalLine) (ht : journalLine.type ≠ .unknown) :
    journalLine.encodeTo {} = some proto := by
  unfold initWith at h
  split at h
  · rename_i hv
    obtain ⟨amount, ha, rfl⟩ := map_eq_some_iff.mp h
    rw [encodeTo, if_pos hv, (Amount.encodeTo_ofProto ha _).1, map_some,
      TransactionType.toType_typeOf ht]
  · cases h

theorem JournalLine.isV1_of_initWith {proto : Protos.JournalLine}
    (h : initWith proto = some journalLine) : journalLine.IsV1 := by
  unfold initWith at h
  split at h
  · rename_i hv
    obtain ⟨amount, ha, rfl⟩ := map_eq_some_iff.mp h
    exact ⟨hv, (Amount.encodeTo_ofProto ha {}).2⟩
  · cases h

theorem mapM_encodeTo_initWith (h : protos.mapM JournalLine.initWith = some journalLines)
    (ht : ∀ journalLine ∈ journalLines, journalLine.type ≠ .unknown) :
    journalLines.mapM (JournalLine.encodeTo · {}) = some protos := by
  induction protos generalizing journalLines with
  | nil =>
    cases h
    rfl
  | cons proto protos ih =>
    simp only [mapM_cons, bind_eq_bind, bind_eq_some_iff] at h
    obtain ⟨line, hl, lines, hlin, heq⟩ := h
    cases heq
    obtain ⟨hf, hr⟩ := forall_mem_cons.mp ht
    simp [JournalLine.encodeTo_initWith hl hf, ih hlin hr]

theorem forall_isV1_of_mapM_initWith (h : protos.mapM JournalLine.initWith = some journalLines) :
    ∀ journalLine ∈ journalLines, journalLine.IsV1 := by
  induction protos generalizing journalLines with
  | nil =>
    cases h
    simp
  | cons proto protos ih =>
    simp only [mapM_cons, bind_eq_bind, bind_eq_some_iff] at h
    obtain ⟨line, hline, lines, hl, heq⟩ := h
    cases heq
    exact forall_mem_cons.mpr ⟨JournalLine.isV1_of_initWith hline, ih hl⟩

theorem JournalEntry.encodeTo_initWith (h : initWith {} proto = some journalEntry)
    (ht : ∀ journalLine ∈ journalEntry.journalLines, journalLine.type ≠ .unknown) :
    journalEntry.encodeTo {} = some { proto with id := "" } := by
  unfold initWith at h
  split at h
  · rename_i hv
    obtain ⟨journalLines, hl, rfl⟩ := map_eq_some_iff.mp h
    have hb := mapM_encodeTo_initWith hl (by simpa using ht)
    simp [encodeTo, hv, hb]
  · cases h

theorem JournalEntry.isV1_of_initWith (h : initWith {} proto = some journalEntry) :
    journalEntry.IsV1 := by
  unfold initWith at h
  split at h
  · rename_i hv
    obtain ⟨journalLines, hl, rfl⟩ := map_eq_some_iff.mp h
    exact ⟨hv, by simpa using forall_isV1_of_mapM_initWith hl⟩
  · cases h

/-- The request passes `verifyCommand` and `process` answers it with 200. -/
def Request.IsAccepted (now : UInt64) (snapshot : DoneMap) (s : AppState) (request : Request)
    (events : List Event) : Prop :=
  ∃ command hint, request.proceed = some (.ok command) ∧
    processCommand now snapshot s command = some (hint, events) ∧ hint.code = HttpCode.ok

/-- The entry of the first event of a command. `process` sets its type and its time, and
`persistAsync` its id and the id of the command. -/
def EventEntry.recorded {Bytes : Type} (commandId now : UInt64) (entry : Bytes) :
    EventEntry Bytes where
  type := 53
  id := 0
  commandId := commandId
  createdTimeInNanos := now
  entry := entry
  creatorId := 0
  groupId := 0
  groupVersion := 0
  trackingContext := ""

/-- One event, whose message is the journal entry of the request without its id. -/
theorem Request.IsAccepted.encodeEvents {Bytes : Type} (wire : Wire Bytes) (commandId : UInt64)
    {now : UInt64} {snapshot : DoneMap} {s : AppState} {journalEntry : Protos.JournalEntry}
    {events : List Event}
    (h : (recordJournalEntry (some journalEntry)).IsAccepted now snapshot s events) :
    (stampAll commandId 0 events).mapM (encodeEvent wire) = some [.recorded commandId now
        (wire.recordedEvent.serializeAsString ⟨1, { journalEntry with id := "" }⟩)] := by
  obtain ⟨command, hi, hproceed, hp, hok⟩ := h
  obtain ⟨built, hb, rfl⟩ : ∃ built, JournalEntry.initWith {} journalEntry = some built ∧
      command = .recordJournalEntry (some built) := by
    obtain ⟨made, hm, heq⟩ := map_eq_some_iff.mp hproceed
    obtain ⟨built, hb, rfl⟩ := map_eq_some_iff.mp
      (show (JournalEntry.initWith {} journalEntry).map _ = some made from hm)
    exact ⟨built, hb, by simpa [verifyCommand, kVerifiedSuccess] using heq.symm⟩
  have hv := JournalEntry.isV1_of_initWith hb
  by_cases ha : Accepts snapshot s built
  · rw [processCommand_of_accepts now hv ha] at hp
    cases hp
    have ht : ∀ line ∈ built.journalLines, line.type ≠ .unknown :=
      fun line hl => (ha.1.2 line hl).type_ne
    have hback := JournalEntry.encodeTo_initWith hb ht
    simp [stampAll, stamp, encodeEvent, Event.encodeToString, Event.ofPayload, hback]
    rfl
  · obtain ⟨hi', hp', hc⟩ := processCommand_of_not_accepts now hv ha
    rw [hp'] at hp
    cases hp
    exact absurd hok hc

namespace LogStore

/-- What a command entry takes besides the request. -/
def commandFraming (metaData : CommandMetaData) (requestBytes : Nat) : Nat :=
  uint64Field metaData.type.toUInt64 + uint64Field metaData.id +
    uint64Field metaData.createdTimeInNanos + bytesHeader requestBytes +
    uint64Field metaData.creatorId + uint64Field metaData.groupId +
    uint64Field metaData.groupVersion + stringField metaData.trackingContext

/-- The event is the first of its command, and a field that is 0 is not written. -/
def eventFraming (commandId now : UInt64) (eventBytes : Nat) : Nat :=
  uint64Field 53 + uint64Field commandId + uint64Field now + bytesHeader eventBytes

/-- What the log entry takes besides the request and the event. -/
def framing (store : LogStore) (metaData : CommandMetaData) (now : UInt64)
    (requestBytes eventBytes : Nat) : Nat :=
  let command := commandFraming metaData requestBytes
  let event := eventFraming metaData.id now eventBytes
  let payload := lengthHeader (command + requestBytes) + command +
    (lengthHeader (event + eventBytes) + event)
  uint64Field store.term + uint64Field metaData.id +
    messageField (uint64Field store.secretKeyVersion) +
    bytesHeader (payload + (requestBytes + eventBytes)) + payload

section

variable {Bytes : Type} (layout : Protos.Layout Bytes) (store : LogStore)
  (metaData : CommandMetaData) {now : UInt64} {snapshot : DoneMap} {s : AppState}
  {journalEntry : Protos.JournalEntry} {events : List Event}

theorem byteSizeLong_buildEntry
    (h : (Request.recordJournalEntry (some journalEntry)).IsAccepted now snapshot s events) :
    (buildEntry layout (store.persistEvents metaData none
        (layout.serializeRequest (.recordJournalEntry (some journalEntry))) events)).map
      (Protos.LogEntry.byteSizeLong layout.size) =
    some (store.framing metaData now (layout.requestBytes journalEntry)
        (layout.eventBytes journalEntry) +
      (layout.requestBytes journalEntry + layout.eventBytes journalEntry)) := by
  have hevs := h.encodeEvents layout.wire metaData.id
  rw [Protos.Layout.requestBytes, Protos.Layout.eventBytes]
  generalize layout.serializeRequest (.recordJournalEntry (some journalEntry)) = request
  generalize layout.wire.recordedEvent.serializeAsString ⟨1, { journalEntry with id := "" }⟩ = event
    at hevs ⊢
  have hcmd : (encodeCommand metaData request).byteSizeLong layout.size =
      commandFraming metaData (layout.size request) + layout.size request := by
    simp only [encodeCommand, Protos.CommandEntry.byteSizeLong, commandFraming, bytesField]
    omega
  have hev : (EventEntry.recorded metaData.id now event).byteSizeLong layout.size =
      eventFraming metaData.id now (layout.size event) + layout.size event := by
    simp only [EventEntry.recorded, EventEntry.byteSizeLong, eventFraming, bytesField,
      uint64Field_zero, stringField_empty]
    omega
  have hpay : Protos.RaftPayload.byteSizeLong layout.size
      ⟨encodeCommand metaData request, [.recorded metaData.id now event]⟩ =
      lengthHeader (commandFraming metaData (layout.size request) + layout.size request) +
        commandFraming metaData (layout.size request) +
        (lengthHeader (eventFraming metaData.id now (layout.size event) + layout.size event) +
          eventFraming metaData.id now (layout.size event)) +
        (layout.size request + layout.size event) := by
    simp only [Protos.RaftPayload.byteSizeLong, hcmd, map_cons, map_nil,
      sum_cons, sum_nil, hev, messageField]
    omega
  rw [buildEntry, persistEvents, persistAsync, hevs, map_some, map_some, Option.some.injEq]
  simp only [Protos.LogEntry.byteSizeLong, hpay, map_none, framing, bytesField,
    boolField_false, uint64Field_zero]
  omega

theorem dequeue_isSome_iff_size_le
    (h : (Request.recordJournalEntry (some journalEntry)).IsAccepted now snapshot s events) :
    (dequeue layout (store.persistEvents metaData none
        (layout.serializeRequest (.recordJournalEntry (some journalEntry))) events)).isSome ↔
      layout.requestBytes journalEntry + layout.eventBytes journalEntry +
        store.framing metaData now (layout.requestBytes journalEntry)
          (layout.eventBytes journalEntry) ≤ kMaxPayLoadSizeInBytes := by
  obtain ⟨entry, hb, hs⟩ := map_eq_some_iff.mp
    (byteSizeLong_buildEntry layout store metaData h)
  rw [dequeue, hb, bind_some, hs, Nat.add_comm (store.framing ..)]
  split
  · simpa
  · simpa using Nat.lt_of_not_le ‹_›

/-- The journal entry is in the request and in the event. -/
theorem journalEntrySize_add_le (journalEntry : Protos.JournalEntry) :
    layout.journalEntrySize journalEntry + layout.journalEntrySize { journalEntry with id := "" } ≤
      layout.requestBytes journalEntry + layout.eventBytes journalEntry :=
  Nat.add_le_add (layout.le_request journalEntry)
    (layout.le_recordedEvent ⟨1, { journalEntry with id := "" }⟩)

theorem dequeue_eq_none_of_large
    (h : (Request.recordJournalEntry (some journalEntry)).IsAccepted now snapshot s events)
    (hl : kMaxPayLoadSizeInBytes < layout.journalEntrySize journalEntry +
      layout.journalEntrySize { journalEntry with id := "" }) :
    dequeue layout (store.persistEvents metaData none
      (layout.serializeRequest (.recordJournalEntry (some journalEntry))) events) = none := by
  have hp := journalEntrySize_add_le layout journalEntry
  have hi := dequeue_isSome_iff_size_le layout store metaData h
  rw [← not_isSome_iff_eq_none, hi]
  omega

end

inductive Message where
  | event (message : EventMessage)
  | request (request : Request)

def transactionTypeSize : Protos.TransactionType → Nat
  | .unknownTransactionType => 0
  | .debit => 2
  | .credit => 2
  | .unrecognized number => if number < 0 then 11 else 1 + varintSize number.toNat

def journalLineSize (journalLine : Protos.JournalLine) : Nat :=
  uint64Field journalLine.version + uint64Field journalLine.nominalCode +
    transactionTypeSize journalLine.transactionType +
    messageField (uint64Field journalLine.amount.version + uint64Field journalLine.amount.value) +
    uint64Field journalLine.iso4217CurrencyCode + stringField journalLine.refData

def journalEntrySize (journalEntry : Protos.JournalEntry) : Nat :=
  uint64Field journalEntry.version + stringField journalEntry.id +
    uint64Field journalEntry.validTime + uint64Field journalEntry.recordTime +
    (journalEntry.journalLines.map fun journalLine =>
      messageField (journalLineSize journalLine)).sum +
    stringField journalEntry.purpose

/-- Only the messages that record a journal entry are measured. -/
def Message.size : Message → Nat
  | .event (.recorded message) =>
    uint64Field message.version + messageField (journalEntrySize message.journalEntry)
  | .request (.recordJournalEntry (some journalEntry)) =>
    messageField (journalEntrySize journalEntry)
  | _ => 0

def plainLayout : Protos.Layout Message where
  wire :=
    { createdEvent := ⟨fun message => .event (.created message),
        fun | .event (.created message) => message | _ => {}, fun _ => rfl⟩
      configuredEvent := ⟨fun message => .event (.configured message),
        fun | .event (.configured message) => message | _ => {}, fun _ => rfl⟩
      recordedEvent := ⟨fun message => .event (.recorded message),
        fun | .event (.recorded message) => message | _ => {}, fun _ => rfl⟩ }
  serializeRequest := .request
  size := Message.size
  journalEntrySize := journalEntrySize
  le_request _ := le_messageField _
  le_recordedEvent _ := (le_messageField _).trans (Nat.le_add_left _ _)

/-- A sale that says what it was for, in so many letters. -/
def wordySale (letters : Nat) : Protos.JournalEntry where
  version := 1
  id := "entry-1"
  journalLines := [⟨1, 1001, .debit, ⟨1, 50⟩, 840, ""⟩, ⟨1, 2001, .credit, ⟨1, 50⟩, 840, ""⟩]
  purpose := String.ofList (List.replicate letters 'a')

theorem journalEntrySize_wordySale (letters : Nat) :
    journalEntrySize (wordySale letters) = 47 + bytesField letters ∧
      journalEntrySize { wordySale letters with id := "" } = 38 + bytesField letters := by
  have hp : (wordySale letters).purpose.utf8ByteSize = letters :=
    utf8ByteSize_replicate rfl letters
  have hr : journalEntrySize (wordySale 0) = 47 ∧
      journalEntrySize { wordySale 0 with id := "" } = 38 := by decide +kernel
  constructor
  · rw [← hr.1]
    simp only [journalEntrySize, stringField, hp]
    rfl
  · rw [← hr.2]
    simp only [journalEntrySize, stringField, hp]
    rfl

theorem requestBytes_wordySale (letters : Nat) :
    plainLayout.requestBytes (wordySale letters) = messageField (47 + bytesField letters) := by
  rw [← (journalEntrySize_wordySale letters).1]
  rfl

def saleEvents (letters : Nat) : List Event :=
  [.ofPayload 1 (.journalEntryRecorded
    { entryOf [debitLine 1001 50, creditLine 2001 50] with
      purpose := (wordySale letters).purpose })]

theorem isAccepted_wordySale (letters : Nat) :
    (Request.recordJournalEntry (some (wordySale letters))).IsAccepted 1 ∅ twoAccounts
      (saleEvents letters) := by
  have hv : (entryOf [debitLine 1001 50, creditLine 2001 50]).IsV1 := by decide
  have ha : Accepts ∅ twoAccounts (entryOf [debitLine 1001 50, creditLine 2001 50]) := by
    unfold Accepts IsAdmissible LooksBalanced
    decide +kernel
  exact ⟨_, _, rfl, processCommand_of_accepts 1 hv ha, rfl⟩

/-- The sale on its way to the log, behind the no-op of a leader of term 1. -/
def queuedSale (letters : Nat) : PersistEntry Message :=
  persistEvents ⟨1, 0⟩ { id := 2, type := 3, createdTimeInNanos := 1 } none
    (plainLayout.serializeRequest (.recordJournalEntry (some (wordySale letters))))
    (saleEvents letters)

theorem dequeue_queuedSale_eq_none {letters : Nat}
    (h : kMaxPayLoadSizeInBytes < 47 + bytesField letters + (38 + bytesField letters)) :
    dequeue plainLayout (queuedSale letters) = none := by
  refine dequeue_eq_none_of_large plainLayout _ _ (isAccepted_wordySale letters) ?_
  rw [← (journalEntrySize_wordySale letters).1, ← (journalEntrySize_wordySale letters).2] at h
  exact h

end LogStore

end MySuperLedger.Ledger
