import MySuperLedger.Ledger.Domain

/-! # The replicated event codec

An event reaches the other replicas, and the node's own next start, as an
`EventEntry`: its metadata next to the serialized event message
(`CommandEventEncodeWrapper::encodeEvent`). `EventDecoderImpl` rebuilds the
event from that entry. The wire form of a message is assumed, as a law of the
serializer: parsing what was serialized gives the message back.
-/

namespace MySuperLedger.Ledger

open List Option

namespace Protos

structure CreatedEvent where
  version : UInt64 := 0
  account : Account := {}
  deriving DecidableEq, Repr

structure ConfiguredEvent where
  version : UInt64 := 0
  accountMetadata : AccountMetadata := {}
  deriving DecidableEq, Repr

structure RecordedEvent where
  version : UInt64 := 0
  journalEntry : JournalEntry := {}
  deriving DecidableEq, Repr

end Protos

/-- `SerializeAsString` and `ParseFromString` of one message type. -/
structure Serializer (Bytes Message : Type) where
  serializeAsString : Message → Bytes
  parseFromString : Bytes → Message
  parse_serialize : ∀ message, parseFromString (serializeAsString message) = message

structure Wire (Bytes : Type) where
  createdEvent : Serializer Bytes Protos.CreatedEvent
  configuredEvent : Serializer Bytes Protos.ConfiguredEvent
  recordedEvent : Serializer Bytes Protos.RecordedEvent

/-- Messages kept as they are. Parsing one as another type finds no known field. -/
inductive EventMessage where
  | created (message : Protos.CreatedEvent)
  | configured (message : Protos.ConfiguredEvent)
  | recorded (message : Protos.RecordedEvent)
  deriving DecidableEq, Repr

def Wire.verbatim : Wire EventMessage where
  createdEvent := ⟨.created, fun | .created message => message | _ => {}, fun _ => rfl⟩
  configuredEvent := ⟨.configured, fun | .configured message => message | _ => {}, fun _ => rfl⟩
  recordedEvent := ⟨.recorded, fun | .recorded message => message | _ => {}, fun _ => rfl⟩

/-- `MetaData` and `EventMetaData`, without the processing times, which no
entry carries. -/
structure EventMetaData where
  id : UInt64 := 0
  type : Int64 := 0
  commandId : UInt64 := 0
  createdTimeInNanos : UInt64 := 0
  creatorId : UInt64 := 0
  groupId : UInt64 := 0
  groupVersion : UInt64 := 0
  trackingContext : String := ""
  deriving DecidableEq, Repr

inductive EventPayload where
  | accountCreated (account : Account)
  | accountMetadataConfigured (accountMetadata : AccountMetadata)
  | journalEntryRecorded (journalEntry : JournalEntry)
  deriving DecidableEq, Repr

namespace EventPayload

/-- The event type constants of `common_types.h`. -/
def type : EventPayload → Int64
  | accountCreated _ => 51
  | accountMetadataConfigured _ => 52
  | journalEntryRecorded _ => 53

def isSame : EventPayload → EventPayload → Bool
  | accountCreated account, accountCreated another => account.isSame another
  | accountMetadataConfigured accountMetadata, accountMetadataConfigured another =>
    accountMetadata.isSame another
  | journalEntryRecorded journalEntry, journalEntryRecorded another => journalEntry.isSame another
  | _, _ => false

def IsV1 : EventPayload → Prop
  | accountCreated account => account.IsV1
  | accountMetadataConfigured accountMetadata => accountMetadata.IsV1
  | journalEntryRecorded journalEntry => journalEntry.IsV1

instance : (payload : EventPayload) → Decidable payload.IsV1
  | accountCreated account => inferInstanceAs (Decidable account.IsV1)
  | accountMetadataConfigured accountMetadata => inferInstanceAs (Decidable accountMetadata.IsV1)
  | journalEntryRecorded journalEntry => inferInstanceAs (Decidable journalEntry.IsV1)

end EventPayload

/-- The three event classes. Only the constructor of a class sets the type, so
it always agrees with the payload. -/
structure Event where
  metaData : EventMetaData
  version : UInt64 := 1
  payload : EventPayload
  type_eq : metaData.type = payload.type
  deriving DecidableEq, Repr

namespace Event

/-- `AccountCreatedEvent(createdTimeInNanos, account)` and its two siblings. -/
def ofPayload (createdTimeInNanos : UInt64) (payload : EventPayload) : Event where
  metaData := { type := payload.type, createdTimeInNanos := createdTimeInNanos }
  payload := payload
  type_eq := rfl

def setPartialMetaData (event : Event) (metaData : EventMetaData) : Event where
  metaData := { metaData with
    type := event.metaData.type
    createdTimeInNanos := event.metaData.createdTimeInNanos }
  version := event.version
  payload := event.payload
  type_eq := event.type_eq

def IsV1 (event : Event) : Prop := event.version = 1 ∧ event.payload.IsV1

instance (event : Event) : Decidable event.IsV1 := inferInstanceAs (Decidable (_ ∧ _))

end Event

/-- `setId` and `setCommandId`. -/
def stamp (commandId id : UInt64) (event : Event) : Event where
  metaData := { event.metaData with id := id, commandId := commandId }
  version := event.version
  payload := event.payload
  type_eq := event.type_eq

/-- The loop of `persistAsync` over the events of a command. -/
def stampAll (commandId nextEventId : UInt64) : List Event → List Event
  | [] => []
  | event :: events =>
    stamp commandId nextEventId event :: stampAll commandId (nextEventId + 1) events

structure EventEntry (Bytes : Type) where
  type : UInt64
  id : UInt64
  commandId : UInt64
  createdTimeInNanos : UInt64
  entry : Bytes
  creatorId : UInt64
  groupId : UInt64
  groupVersion : UInt64
  trackingContext : String
  deriving DecidableEq, Repr

section

variable {Bytes : Type} (wire : Wire Bytes)

/-- `encodeToString` of the three event classes. -/
def Event.encodeToString (event : Event) : Option Bytes :=
  if event.version = 1 then
    match event.payload with
    | .accountCreated account =>
      (account.encodeTo {}).map fun account =>
        wire.createdEvent.serializeAsString ⟨event.version, account⟩
    | .accountMetadataConfigured accountMetadata =>
      (accountMetadata.encodeTo {}).map fun accountMetadata =>
        wire.configuredEvent.serializeAsString ⟨event.version, accountMetadata⟩
    | .journalEntryRecorded journalEntry =>
      (journalEntry.encodeTo {}).map fun journalEntry =>
        wire.recordedEvent.serializeAsString ⟨event.version, journalEntry⟩
  else none

/-- `encodeEvent`: `populateEventEntry` and `set_entry`. -/
def encodeEvent (event : Event) : Option (EventEntry Bytes) :=
  (event.encodeToString wire).map fun entry =>
    { type := event.metaData.type.toUInt64
      id := event.metaData.id
      commandId := event.metaData.commandId
      createdTimeInNanos := event.metaData.createdTimeInNanos
      entry := entry
      creatorId := event.metaData.creatorId
      groupId := event.metaData.groupId
      groupVersion := event.metaData.groupVersion
      trackingContext := event.metaData.trackingContext }

/-- `EventMetaData(const es::EventEntry &)`. -/
def EventMetaData.ofEntry (entry : EventEntry Bytes) : EventMetaData where
  id := entry.id
  type := entry.type.toInt64
  commandId := entry.commandId
  createdTimeInNanos := entry.createdTimeInNanos
  creatorId := entry.creatorId
  groupId := entry.groupId
  groupVersion := entry.groupVersion
  trackingContext := entry.trackingContext

def decodeAccountCreated (payload : Bytes) : Option EventPayload :=
  let eventProto := wire.createdEvent.parseFromString payload
  if eventProto.version = 1 then (Account.initWith eventProto.account).map .accountCreated
  else none

def decodeAccountMetadataConfigured (payload : Bytes) : Option EventPayload :=
  let eventProto := wire.configuredEvent.parseFromString payload
  if eventProto.version = 1 then
    (AccountMetadata.initWith eventProto.accountMetadata).map .accountMetadataConfigured
  else none

def decodeJournalEntryRecorded (payload : Bytes) : Option EventPayload :=
  let eventProto := wire.recordedEvent.parseFromString payload
  if eventProto.version = 1 then
    (JournalEntry.initWith {} eventProto.journalEntry).map .journalEntryRecorded
  else none

/-- The shared end of the three cases of the decoder: build the event, then copy
the metadata the constructor does not take. -/
def decodeWith (metaData : EventMetaData) (payload : Option EventPayload) : Option (Option Event) :=
  payload.map fun payload =>
    some ((Event.ofPayload metaData.createdTimeInNanos payload).setPartialMetaData metaData)

/-- `EventDecoderImpl::decodeEventFromString`. `some none` is the null pointer
returned for a type the ledger does not know. -/
def decodeEventFromString (metaData : EventMetaData) (payload : Bytes) : Option (Option Event) :=
  if metaData.type = 51 then decodeWith metaData (decodeAccountCreated wire payload)
  else if metaData.type = 52 then
    decodeWith metaData (decodeAccountMetadataConfigured wire payload)
  else if metaData.type = 53 then decodeWith metaData (decodeJournalEntryRecorded wire payload)
  else some none

/-- `CommandEventDecodeWrapper::decodeEvent`. -/
def decodeEvent (entry : EventEntry Bytes) : Option (Option Event) :=
  decodeEventFromString wire (EventMetaData.ofEntry entry) entry.entry

end

@[simp] theorem Amount.ofProto_encodeTo {amount : Amount} (hv : amount.IsV1)
    (proto : Protos.Amount) : (amount.encodeTo proto).bind Amount.ofProto = some amount := by
  obtain ⟨version, value⟩ := amount
  obtain rfl : version = 1 := hv
  simp [encodeTo, ofProto]

@[simp] theorem Balance.ofProto_encodeTo {balance : Balance} (hv : balance.IsV1)
    (proto : Protos.Balance) : (balance.encodeTo proto).bind Balance.ofProto = some balance := by
  obtain ⟨version, value⟩ := balance
  obtain rfl : version = 1 := hv
  simp [encodeTo, ofProto]

theorem Account.initWith_encodeTo {account : Account} (hv : account.IsV1)
    (proto : Protos.Account) : (account.encodeTo proto).bind Account.initWith = some account := by
  obtain ⟨version, type, nominalCode, name, desc, iso4217CurrencyCode, balance⟩ := account
  obtain ⟨hver, hbal⟩ := hv
  obtain rfl : version = 1 := hver
  obtain ⟨balanceProto, he, hb⟩ := bind_eq_some_iff.mp (Balance.ofProto_encodeTo hbal proto.balance)
  simp [encodeTo, initWith, he, hb]

theorem AccountMetadata.initWith_encodeTo {accountMetadata : AccountMetadata}
    (hv : accountMetadata.IsV1) (proto : Protos.AccountMetadata) :
    (accountMetadata.encodeTo proto).bind AccountMetadata.initWith = some accountMetadata := by
  obtain ⟨version, accountType, low, hi⟩ := accountMetadata
  obtain rfl : version = 1 := hv
  simp [encodeTo, initWith]

theorem JournalLine.initWith_encodeTo {journalLine : JournalLine} (hv : journalLine.IsV1)
    (proto : Protos.JournalLine) :
    (journalLine.encodeTo proto).bind JournalLine.initWith = some journalLine := by
  obtain ⟨version, nominalCode, type, amount, iso4217CurrencyCode, refData⟩ := journalLine
  obtain ⟨hver, hamt⟩ := hv
  obtain rfl : version = 1 := hver
  obtain ⟨amountProto, he, ha⟩ := bind_eq_some_iff.mp (Amount.ofProto_encodeTo hamt proto.amount)
  simp [encodeTo, initWith, he, ha]

theorem mapM_decode_encode {α β : Type} {encode : α → Option β} {decode : β → Option α}
    {xs : List α} (hr : ∀ x ∈ xs, (encode x).bind decode = some x) :
    (xs.mapM encode).bind (·.mapM decode) = some xs := by
  induction xs with
  | nil => rfl
  | cons x xs ih =>
    obtain ⟨y, hy, hx⟩ := bind_eq_some_iff.mp (hr x (mem_cons_self ..))
    obtain ⟨ys, hys, hxs⟩ := bind_eq_some_iff.mp (ih fun z hz => hr z (mem_cons_of_mem _ hz))
    simp [hy, hx, hys, hxs]

/-- What a journal entry becomes on the wire: everything but its id survives. -/
theorem JournalEntry.initWith_encodeTo {journalEntry : JournalEntry} (hv : journalEntry.IsV1) :
    (journalEntry.encodeTo {}).bind (JournalEntry.initWith {}) =
      some { journalEntry with id := "" } := by
  obtain ⟨hver, hl⟩ := hv
  obtain ⟨journalLines, he, hd⟩ := bind_eq_some_iff.mp (mapM_decode_encode fun journalLine hline =>
      JournalLine.initWith_encodeTo (hl journalLine hline) {})
  simp [encodeTo, initWith, hver, he, hd]

/-- A payload as it arrives: a journal entry has lost its id. -/
def EventPayload.carried : EventPayload → EventPayload
  | journalEntryRecorded journalEntry => journalEntryRecorded { journalEntry with id := "" }
  | payload => payload

theorem EventPayload.carried_type (payload : EventPayload) :
    payload.carried.type = payload.type := by
  cases payload <;> rfl

section

variable {Bytes : Type} (wire : Wire Bytes)

theorem decodeEvent_encodeEvent {event : Event} (hv : event.IsV1) :
    (encodeEvent wire event).bind (decodeEvent wire) =
      some (some { metaData := event.metaData
                   payload := event.payload.carried
                   type_eq := event.type_eq.trans event.payload.carried_type.symm }) := by
  obtain ⟨metaData, version, payload, htype⟩ := event
  obtain ⟨hver, hpay⟩ := hv
  obtain rfl : version = 1 := hver
  obtain ⟨id, type, commandId, created, creatorId, groupId, groupVersion, context⟩ := metaData
  obtain rfl : type = payload.type := htype
  cases payload with
  | accountCreated account =>
    obtain ⟨proto, he, hd⟩ := bind_eq_some_iff.mp (Account.initWith_encodeTo hpay {})
    simp [encodeEvent, Event.encodeToString, he, decodeEvent, decodeEventFromString,
      EventMetaData.ofEntry, EventPayload.type, decodeWith, decodeAccountCreated,
      wire.createdEvent.parse_serialize, hd, Event.ofPayload, Event.setPartialMetaData,
      EventPayload.carried]
  | accountMetadataConfigured accountMetadata =>
    obtain ⟨proto, he, hd⟩ := bind_eq_some_iff.mp (AccountMetadata.initWith_encodeTo hpay {})
    simp [encodeEvent, Event.encodeToString, he, decodeEvent, decodeEventFromString,
      EventMetaData.ofEntry, EventPayload.type, decodeWith, decodeAccountMetadataConfigured,
      wire.configuredEvent.parse_serialize, hd, Event.ofPayload, Event.setPartialMetaData,
      EventPayload.carried]
  | journalEntryRecorded journalEntry =>
    obtain ⟨proto, he, hd⟩ := bind_eq_some_iff.mp (JournalEntry.initWith_encodeTo hpay)
    simp [encodeEvent, Event.encodeToString, he, decodeEvent, decodeEventFromString,
      EventMetaData.ofEntry, EventPayload.type, decodeWith, decodeJournalEntryRecorded,
      wire.recordedEvent.parse_serialize, hd, Event.ofPayload, Event.setPartialMetaData,
      EventPayload.carried]

end

theorem JournalLine.isSame_self {journalLine : JournalLine} (hv : journalLine.IsV1) :
    journalLine.isSame journalLine = true := by
  obtain ⟨hver, ha⟩ := hv
  have ha : journalLine.amount.version = 1 := ha
  simp [isSame, Amount.isSame, hver, ha]

theorem JournalEntry.sameLines_self {journalLines : List JournalLine}
    (hv : ∀ journalLine ∈ journalLines, journalLine.IsV1) :
    sameLines journalLines journalLines = true := by
  induction journalLines with
  | nil => rfl
  | cons journalLine journalLines ih =>
    have hh := JournalLine.isSame_self (hv journalLine (mem_cons_self ..))
    have ht := ih fun line hl => hv line (mem_cons_of_mem _ hl)
    simp [sameLines, hh, ht]

/-- The id of a recorded journal entry is empty. Other events have none. -/
def EventPayload.idIsEmpty : EventPayload → Prop
  | journalEntryRecorded journalEntry => journalEntry.id = ""
  | _ => True

theorem EventPayload.isSame_carried {payload : EventPayload} (hv : payload.IsV1) :
    payload.isSame payload.carried = true ↔ payload.idIsEmpty := by
  cases payload with
  | accountCreated account =>
    obtain ⟨hver, hb⟩ := hv
    have hb : account.balance.version = 1 := hb
    simp [isSame, carried, idIsEmpty, Account.isSame, Balance.isSame, hver, hb]
  | accountMetadataConfigured accountMetadata =>
    have hver : accountMetadata.version = 1 := hv
    simp [isSame, carried, idIsEmpty, AccountMetadata.isSame, hver]
  | journalEntryRecorded journalEntry =>
    obtain ⟨hver, hl⟩ := hv
    simp [isSame, carried, idIsEmpty, JournalEntry.isSame, hver, JournalEntry.sameLines_self hl]

/-- Encoding and decoding `event` gives an event with the same metadata (type,
id and command id among it) whose payload `isSame` as the original's. -/
def RoundTrips {Bytes : Type} (wire : Wire Bytes) (event : Event) : Prop :=
  ∃ entry decoded, encodeEvent wire event = some entry ∧
    decodeEvent wire entry = some (some decoded) ∧ decoded.metaData = event.metaData ∧
    event.payload.isSame decoded.payload = true

/-- Of an event the id of its journal entry is lost, and nothing else. -/
theorem roundTrips_iff_idIsEmpty {Bytes : Type} (wire : Wire Bytes) (event : Event)
    (hv : event.IsV1) : RoundTrips wire event ↔ event.payload.idIsEmpty := by
  rw [← EventPayload.isSame_carried hv.2]
  obtain ⟨entry, he, hd⟩ := bind_eq_some_iff.mp (decodeEvent_encodeEvent wire hv)
  constructor
  · rintro ⟨entry', decoded, he', hd', -, hs⟩
    obtain rfl : entry = entry' := some.inj (he.symm.trans he')
    obtain rfl := some.inj (some.inj (hd.symm.trans hd'))
    exact hs
  · intro hs
    exact ⟨entry, _, he, hd, rfl, hs⟩

/-- A balanced entry of two lines, recorded under `id`. -/
def twoLineEntry (id : String) : JournalEntry where
  version := 1
  id := id
  validTime := 20
  recordTime := 30
  journalLines :=
    [⟨1, 1001, .debit, ⟨1, 50⟩, 840, "receipt"⟩, ⟨1, 2001, .credit, ⟨1, 50⟩, 840, "receipt"⟩]
  purpose := "payment"

def twoLineEvent (id : String) : Event := .ofPayload 40 (.journalEntryRecorded (twoLineEntry id))

theorem roundTrips_twoLineEvent_without_id :
    (twoLineEvent "").IsV1 ∧ RoundTrips Wire.verbatim (twoLineEvent "") :=
  ⟨by decide, (roundTrips_iff_idIsEmpty Wire.verbatim (twoLineEvent "") (by decide)).mpr rfl⟩

theorem not_roundTrips_twoLineEvent :
    (twoLineEvent "entry-1").IsV1 ∧ ¬ RoundTrips Wire.verbatim (twoLineEvent "entry-1") := by
  refine ⟨by decide, ?_⟩
  rintro ⟨entry, decoded, he, hd, -, hs⟩
  obtain rfl := some.inj he
  obtain rfl := some.inj (some.inj hd)
  exact absurd hs (by decide)

end MySuperLedger.Ledger
