import MySuperLedger.Collections.KeyedMap
import MySuperLedger.Ledger.Codec

/-! # The ledger state machine

`v2::AppStateMachine`: what a command emits (`process`), what an event changes
(`apply`), and `processCommandAndApply`. The three maps are the state that the
memory-backed and the RocksDB-backed machine own both. A command additionally
reads the done ids of RocksDB through the snapshot held in `mReadOptions`.

`none` is a dead process: a failed `assert`, the `std::out_of_range` of
`mCoA.at`, or `exit(1)`.
-/

namespace MySuperLedger.Ledger

open Collections Option

abbrev DoneMap := Finmap fun _ : String => UInt64

abbrev ChartOfAccounts := KeyedMap Account.nominalCode

abbrev AccountMetadataMap := KeyedMap AccountMetadata.accountType

structure AppState where
  doneMap : DoneMap := ∅
  coA : ChartOfAccounts := .empty
  accountMetadata : AccountMetadataMap := .empty
  deriving DecidableEq

inductive Command where
  | configureAccountMetadata (accountMetadataOpt : Option AccountMetadata)
  | createAccount (accountOpt : Option Account)
  | recordJournalEntry (journalEntryOpt : Option JournalEntry)
  deriving DecidableEq, Repr

structure ProcessHint where
  code : UInt64
  message : String
  deriving DecidableEq, Repr

namespace HttpCode

def ok : UInt64 := 200

def badRequest : UInt64 := 400

end HttpCode

namespace BusinessCode

def accountAlreadyExists : UInt64 := 1000

def accountMetadataRangeOverlap : UInt64 := 1001

def accountMetadataRangeNotCoverExistingAccount : UInt64 := 1002

def journalEntryAlreadyProcessed : UInt64 := 1003

def accountInJournalEntryNotExist : UInt64 := 1004

def noDebitInJournalEntry : UInt64 := 1005

def noCreditInJournalEntry : UInt64 := 1006

def creditNotEqualToDebit : UInt64 := 1007

def invalidTransactionType : UInt64 := 1008

def journalLineIsoCurrencyCodeDoesNotMatchAccount : UInt64 := 1009

end BusinessCode

def successHint : ProcessHint := ⟨HttpCode.ok, "Success"⟩

/-- Rule 1: no other type's range meets the new one. -/
def rangeIsFree (metadatas : AccountMetadataMap) (accountMetadata : AccountMetadata) : Prop :=
  ∀ type ∈ metadatas.keys, ∀ metadata ∈ metadatas.find? type,
    accountMetadata.accountType = type ∨ accountMetadata.lowInclusive > metadata.highInclusive ∨
      accountMetadata.highInclusive < metadata.lowInclusive

/-- Rule 2: the accounts of the type lie in the new range. -/
def rangeCovers (coA : ChartOfAccounts) (accountMetadata : AccountMetadata) : Prop :=
  ∀ nominalCode ∈ coA.keys, ∀ account ∈ coA.find? nominalCode,
    accountMetadata.accountType ≠ account.type ∨
      ¬ (nominalCode < accountMetadata.lowInclusive ∨ nominalCode > accountMetadata.highInclusive)

instance (metadatas : AccountMetadataMap) (accountMetadata : AccountMetadata) :
    Decidable (rangeIsFree metadatas accountMetadata) :=
  Finset.decidableDforallFinset

instance (coA : ChartOfAccounts) (accountMetadata : AccountMetadata) :
    Decidable (rangeCovers coA accountMetadata) :=
  Finset.decidableDforallFinset

def processConfigureAccountMetadata (now : UInt64) (s : AppState)
    (accountMetadataOpt : Option AccountMetadata) : ProcessHint × List Event :=
  match accountMetadataOpt with
  | none => (successHint, [])
  | some accountMetadata =>
    if ¬ rangeIsFree s.accountMetadata accountMetadata then
      (⟨BusinessCode.accountMetadataRangeOverlap, "range overlaps with other account metadata"⟩, [])
    else if ¬ rangeCovers s.coA accountMetadata then
      (⟨BusinessCode.accountMetadataRangeNotCoverExistingAccount,
        "new range cannot cover existing account's nominal code"⟩, [])
    else (successHint, [.ofPayload now (.accountMetadataConfigured accountMetadata)])

def processCreateAccount (now : UInt64) (s : AppState) (accountOpt : Option Account) :
    ProcessHint × List Event :=
  match accountOpt with
  | none => (⟨HttpCode.badRequest, "Invalid command as no account passed"⟩, [])
  | some account =>
    match s.coA.find? account.nominalCode with
    | some _ => (⟨BusinessCode.accountAlreadyExists, "Account already exists"⟩, [])
    | none => (successHint, [.ofPayload now (.accountCreated account)])

/-- The accumulators of the line loop: 32-bit counters and wrapping amounts. -/
structure LineTotals where
  debitCnt : UInt32 := 0
  creditCnt : UInt32 := 0
  debitSum : Amount := {}
  creditSum : Amount := {}
  deriving DecidableEq, Repr

/-- One debit or credit line is counted and summed. -/
def LineTotals.count (totals : LineTotals) (journalLine : JournalLine) : Option LineTotals :=
  match journalLine.type with
  | .debit =>
    (totals.debitSum.add journalLine.amount).map fun debitSum =>
      { totals with debitCnt := totals.debitCnt + 1, debitSum := debitSum }
  | .credit =>
    (totals.creditSum.add journalLine.amount).map fun creditSum =>
      { totals with creditCnt := totals.creditCnt + 1, creditSum := creditSum }
  | .unknown => some totals

/-- The line loop of `process(RecordJournalEntryCommand)`: rules 2 and 3, the
transaction type, and the totals. An error ends the command. -/
def checkJournalLines (coA : ChartOfAccounts) (totals : LineTotals) :
    List JournalLine → Option (Except ProcessHint LineTotals)
  | [] => some (.ok totals)
  | journalLine :: journalLines =>
    match coA.find? journalLine.nominalCode with
    | none =>
      some (.error ⟨BusinessCode.accountInJournalEntryNotExist,
        "account " ++ toString journalLine.nominalCode ++ " does not exist"⟩)
    | some account =>
      if account.iso4217CurrencyCode ≠ journalLine.iso4217CurrencyCode then
        some (.error ⟨BusinessCode.journalLineIsoCurrencyCodeDoesNotMatchAccount,
          "the iso-4217 currency code: " ++ toString journalLine.iso4217CurrencyCode ++
            " in journal line doesn't match the code in account: " ++
            toString account.iso4217CurrencyCode⟩)
      else if journalLine.type = .unknown then
        some (.error ⟨BusinessCode.invalidTransactionType,
          "transaction type should be either debit or credit"⟩)
      else
        (totals.count journalLine).bind fun totals => checkJournalLines coA totals journalLines

/-- Rules 4 and 5, after the loop. -/
def checkTotals (totals : LineTotals) : Except ProcessHint Unit :=
  if totals.debitCnt = 0 then
    .error ⟨BusinessCode.noDebitInJournalEntry, "no debit in journal entry"⟩
  else if totals.creditCnt = 0 then
    .error ⟨BusinessCode.noCreditInJournalEntry, "no credit in journal entry"⟩
  else if totals.debitSum ≠ totals.creditSum then
    .error ⟨BusinessCode.creditNotEqualToDebit, "credit amount not equal to debit amount"⟩
  else .ok ()

/-- Rule 1: the id is looked up in `mDoneMap`, then in the snapshot of RocksDB. -/
def isDone (snapshot : DoneMap) (s : AppState) (entryId : String) : Bool :=
  (s.doneMap.lookup entryId).isSome || (snapshot.lookup entryId).isSome

def processRecordJournalEntry (now : UInt64) (snapshot : DoneMap) (s : AppState)
    (journalEntryOpt : Option JournalEntry) : Option (ProcessHint × List Event) :=
  journalEntryOpt.bind fun journalEntry =>
    if isDone snapshot s journalEntry.id then
      some (⟨BusinessCode.journalEntryAlreadyProcessed,
        "journal entry has already been processed"⟩, [])
    else
      (checkJournalLines s.coA {} journalEntry.journalLines).map fun
        | .error hint => (hint, [])
        | .ok totals =>
          match checkTotals totals with
          | .error hint => (hint, [])
          | .ok () => (successHint, [.ofPayload now (.journalEntryRecorded journalEntry)])

/-- `processCommand`, which dispatches on the command type. `now` is the clock
reading that an emitted event is stamped with. -/
def processCommand (now : UInt64) (snapshot : DoneMap) (s : AppState) :
    Command → Option (ProcessHint × List Event)
  | .configureAccountMetadata accountMetadataOpt =>
    some (processConfigureAccountMetadata now s accountMetadataOpt)
  | .createAccount accountOpt => some (processCreateAccount now s accountOpt)
  | .recordJournalEntry journalEntryOpt =>
    processRecordJournalEntry now snapshot s journalEntryOpt

/-- The virtual calls an applier makes. The memory-backed machine ignores them;
the RocksDB-backed one turns each into a `Put`. -/
inductive Callback where
  | onAccountInserted (account : Account)
  | onAccountMetadataUpdated (accountMetadata : AccountMetadata)
  | onBookkeepingProcessed (dedupId : String) (validTime : UInt64)
  | onAccountUpdated (account : Account)
  deriving DecidableEq, Repr

/-- One round of the line loop: the account the line leaves behind. -/
def applyJournalLine (coA : ChartOfAccounts) (journalLine : JournalLine) : Option Account :=
  (coA.find? journalLine.nominalCode).bind fun account =>
    match journalLine.type with
    | .unknown => none
    | .debit => account.applyDebit journalLine.amount
    | .credit => account.applyCredit journalLine.amount

def applyJournalLines (coA : ChartOfAccounts) :
    List JournalLine → Option (ChartOfAccounts × List Callback)
  | [] => some (coA, [])
  | journalLine :: journalLines =>
    (applyJournalLine coA journalLine).bind fun account =>
      (applyJournalLines (coA.put account) journalLines).map fun (coA, callbacks) =>
        (coA, .onAccountUpdated account :: callbacks)

theorem applyJournalLines_cons {coA final : ChartOfAccounts} {line : JournalLine}
    {lines : List JournalLine} {callbacks : List Callback}
    (h : applyJournalLines coA (line :: lines) = some (final, callbacks)) :
    ∃ moved later, applyJournalLine coA line = some moved ∧
      applyJournalLines (coA.put moved) lines = some (final, later) := by
  obtain ⟨moved, hl, h⟩ := bind_eq_some_iff.mp h
  obtain ⟨⟨rest, later⟩, hr, hp⟩ := map_eq_some_iff.mp h
  obtain ⟨rfl, -⟩ := Prod.mk.inj hp
  exact ⟨moved, later, hl, hr⟩

def applyAccountMetadataConfigured (s : AppState) (accountMetadata : AccountMetadata) :
    AppState × List Callback :=
  ({ s with accountMetadata := s.accountMetadata.put accountMetadata },
    [.onAccountMetadataUpdated accountMetadata])

def applyAccountCreated (s : AppState) (account : Account) : Option (AppState × List Callback) :=
  match s.coA.find? account.nominalCode with
  | some _ => none
  | none => some ({ s with coA := s.coA.put account }, [.onAccountInserted account])

def applyJournalEntryRecorded (s : AppState) (journalEntry : JournalEntry) :
    Option (AppState × List Callback) :=
  if (s.doneMap.lookup journalEntry.id).isSome then none
  else
    (applyJournalLines s.coA journalEntry.journalLines).map fun (coA, callbacks) =>
      ({ s with doneMap := s.doneMap.insert journalEntry.id journalEntry.validTime, coA := coA },
        .onBookkeepingProcessed journalEntry.id journalEntry.validTime :: callbacks)

/-- `applyEvent`, with the callbacks in the order they are made. -/
def applyEvent (s : AppState) (event : Event) : Option (AppState × List Callback) :=
  match event.payload with
  | .accountCreated account => applyAccountCreated s account
  | .accountMetadataConfigured accountMetadata =>
    some (applyAccountMetadataConfigured s accountMetadata)
  | .journalEntryRecorded journalEntry => applyJournalEntryRecorded s journalEntry

/-- What an applied event needed and what it left. -/
def Applied (s after : AppState) : EventPayload → Prop
  | .accountCreated account =>
    s.coA.find? account.nominalCode = none ∧ after = { s with coA := s.coA.put account }
  | .accountMetadataConfigured accountMetadata =>
    after = { s with accountMetadata := s.accountMetadata.put accountMetadata }
  | .journalEntryRecorded journalEntry =>
    journalEntry.id ∉ s.doneMap ∧ ∃ coA callbacks,
      applyJournalLines s.coA journalEntry.journalLines = some (coA, callbacks) ∧
      after = { s with
        doneMap := s.doneMap.insert journalEntry.id journalEntry.validTime, coA := coA }

theorem applyEvent_inv {s after : AppState} {event : Event} {callbacks : List Callback}
    (h : applyEvent s event = some (after, callbacks)) : Applied s after event.payload := by
  unfold applyEvent at h
  cases hp : event.payload with
  | accountCreated account =>
    simp only [hp, applyAccountCreated] at h
    cases hf : s.coA.find? account.nominalCode with
    | some found => simp [hf] at h
    | none =>
      simp only [hf, Option.some.injEq, Prod.mk.injEq] at h
      exact ⟨hf, h.1.symm⟩
  | accountMetadataConfigured accountMetadata =>
    simp only [hp, Option.some.injEq] at h
    exact (Prod.mk.inj h).1.symm
  | journalEntryRecorded journalEntry =>
    simp only [hp, applyJournalEntryRecorded, ite_none_left_eq_some,
      map_eq_some_iff, Finmap.lookup_isSome] at h
    obtain ⟨hd, ⟨coA, later⟩, hl, hpair⟩ := h
    exact ⟨hd, coA, later, hl, (Prod.mk.inj hpair).1.symm⟩

def applyEvents (s : AppState) : List Event → Option (AppState × List Callback)
  | [] => some (s, [])
  | event :: events =>
    (applyEvent s event).bind fun (s, callbacks) =>
      (applyEvents s events).map fun (s, later) => (s, callbacks ++ later)

/-- `processCommandAndApply` of the memory-backed machine. -/
def processCommandAndApply (now : UInt64) (snapshot : DoneMap) (s : AppState)
    (command : Command) : Option (ProcessHint × List Event × AppState) :=
  (processCommand now snapshot s command).bind fun (hint, events) =>
    (applyEvents s events).map fun (s, _) => (hint, events, s)

/-- A run of `processCommandAndApply`, with the events it emitted. Each command
comes with the clock reading of its turn. -/
def runCommands (snapshot : DoneMap) (s : AppState) :
    List (UInt64 × Command) → Option (List Event × AppState)
  | [] => some ([], s)
  | (now, command) :: commands =>
    (processCommandAndApply now snapshot s command).bind fun (_, events, s) =>
      (runCommands snapshot s commands).map fun (later, s) => (events ++ later, s)

end MySuperLedger.Ledger
