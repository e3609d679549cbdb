import MySuperLedger.Ledger.TrialBalance

/-! # Client requests

The way of a request from the gRPC receiver to the state machine: `verifyCommand`,
the command's constructor with its `tryInit`, the reply 400 of the call data, and
`processCommandAndApply`. The three messages are read as proto3 reads them: an
absent sub-message reads as the default message, and an enum is open.

`none` is again a dead process. `verifyCommand` refuses the number 0 as account
type and no other, so an account of a number unknown to `typeOf` is stored with
type `Unknown`, and the first entry accepted on it ends every replica.
-/

namespace MySuperLedger.Ledger

open Collections List Option

inductive Request where
  | configureAccountMetadata (metadata : Option Protos.AccountMetadata)
  | createAccount (account : Option Protos.Account)
  | recordJournalEntry (journalEntry : Option Protos.JournalEntry)
  deriving DecidableEq, Repr

namespace Request

def kVerifiedSuccess : String := "Success"

def verifyCommand : Request → String
  | .configureAccountMetadata metadata =>
    if (metadata.getD {}).lowInclusive ≥ (metadata.getD {}).highInclusive then
      "low inclusive is larger than high inclusive"
    else kVerifiedSuccess
  | .createAccount account =>
    if (account.getD {}).type = .unknownAccountType then "account type should not be unknown"
    else kVerifiedSuccess
  | .recordJournalEntry journalEntry =>
    if journalEntry.isNone then "Journal entry is required" else kVerifiedSuccess

/-- `tryInitAccountMetadata`, `tryInitAccount` and `tryInitJournalEntry`. -/
def tryInit (request : Request) : Option Command :=
  match request with
  | .configureAccountMetadata metadata =>
    if kVerifiedSuccess = verifyCommand request then
      (AccountMetadata.initWith (metadata.getD {})).map fun accountMetadata =>
        .configureAccountMetadata (some accountMetadata)
    else some (.configureAccountMetadata none)
  | .createAccount account =>
    if kVerifiedSuccess = verifyCommand request then
      (Account.initWith (account.getD {})).map fun account => .createAccount (some account)
    else some (.createAccount none)
  | .recordJournalEntry journalEntry =>
    if kVerifiedSuccess = verifyCommand request then
      (JournalEntry.initWith {} (journalEntry.getD {})).map fun journalEntry =>
        .recordJournalEntry (some journalEntry)
    else some (.recordJournalEntry none)

/-- `CallData::proceed` on an arrived request: the command is built, and is
either enqueued or answered with 400 and the text of `verifyCommand`. -/
def proceed (request : Request) : Option (Except ProcessHint Command) :=
  request.tryInit.map fun command =>
    if request.verifyCommand ≠ kVerifiedSuccess then
      .error ⟨HttpCode.badRequest, request.verifyCommand⟩
    else .ok command

end Request

/-- A request with the clock reading and the RocksDB snapshot of its turn. -/
structure Arrival where
  now : UInt64
  snapshot : DoneMap
  request : Request

/-- One request from its arrival to its applied events. -/
def serve (s : AppState) (arrival : Arrival) : Option (ProcessHint × AppState) :=
  arrival.request.proceed.bind fun
    | .error hint => some (hint, s)
    | .ok command =>
      (processCommandAndApply arrival.now arrival.snapshot s command).map
        fun (hint, _, s) => (hint, s)

def serveAll (s : AppState) : List Arrival → Option (List ProcessHint × AppState)
  | [] => some ([], s)
  | arrival :: arrivals =>
    (serve s arrival).bind fun (hint, s) =>
      (serveAll s arrivals).map fun (hints, s) => (hint :: hints, s)

namespace Protos

def Account.IsV1 (account : Account) : Prop := account.version = 1 ∧ account.balance.version = 1

def AccountMetadata.IsV1 (metadata : AccountMetadata) : Prop := metadata.version = 1

def JournalLine.IsV1 (journalLine : JournalLine) : Prop :=
  journalLine.version = 1 ∧ journalLine.amount.version = 1

def JournalEntry.IsV1 (journalEntry : JournalEntry) : Prop :=
  journalEntry.version = 1 ∧ ∀ journalLine ∈ journalEntry.journalLines, journalLine.IsV1

end Protos

def Request.IsV1 : Request → Prop
  | .configureAccountMetadata metadata => ∀ sent ∈ metadata, sent.IsV1
  | .createAccount account => ∀ sent ∈ account, sent.IsV1
  | .recordJournalEntry journalEntry => ∀ sent ∈ journalEntry, sent.IsV1

theorem JournalLine.initWith_of_isV1 {journalLine : Protos.JournalLine} (hv : journalLine.IsV1) :
    ∃ built, JournalLine.initWith journalLine = some built ∧ built.IsV1 := by
  obtain ⟨hver, ha⟩ := hv
  simp [initWith, Amount.ofProto, hver, ha, IsV1, Amount.IsV1]

theorem JournalEntry.initWith_of_isV1 {journalEntry : Protos.JournalEntry}
    (hv : journalEntry.IsV1) :
    ∃ built, JournalEntry.initWith {} journalEntry = some built ∧ built.IsV1 := by
  obtain ⟨hver, hl⟩ := hv
  have hm : ∃ built, journalEntry.journalLines.mapM JournalLine.initWith = some built ∧
      ∀ line ∈ built, line.IsV1 := by
    generalize journalEntry.journalLines = lines at hl
    induction lines with
    | nil => exact ⟨[], rfl, by simp⟩
    | cons line lines ih =>
      obtain ⟨hline, hr⟩ := forall_mem_cons.mp hl
      obtain ⟨built, hblt, hb⟩ := JournalLine.initWith_of_isV1 hline
      obtain ⟨rest, hm, hres⟩ := ih hr
      exact ⟨built :: rest, by simp [mapM_cons, hblt, hm],
        forall_mem_cons.mpr ⟨hb, hres⟩⟩
  obtain ⟨built, hblt, hb⟩ := hm
  simp only [initWith, hver, hblt]
  exact ⟨_, rfl, rfl, by simpa using hb⟩

/-- A request of version 1 is refused, or becomes a command that the state
machine can process. -/
theorem Request.proceed_of_isV1 {request : Request} (hv : request.IsV1) :
    (∃ hint, request.proceed = some (.error hint)) ∨
      ∃ command, request.proceed = some (.ok command) ∧ command.CarriesEntry := by
  cases request with
  | configureAccountMetadata metadata =>
    by_cases hrng : (metadata.getD {}).highInclusive ≤ (metadata.getD {}).lowInclusive
    · left
      simp [proceed, tryInit, verifyCommand, kVerifiedSuccess, hrng]
    · right
      cases metadata with
      | none => exact absurd (UInt64.le_refl _) hrng
      | some sent =>
        have hver : sent.version = 1 := hv sent rfl
        have hrng : ¬ sent.highInclusive ≤ sent.lowInclusive := hrng
        simp [proceed, tryInit, verifyCommand, kVerifiedSuccess, hrng,
          AccountMetadata.initWith, hver, Command.CarriesEntry]
  | createAccount account =>
    by_cases htype : (account.getD {}).type = .unknownAccountType
    · left
      simp [proceed, tryInit, verifyCommand, kVerifiedSuccess, htype]
    · right
      cases account with
      | none => exact absurd rfl htype
      | some sent =>
        obtain ⟨hver, hbal⟩ := hv sent rfl
        have htype : sent.type ≠ .unknownAccountType := htype
        simp [proceed, tryInit, verifyCommand, kVerifiedSuccess, htype, Account.initWith,
          hver, Balance.ofProto, hbal, Command.CarriesEntry]
  | recordJournalEntry journalEntry =>
    cases journalEntry with
    | none => exact .inl ⟨_, rfl⟩
    | some sent =>
      obtain ⟨built, hblt, hbuil⟩ := JournalEntry.initWith_of_isV1 (hv sent rfl)
      right
      simpa [proceed, tryInit, verifyCommand, kVerifiedSuccess, hblt, Command.CarriesEntry]
        using hbuil

/-- Every entry the run accepts touches accounts of known type, in the state it
arrives in. -/
def RunTouchesKnown (s : AppState) : List Arrival → Prop
  | [] => True
  | arrival :: arrivals =>
    (∀ journalEntry,
      arrival.request.proceed = some (.ok (.recordJournalEntry (some journalEntry))) →
      Accepts arrival.snapshot s journalEntry → TouchesKnown s.coA journalEntry) ∧
    ∀ hint after, serve s arrival = some (hint, after) → RunTouchesKnown after arrivals

/-- A command ends the process exactly if it records an entry on an account of
unknown type. -/
theorem processCommandAndApply_isSome_iff {now : UInt64} {snapshot : DoneMap} {s : AppState}
    {command : Command} (hent : command.CarriesEntry) :
    (processCommandAndApply now snapshot s command).isSome ↔
      ∀ journalEntry, command = .recordJournalEntry (some journalEntry) →
        Accepts snapshot s journalEntry → TouchesKnown s.coA journalEntry := by
  obtain ⟨⟨hint, events⟩, hproc⟩ := processCommand_isSome now snapshot s hent
  rcases processCommand_inv hproc with rfl | ⟨payload, rfl, he⟩
  · -- nothing is emitted, so no entry was accepted
    have hqt : ∀ journalEntry, command = .recordJournalEntry (some journalEntry) →
        ¬ Accepts snapshot s journalEntry := by
      rintro journalEntry rfl ha
      obtain ⟨_, hsome, hv⟩ := hent
      obtain rfl := some.inj hsome
      simp [processCommand_of_accepts now hv ha] at hproc
    simpa [processCommandAndApply, hproc, applyEvents] using
      fun journalEntry hcmd ha => absurd ha (hqt journalEntry hcmd)
  · have hstep : (processCommandAndApply now snapshot s command).isSome ↔
        (applyEvent s (.ofPayload now payload)).isSome := by
      simp [processCommandAndApply, hproc, applyEvents]
    rw [hstep, he.applyEvent_isSome_iff now]
    refine forall_congr' fun journalEntry => ⟨?_, ?_⟩
    · rintro htouc rfl ha
      obtain ⟨_, hsome, hv⟩ := hent
      obtain rfl := some.inj hsome
      rw [processCommand_of_accepts now hv ha] at hproc
      obtain ⟨-, hevs⟩ := Prod.mk.inj (some.inj hproc)
      exact htouc (congrArg Event.payload (List.cons.inj hevs).1).symm
    · rintro htouc rfl
      obtain ⟨rfl, -⟩ := he
      refine htouc rfl (by_contra fun href => ?_)
      obtain ⟨_, hsome, hv⟩ := hent
      obtain rfl := some.inj hsome
      obtain ⟨hint, hp, -⟩ := processCommand_of_not_accepts now hv href
      simp [hp] at hproc

theorem serve_isSome_iff {s : AppState} {arrival : Arrival} (hv : arrival.request.IsV1) :
    (serve s arrival).isSome ↔ ∀ journalEntry,
        arrival.request.proceed = some (.ok (.recordJournalEntry (some journalEntry))) →
        Accepts arrival.snapshot s journalEntry → TouchesKnown s.coA journalEntry := by
  rcases Request.proceed_of_isV1 hv with ⟨hi, hp⟩ | ⟨command, hp, he⟩
  · simp [serve, hp]
  · simpa [serve, hp] using processCommandAndApply_isSome_iff he

/-- A run of requests leaves the server up exactly if it accepts no entry on an
account of unknown type. -/
theorem serveAll_isSome_iff (s : AppState) (arrivals : List Arrival)
    (hv : ∀ arrival ∈ arrivals, arrival.request.IsV1) :
    (serveAll s arrivals).isSome ↔ RunTouchesKnown s arrivals := by
  induction arrivals generalizing s with
  | nil => simp [serveAll, RunTouchesKnown]
  | cons arrival arrivals ih =>
    obtain ⟨hf, hr⟩ := forall_mem_cons.mp hv
    rw [RunTouchesKnown, ← serve_isSome_iff hf]
    cases hs : serve s arrival with
    | none => simp [serveAll, hs]
    | some result =>
      obtain ⟨hi, after⟩ := result
      have hl := ih after hr
      simpa [serveAll, hs] using hl

/-- Two accounts, the first of the given type, and a sale on them. -/
def saleRequests (type : Protos.AccountType) : List Arrival :=
  [⟨0, ∅, .createAccount (some ⟨1, type, ⟨1, 0⟩, 1001, "cash", "", 840⟩)⟩,
   ⟨0, ∅, .createAccount (some ⟨1, .income, ⟨1, 0⟩, 2001, "sales", "", 840⟩)⟩,
   ⟨0, ∅, .recordJournalEntry (some ⟨1, "entry-1", 0, 0,
      [⟨1, 1001, .debit, ⟨1, 50⟩, 840, ""⟩, ⟨1, 2001, .credit, ⟨1, 50⟩, 840, ""⟩], ""⟩)⟩]

theorem isV1_saleRequests (type : Protos.AccountType) :
    ∀ arrival ∈ saleRequests type, arrival.request.IsV1 := by
  simp [saleRequests, Request.IsV1, Protos.Account.IsV1, Protos.JournalEntry.IsV1,
    Protos.JournalLine.IsV1]

theorem runTouchesKnown_assetSale : (∀ arrival ∈ saleRequests .asset, arrival.request.IsV1) ∧
      RunTouchesKnown {} (saleRequests .asset) :=
  ⟨isV1_saleRequests .asset,
    (serveAll_isSome_iff {} (saleRequests .asset) (isV1_saleRequests .asset)).mp (by decide)⟩

/-- The number 7 is not refused; the account it creates ends the server at the
first sale. -/
theorem serveAll_unrecognizedSale :
    (∀ arrival ∈ saleRequests (.unrecognized 7), arrival.request.IsV1) ∧
      serveAll {} (saleRequests (.unrecognized 7)) = none :=
  ⟨isV1_saleRequests (.unrecognized 7), by decide⟩

end MySuperLedger.Ledger
