import MySuperLedger.Ledger.Balances

/-! # The trial balance

The balances of the debit side minus those of the credit side. Every line moves
it by its signed amount modulo `2 ^ 64`, an accepted entry's lines cancel modulo
`2 ^ 64`, and a new account adds its opening balance. Over a whole run the trial
balance is therefore the signed sum of the opening balances.
-/

namespace MySuperLedger.Ledger

open Collections Option KeyedMap

/-- What an account contributes: its balance, positive on the debit side. -/
def Account.signedValue (account : Account) : Int := account.type.sign * account.value

/-- Asset, capital, cost-of-goods-sold and expense balances minus income and
liability balances. -/
def trialBalance (coA : ChartOfAccounts) : Int := coA.sum Account.signedValue

def EventPayload.openingBalance : EventPayload → Int
  | .accountCreated account => account.signedValue
  | .accountMetadataConfigured _ => 0
  | .journalEntryRecorded _ => 0

/-- The signed sum of the opening balances of the accounts that `events` created. -/
def openingBalance (events : List Event) : Int :=
  (events.map fun event => event.payload.openingBalance).sum

@[simp] theorem openingBalance_nil : openingBalance [] = 0 := rfl

@[simp] theorem openingBalance_singleton (now : UInt64) (payload : EventPayload) :
    openingBalance [.ofPayload now payload] = payload.openingBalance := by
  simp [openingBalance, Event.ofPayload]

theorem openingBalance_append (events later : List Event) :
    openingBalance (events ++ later) = openingBalance events + openingBalance later := by
  simp [openingBalance]

variable {moved : Account} {journalLines : List JournalLine} {events : List Event}
  {commands : List (UInt64 × Command)}

theorem MovesBy.signedValue_modEq {delta : Int} {account : Account}
    (hm : MovesBy delta account moved) (hkn : account.type ≠ .unknown) :
    moved.signedValue ≡ account.signedValue + delta [ZMOD 2 ^ 64] := by
  have hs := AccountType.sign_mul_sign hkn
  have hv : moved.value ≡ account.value + account.type.sign * delta [ZMOD 2 ^ 64] := by
    rw [hm.value_eq]
    exact Int.mod_modEq _ _
  have hmul := hv.mul_left account.type.sign
  have he : account.type.sign * (account.value + account.type.sign * delta) =
      account.signedValue + delta := by
    rw [Account.signedValue]
    linear_combination delta * hs
  rw [Account.signedValue, hm.type_eq]
  rwa [he] at hmul

variable {coA : ChartOfAccounts} {after : AppState} {callbacks : List Callback} {snapshot : DoneMap}
  {s : AppState} {command : Command} {payload : EventPayload} {now : UInt64}

theorem trialBalance_put {journalLine : JournalLine}
    (h : applyJournalLine coA journalLine = some moved) :
    trialBalance (coA.put moved) ≡ trialBalance coA + journalLine.signedAmount [ZMOD 2 ^ 64] := by
  obtain ⟨account, hf, hkn, hm⟩ := applyJournalLine_spec h
  have hf' : coA.find? moved.nominalCode = some account := by
    rw [hm.nominalCode_eq, key_of_find? hf, hf]
  have hs := sum_put_of_find?_some Account.signedValue hf'
  have hmod := hm.signedValue_modEq hkn
  have hp : trialBalance (coA.put moved) =
      moved.signedValue + (trialBalance coA - account.signedValue) := by
    rw [trialBalance, trialBalance]
    linarith
  have heq : trialBalance coA + journalLine.signedAmount =
      account.signedValue + journalLine.signedAmount +
        (trialBalance coA - account.signedValue) := by ring
  rw [hp, heq]
  exact hmod.add_right _

theorem trialBalance_applyJournalLines {after : ChartOfAccounts}
    (h : applyJournalLines coA journalLines = some (after, callbacks)) :
    trialBalance after ≡ trialBalance coA + netDebit journalLines [ZMOD 2 ^ 64] := by
  induction journalLines generalizing coA callbacks with
  | nil =>
    obtain ⟨rfl, -⟩ := Prod.mk.inj (some.inj h)
    rw [netDebit_nil, add_zero]
  | cons line lines ih =>
    obtain ⟨moved, later, hl, hr⟩ := applyJournalLines_cons h
    calc trialBalance after
        ≡ trialBalance (coA.put moved) + netDebit lines [ZMOD 2 ^ 64] := ih hr
      _ ≡ trialBalance coA + line.signedAmount + netDebit lines [ZMOD 2 ^ 64] :=
          (trialBalance_put hl).add_right _
      _ = trialBalance coA + netDebit (line :: lines) := by rw [netDebit_cons, add_assoc]

theorem Emitted.trialBalance_modEq (he : Emitted snapshot s command payload)
    (h : applyEvent s (.ofPayload now payload) = some (after, callbacks)) :
    trialBalance after.coA ≡ trialBalance s.coA + payload.openingBalance [ZMOD 2 ^ 64] := by
  have ha : Applied s after payload := applyEvent_inv h
  cases payload with
  | accountCreated account =>
    obtain ⟨hf, rfl⟩ := ha
    rw [trialBalance, sum_put_of_find?_none _ hf, add_comm]
    rfl
  | accountMetadataConfigured accountMetadata =>
    obtain rfl : after = _ := ha
    rw [EventPayload.openingBalance, add_zero]
  | journalEntryRecorded journalEntry =>
    obtain ⟨-, coA, later, hl, rfl⟩ := ha
    exact (trialBalance_applyJournalLines hl).trans (he.2.netDebit_eq.add_left _)

theorem trialBalance_processCommandAndApply {hi : ProcessHint}
    (h : processCommandAndApply now snapshot s command = some (hi, events, after)) :
    trialBalance after.coA ≡ trialBalance s.coA + openingBalance events [ZMOD 2 ^ 64] := by
  rcases processCommandAndApply_inv h with ⟨rfl, rfl⟩ | ⟨payload, callbacks, rfl, he, ha⟩
  · rw [openingBalance_nil, add_zero]
  · rw [openingBalance_singleton]
    exact he.trialBalance_modEq ha

def AllKnown (coA : ChartOfAccounts) : Prop :=
  ∀ nominalCode account, coA.find? nominalCode = some account → account.type ≠ .unknown

def Command.CreatesKnown : Command → Prop
  | .createAccount (some account) => account.type ≠ .unknown
  | _ => True

/-- A record command carries an entry of version 1, as the request receiver
builds it. -/
def Command.CarriesEntry : Command → Prop
  | .recordJournalEntry journalEntryOpt => ∃ journalEntry ∈ journalEntryOpt, journalEntry.IsV1
  | _ => True

theorem processCommand_isSome (now : UInt64) (snapshot : DoneMap) (s : AppState)
    (he : command.CarriesEntry) :
    ∃ result, processCommand now snapshot s command = some result := by
  cases command with
  | configureAccountMetadata accountMetadataOpt | createAccount accountOpt => exact ⟨_, rfl⟩
  | recordJournalEntry journalEntryOpt =>
    obtain ⟨journalEntry, hs, hv⟩ := he
    obtain rfl : journalEntryOpt = some journalEntry := hs
    by_cases ha : Accepts snapshot s journalEntry
    · exact ⟨_, processCommand_of_accepts now hv ha⟩
    · obtain ⟨hi, hp, -⟩ := processCommand_of_not_accepts now hv ha
      exact ⟨_, hp⟩

/-- The lines of `journalEntry` touch accounts of known type only. -/
def TouchesKnown (coA : ChartOfAccounts) (journalEntry : JournalEntry) : Prop :=
  ∀ journalLine ∈ journalEntry.journalLines, ∀ account,
    coA.find? journalLine.nominalCode = some account → account.type ≠ .unknown

theorem AllKnown.touchesKnown (hk : AllKnown coA) (journalEntry : JournalEntry) :
    TouchesKnown coA journalEntry :=
  fun _ _ account hf => hk _ account hf

/-- Of the emitted events only an entry on an account of unknown type ends the
process. -/
theorem Emitted.applyEvent_isSome_iff (he : Emitted snapshot s command payload) (now : UInt64) :
    (applyEvent s (.ofPayload now payload)).isSome ↔
      ∀ journalEntry, payload = .journalEntryRecorded journalEntry →
        TouchesKnown s.coA journalEntry := by
  cases payload with
  | accountCreated account =>
    obtain ⟨-, hf⟩ := he
    simp [applyEvent, Event.ofPayload, applyAccountCreated, hf]
  | accountMetadataConfigured accountMetadata => simp [applyEvent, Event.ofPayload]
  | journalEntryRecorded journalEntry =>
    obtain ⟨-, hr⟩ := he
    have hd := Finmap.lookup_eq_none.mpr hr.notDone.1
    have hl : (applyJournalLines s.coA journalEntry.journalLines).isSome ↔
        TouchesKnown s.coA journalEntry := by
      rw [isSome_iff_exists, applyJournalLines_isSome_iff, hr.canApply_iff]
      rfl
    simpa [applyEvent, Event.ofPayload, applyJournalEntryRecorded, hd] using hl

theorem applyJournalLines_allKnown {after : ChartOfAccounts}
    (h : applyJournalLines coA journalLines = some (after, callbacks)) (hk : AllKnown coA) :
    AllKnown after := by
  induction journalLines generalizing coA callbacks with
  | nil =>
    obtain ⟨rfl, -⟩ := Prod.mk.inj (some.inj h)
    exact hk
  | cons line lines ih =>
    obtain ⟨moved, later, hl, hr⟩ := applyJournalLines_cons h
    obtain ⟨account, hfind, hkn, hm⟩ := applyJournalLine_spec hl
    refine ih hr fun nominalCode found hf => ?_
    rw [find?_put] at hf
    split at hf
    · obtain rfl := some.inj hf
      rwa [hm.type_eq]
    · exact hk nominalCode found hf

theorem Emitted.allKnown (he : Emitted snapshot s command payload) (hc : command.CreatesKnown)
    (h : applyEvent s (.ofPayload now payload) = some (after, callbacks)) (hk : AllKnown s.coA) :
    AllKnown after.coA := by
  have ha : Applied s after payload := applyEvent_inv h
  cases payload with
  | accountCreated account =>
    obtain ⟨rfl, -⟩ := he
    obtain ⟨-, rfl⟩ := ha
    intro nominalCode found hf
    rw [find?_put] at hf
    split at hf
    · obtain rfl := some.inj hf
      exact hc
    · exact hk nominalCode found hf
  | accountMetadataConfigured accountMetadata =>
    obtain rfl : after = _ := ha
    exact hk
  | journalEntryRecorded journalEntry =>
    obtain ⟨-, coA, later, hl, rfl⟩ := ha
    exact applyJournalLines_allKnown hl hk

theorem trialBalance_runCommands (h : runCommands snapshot s commands = some (events, after)) :
    trialBalance after.coA ≡ trialBalance s.coA + openingBalance events [ZMOD 2 ^ 64] := by
  induction commands generalizing s events with
  | nil =>
    obtain ⟨rfl, rfl⟩ := Prod.mk.inj (some.inj h)
    rw [openingBalance_nil, add_zero]
  | cons head commands ih =>
    obtain ⟨⟨hi, emitted, next⟩, hs, h⟩ := bind_eq_some_iff.mp h
    obtain ⟨⟨later, final⟩, hr, hp⟩ := map_eq_some_iff.mp h
    obtain ⟨rfl, rfl⟩ := Prod.mk.inj hp
    rw [openingBalance_append, ← add_assoc]
    exact (ih hr).trans ((trialBalance_processCommandAndApply hs).add_right _)

theorem runCommands_isSome (hk : AllKnown s.coA)
    (hkn : ∀ command ∈ commands, command.2.CreatesKnown)
    (hent : ∀ command ∈ commands, command.2.CarriesEntry) :
    ∃ result, runCommands snapshot s commands = some result := by
  induction commands generalizing s with
  | nil => exact ⟨_, rfl⟩
  | cons head commands ih =>
    obtain ⟨now, command⟩ := head
    obtain ⟨hc, hcs⟩ := List.forall_mem_cons.mp hkn
    obtain ⟨he, hes⟩ := List.forall_mem_cons.mp hent
    obtain ⟨⟨hi, events⟩, hp⟩ := processCommand_isSome now snapshot s he
    -- the step: nothing emitted, or one event that is applied
    have hs : ∃ after, processCommandAndApply now snapshot s command =
        some (hi, events, after) ∧ AllKnown after.coA := by
      rcases processCommand_inv hp with rfl | ⟨payload, rfl, hemit⟩
      · exact ⟨s, by simp [processCommandAndApply, hp, applyEvents], hk⟩
      · obtain ⟨⟨after, callbacks⟩, ha⟩ := isSome_iff_exists.mp <|
          (hemit.applyEvent_isSome_iff now).mpr fun entry _ => hk.touchesKnown entry
        exact ⟨after, by simp [processCommandAndApply, hp, applyEvents, ha],
          hemit.allKnown hc ha hk⟩
    obtain ⟨after, hs, haft⟩ := hs
    obtain ⟨⟨later, final⟩, hr⟩ := ih haft hcs hes
    exact ⟨(events ++ later, final), by simp [runCommands, hs, hr]⟩

/-- Modulo the width of a balance, the accounts always add up to what they were
opened with, a recorded entry moves nothing, and the run does not fail. -/
theorem trialBalance_eq_openingBalance (snapshot : DoneMap) (commands : List (UInt64 × Command))
    (hknown : ∀ command ∈ commands, command.2.CreatesKnown) :
    (∀ events s, runCommands snapshot {} commands = some (events, s) →
      trialBalance s.coA ≡ openingBalance events [ZMOD 2 ^ 64]) ∧
    (∀ now s journalEntry hint events after,
      processCommandAndApply now snapshot s (.recordJournalEntry journalEntry) =
        some (hint, events, after) →
      trialBalance after.coA ≡ trialBalance s.coA [ZMOD 2 ^ 64]) ∧
    ((∀ command ∈ commands, command.2.CarriesEntry) →
      ∃ result, runCommands snapshot {} commands = some result) := by
  have hnil : trialBalance ({} : AppState).coA = 0 := sum_empty _
  refine ⟨?_, ?_, ?_⟩
  · intro events s hrun
    have h := trialBalance_runCommands hrun
    rwa [hnil, zero_add] at h
  · intro now s journalEntry hint events after hstep
    have h := trialBalance_processCommandAndApply hstep
    rcases processCommandAndApply_inv hstep with ⟨rfl, -⟩ | ⟨payload, -, rfl, he, -⟩
    · rwa [openingBalance_nil, add_zero] at h
    · cases payload with
      | journalEntryRecorded journalEntry =>
        rwa [openingBalance_singleton, EventPayload.openingBalance, add_zero] at h
      | accountCreated account | accountMetadataConfigured accountMetadata => cases he.1
  · intro hent
    refine runCommands_isSome ?_ hknown hent
    intro nominalCode account hfind
    cases hfind

theorem trialBalance_overdraftRun : (∀ command ∈ overdraftRun, command.2.CreatesKnown) ∧
      ∃ events s, runCommands ∅ {} overdraftRun = some (events, s) ∧
        trialBalance s.coA ≡ openingBalance events [ZMOD 2 ^ 64] := by
  have hk : ∀ command ∈ overdraftRun, command.2.CreatesKnown := by
    simp [overdraftRun, Command.CreatesKnown]
  have he : ∀ command ∈ overdraftRun, command.2.CarriesEntry := by
    simp [overdraftRun, Command.CarriesEntry]
    decide
  obtain ⟨hb, -, hr⟩ := trialBalance_eq_openingBalance ∅ overdraftRun hk
  obtain ⟨⟨events, s⟩, hr⟩ := hr he
  exact ⟨hk, events, s, hr, hb events s hr⟩

end MySuperLedger.Ledger
