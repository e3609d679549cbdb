import MySuperLedger.Ledger.Acceptance
import Mathlib.Algebra.Ring.Int.Defs
import Mathlib.Data.Int.ModEq
import Mathlib.Tactic.Linarith
import Mathlib.Tactic.LinearCombination
import Mathlib.Tactic.Ring

/-! # Balances under recorded entries

`applyDebit` and `applyCredit` follow one sign table: a debit raises the
balance of an asset, capital, cost-of-goods-sold or expense account and lowers
that of an income or liability account, a credit the other way round. Balances
wrap at `2 ^ 64`, so a recorded entry moves each balance by its true sum modulo
`2 ^ 64`, and the trial balance is an invariant of that arithmetic.
-/

namespace MySuperLedger.Ledger

open Collections List Option KeyedMap Account

/-- The side an account type counts on; `Unknown` is on neither. -/
def AccountType.sign : AccountType → Int
  | .asset | .capital | .costOfGoodsSold | .expense => 1
  | .income | .liability => -1
  | .unknown => 0

def TransactionType.sign : TransactionType → Int
  | .debit => 1
  | .credit => -1
  | .unknown => 0

theorem AccountType.sign_mul_sign {type : AccountType} (h : type ≠ .unknown) :
    type.sign * type.sign = 1 := by
  cases type <;> first | rfl | exact absurd rfl h

def Account.value (account : Account) : Int := account.balance.value.toNat

theorem Account.value_nonneg (account : Account) : 0 ≤ account.value := Int.natCast_nonneg _

theorem Account.value_lt (account : Account) : account.value < 2 ^ 64 := by
  have h := account.balance.value.toNat_lt
  have hc : account.value = (account.balance.value.toNat : Int) := rfl
  omega

def JournalLine.signedAmount (journalLine : JournalLine) : Int :=
  journalLine.type.sign * (journalLine.amount.value.toNat : Int)

def netDebit (journalLines : List JournalLine) : Int :=
  (sumOf .debit journalLines : Int) - sumOf .credit journalLines

@[simp] theorem netDebit_nil : netDebit [] = 0 := rfl

theorem netDebit_cons (journalLine : JournalLine) (journalLines : List JournalLine) :
    netDebit (journalLine :: journalLines) = journalLine.signedAmount + netDebit journalLines := by
  cases ht : journalLine.type <;>
    simp [netDebit, sumOf, linesOf, JournalLine.signedAmount, ht, TransactionType.sign] <;> ring

/-- What one line does to its account: nothing but the balance changes, and the
balance moves by the signed amount modulo `2 ^ 64`. -/
structure MovesBy (delta : Int) (account moved : Account) : Prop where
  nominalCode_eq : moved.nominalCode = account.nominalCode
  type_eq : moved.type = account.type
  value_eq : moved.value = (account.value + account.type.sign * delta) % 2 ^ 64

theorem toNat_add_emod (balance amount : UInt64) :
    ((balance + amount).toNat : Int) = ((balance.toNat : Int) + amount.toNat) % 2 ^ 64 := by
  rw [UInt64.toNat_add]
  push_cast
  rfl

theorem toNat_sub_emod (balance amount : UInt64) :
    ((balance - amount).toNat : Int) = ((balance.toNat : Int) - amount.toNat) % 2 ^ 64 := by
  have ha := amount.toNat_lt
  rw [UInt64.toNat_sub]
  omega

variable {account moved : Account} {coA : ChartOfAccounts} {journalLine : JournalLine}
  {journalLines : List JournalLine} {now : UInt64} {snapshot : DoneMap} {s : AppState}
  {hint : ProcessHint} {events : List Event} {command : Command} {journalEntry : JournalEntry}
  {debitNormal creditNormal : Balance → Balance} {amount : Amount} {callbacks : List Callback}

theorem Account.applyBySide_cases (h : account.applyBySide debitNormal creditNormal = some moved) :
    (account.type.sign = 1 ∧ moved = { account with balance := debitNormal account.balance }) ∨
      (account.type.sign = -1 ∧
        moved = { account with balance := creditNormal account.balance }) := by
  obtain ⟨version, type, nominalCode, name, desc, iso4217CurrencyCode, balance⟩ := account
  cases type <;> simp_all [applyBySide, AccountType.sign]

theorem Account.applyBySide_isSome (ht : account.type ≠ .unknown)
    (debitNormal creditNormal : Balance → Balance) :
    ∃ moved, account.applyBySide debitNormal creditNormal = some moved := by
  cases hs : account.type <;> simp_all [applyBySide]

theorem Account.applyDebit_movesBy (h : account.applyDebit amount = some moved) :
    MovesBy amount.value.toNat account moved := by
  rcases applyBySide_cases h with ⟨hs, rfl⟩ | ⟨hs, rfl⟩
  · refine ⟨rfl, rfl, (toNat_add_emod _ _).trans ?_⟩
    rw [hs, one_mul, value]
  · refine ⟨rfl, rfl, (toNat_sub_emod _ _).trans ?_⟩
    rw [hs, neg_one_mul, value, sub_eq_add_neg]

theorem Account.applyCredit_movesBy (h : account.applyCredit amount = some moved) :
    MovesBy (-(amount.value.toNat : Int)) account moved := by
  rcases applyBySide_cases h with ⟨hs, rfl⟩ | ⟨hs, rfl⟩
  · refine ⟨rfl, rfl, (toNat_sub_emod _ _).trans ?_⟩
    rw [hs, one_mul, value, sub_eq_add_neg]
  · refine ⟨rfl, rfl, (toNat_add_emod _ _).trans ?_⟩
    rw [hs, neg_one_mul, neg_neg, value]

theorem Account.type_ne_of_applyBySide
    (h : account.applyBySide debitNormal creditNormal = some moved) : account.type ≠ .unknown := by
  intro ht
  simp [applyBySide, ht] at h

theorem applyJournalLine_spec (h : applyJournalLine coA journalLine = some moved) :
    ∃ account, coA.find? journalLine.nominalCode = some account ∧ account.type ≠ .unknown ∧
      MovesBy journalLine.signedAmount account moved := by
  obtain ⟨account, hf, h⟩ := bind_eq_some_iff.mp h
  refine ⟨account, hf, ?_⟩
  cases ht : journalLine.type with
  | unknown => simp [ht] at h
  | debit =>
    simp only [ht] at h
    refine ⟨type_ne_of_applyBySide h, ?_⟩
    simpa [JournalLine.signedAmount, ht, TransactionType.sign] using applyDebit_movesBy h
  | credit =>
    simp only [ht] at h
    refine ⟨type_ne_of_applyBySide h, ?_⟩
    simpa [JournalLine.signedAmount, ht, TransactionType.sign] using applyCredit_movesBy h

theorem applyJournalLine_isSome (hf : coA.find? journalLine.nominalCode = some account)
    (hkn : account.type ≠ .unknown) (ht : journalLine.type ≠ .unknown) :
    ∃ moved, applyJournalLine coA journalLine = some moved := by
  cases hs : journalLine.type with
  | unknown => exact absurd hs ht
  | debit =>
    obtain ⟨moved, hm⟩ := account.applyBySide_isSome hkn
      (·.add journalLine.amount) (·.sub journalLine.amount)
    exact ⟨moved, by simpa [applyJournalLine, hf, hs, applyDebit] using hm⟩
  | credit =>
    obtain ⟨moved, hm⟩ := account.applyBySide_isSome hkn
      (·.sub journalLine.amount) (·.add journalLine.amount)
    exact ⟨moved, by simpa [applyJournalLine, hf, hs, applyCredit] using hm⟩

/-- The lines that touch one account. -/
def linesAt (nominalCode : UInt64) (journalLines : List JournalLine) : List JournalLine :=
  journalLines.filter fun journalLine => journalLine.nominalCode = nominalCode

theorem MovesBy.refl (account : Account) : MovesBy 0 account account where
  nominalCode_eq := rfl
  type_eq := rfl
  value_eq := by
    rw [mul_zero, add_zero, Int.emod_eq_of_lt account.value_nonneg account.value_lt]

theorem MovesBy.trans {first second : Int} {final : Account} (hm : MovesBy first account moved)
    (hf : MovesBy second moved final) : MovesBy (first + second) account final where
  nominalCode_eq := hf.nominalCode_eq.trans hm.nominalCode_eq
  type_eq := hf.type_eq.trans hm.type_eq
  value_eq := by
    rw [hf.value_eq, hm.type_eq, hm.value_eq, Int.emod_add_emod, mul_add, add_assoc]

/-- After the loop every account has moved by the sum of its own lines. -/
theorem applyJournalLines_spec {final : ChartOfAccounts}
    (h : applyJournalLines coA journalLines = some (final, callbacks)) {nominalCode : UInt64}
    (hfind : coA.find? nominalCode = some account) :
    ∃ moved, final.find? nominalCode = some moved ∧
      MovesBy (netDebit (linesAt nominalCode journalLines)) account moved := by
  induction journalLines generalizing coA callbacks account with
  | nil =>
    obtain ⟨rfl, -⟩ := Prod.mk.inj (some.inj h)
    exact ⟨account, hfind, MovesBy.refl account⟩
  | cons line lines ih =>
    obtain ⟨moved, later, hline, hrest⟩ := applyJournalLines_cons h
    obtain ⟨before, hpre, -, hmov⟩ := applyJournalLine_spec hline
    have hcode : moved.nominalCode = line.nominalCode :=
      hmov.nominalCode_eq.trans (key_of_find? hpre)
    by_cases hsame : line.nominalCode = nominalCode
    · -- the line is one of this account's: its move comes first
      subst hsame
      obtain rfl : account = before := some.inj (hfind.symm.trans hpre)
      have hput : (coA.put moved).find? line.nominalCode = some moved := by
        rw [← hcode, find?_put_self]
      obtain ⟨last, hlast, hmov'⟩ := ih hrest hput
      refine ⟨last, hlast, ?_⟩
      have hlin : linesAt line.nominalCode (line :: lines) =
          line :: linesAt line.nominalCode lines := by simp [linesAt]
      rw [hlin, netDebit_cons]
      exact hmov.trans hmov'
    · have hput : (coA.put moved).find? nominalCode = some account := by
        rw [find?_put_of_ne _ (by rw [hcode]; exact Ne.symm hsame), hfind]
      have hlin : linesAt nominalCode (line :: lines) = linesAt nominalCode lines := by
        simp [linesAt, hsame]
      rw [hlin]
      exact ih hrest hput

/-- The line finds an account of known type and is a debit or a credit. -/
def CanApply (coA : ChartOfAccounts) (journalLine : JournalLine) : Prop :=
  journalLine.type ≠ .unknown ∧
    ∃ account, coA.find? journalLine.nominalCode = some account ∧ account.type ≠ .unknown

theorem canApply_of_applyJournalLine (h : applyJournalLine coA journalLine = some moved) :
    CanApply coA journalLine := by
  obtain ⟨account, hf, hk, -⟩ := applyJournalLine_spec h
  refine ⟨?_, account, hf, hk⟩
  intro ht
  simp [applyJournalLine, hf, ht] at h

/-- Whether a later line can be applied does not depend on an earlier one. -/
theorem canApply_put_iff (h : applyJournalLine coA journalLine = some moved) (later : JournalLine) :
    CanApply (coA.put moved) later ↔ CanApply coA later := by
  obtain ⟨account, hf, hk, hm⟩ := applyJournalLine_spec h
  have hc := key_of_find? hf
  by_cases hs : later.nominalCode = moved.nominalCode
  · have hf' : coA.find? moved.nominalCode = some account := by
      rw [hm.nominalCode_eq, hc, hf]
    simp [CanApply, hs, hf', hm.type_eq, hk]
  · simp [CanApply, find?_put_of_ne _ hs]

theorem applyJournalLines_isSome_iff :
    (∃ result, applyJournalLines coA journalLines = some result) ↔
      ∀ journalLine ∈ journalLines, CanApply coA journalLine := by
  induction journalLines generalizing coA with
  | nil => simp [applyJournalLines]
  | cons line lines ih =>
    rw [forall_mem_cons]
    constructor
    · rintro ⟨result, h⟩
      obtain ⟨moved, hl, h⟩ := bind_eq_some_iff.mp h
      obtain ⟨rest, hr, -⟩ := map_eq_some_iff.mp h
      refine ⟨canApply_of_applyJournalLine hl, fun later hlate => ?_⟩
      exact (canApply_put_iff hl later).mp (ih.mp ⟨rest, hr⟩ later hlate)
    · rintro ⟨hfst, hlin⟩
      obtain ⟨ht, account, hf, hkn⟩ := hfst
      obtain ⟨moved, hl⟩ := applyJournalLine_isSome hf hkn ht
      obtain ⟨⟨rest, later⟩, hr⟩ := ih.mpr fun line hm =>
        (canApply_put_iff hl line).mpr (hlin line hm)
      exact ⟨(rest, .onAccountUpdated moved :: later), by
        simp [applyJournalLines, hl, hr]⟩

/-- The loop only succeeds on valid lines, and its sums are the true ones
modulo `2 ^ 64`. -/
theorem checkJournalLines_inv {totals counted : LineTotals}
    (h : checkJournalLines coA totals journalLines = some (.ok counted)) :
    (∀ journalLine ∈ journalLines, LineIsValid coA journalLine) ∧
      counted.debitSum.value = totals.debitSum.value + UInt64.ofNat (sumOf .debit journalLines) ∧
      counted.creditSum.value =
        totals.creditSum.value + UInt64.ofNat (sumOf .credit journalLines) := by
  induction journalLines generalizing totals with
  | nil =>
    obtain rfl := Except.ok.inj (some.inj h)
    simp [sumOf, linesOf]
  | cons line lines ih =>
    simp only [checkJournalLines] at h
    split at h
    · cases h
    · rename_i account hfind
      split at h
      · cases h
      · rename_i hcur
        split at h
        · cases h
        · rename_i htype
          obtain ⟨next, hnext, hrest⟩ := bind_eq_some_iff.mp h
          obtain ⟨hval, hdr, hcr⟩ := ih hrest
          have hfst : LineIsValid coA line := by
            refine ⟨⟨account, hfind, not_not.mp hcur⟩, ?_⟩
            cases hside : line.type <;> simp_all
          refine ⟨forall_mem_cons.mpr ⟨hfst, hval⟩, ?_⟩
          rw [hdr, hcr]
          rcases hfst.2 with hside | hside
          all_goals
            simp only [LineTotals.count, hside, Amount.add, map_eq_some_iff,
              ite_none_right_eq_some, Option.some.injEq] at hnext
            obtain ⟨sum, ⟨-, rfl⟩, rfl⟩ := hnext
            simp [sumOf, linesOf, hside, UInt64.ofNat_add, UInt64.add_assoc]

/-- What holds when a record command emitted its event. -/
structure Recorded (snapshot : DoneMap) (s : AppState) (journalEntry : JournalEntry) : Prop where
  notDone : journalEntry.id ∉ s.doneMap ∧ journalEntry.id ∉ snapshot
  valid : ∀ journalLine ∈ journalEntry.journalLines, LineIsValid s.coA journalLine
  netDebit_eq : netDebit journalEntry.journalLines ≡ 0 [ZMOD 2 ^ 64]

theorem processRecordJournalEntry_inv {journalEntryOpt : Option JournalEntry}
    (h : processRecordJournalEntry now snapshot s journalEntryOpt = some (hint, events)) :
    events = [] ∨ ∃ journalEntry, journalEntryOpt = some journalEntry ∧
      events = [.ofPayload now (.journalEntryRecorded journalEntry)] ∧
      Recorded snapshot s journalEntry := by
  obtain ⟨journalEntry, rfl, hp⟩ := bind_eq_some_iff.mp h
  split at hp
  · exact .inl (Prod.mk.inj (some.inj hp)).2.symm
  · rename_i hdone
    obtain ⟨outcome, hchk, hp⟩ := map_eq_some_iff.mp hp
    cases outcome with
    | error hint => exact .inl (Prod.mk.inj hp).2.symm
    | ok totals =>
      simp only [checkTotals] at hp
      split_ifs at hp with hdr hcr hsum
      · exact .inl (Prod.mk.inj hp).2.symm
      · exact .inl (Prod.mk.inj hp).2.symm
      · exact .inl (Prod.mk.inj hp).2.symm
      · obtain ⟨hval, hd, hc⟩ := checkJournalLines_inv hchk
        refine .inr ⟨journalEntry, rfl, (Prod.mk.inj hp).2.symm,
          (isDone_eq_false_iff ..).mp (Bool.eq_false_iff.mpr hdone), hval, ?_⟩
        have heq : UInt64.ofNat (sumOf .debit journalEntry.journalLines) =
            UInt64.ofNat (sumOf .credit journalEntry.journalLines) := by
          rw [not_not] at hsum
          rw [← UInt64.zero_add (UInt64.ofNat (sumOf .debit _)), ← hd, hsum, hc, UInt64.zero_add]
        have hmod := Int.natCast_modEq_iff.mpr ((ofNat_eq_ofNat_iff _ _).mp heq)
        rw [netDebit]
        simpa using hmod.sub_right (sumOf .credit journalEntry.journalLines : Int)

/-- What holds when `command` emitted `payload` in state `s`. -/
def Emitted (snapshot : DoneMap) (s : AppState) (command : Command) : EventPayload → Prop
  | .accountCreated account =>
    command = .createAccount (some account) ∧ s.coA.find? account.nominalCode = none
  | .accountMetadataConfigured accountMetadata =>
    command = .configureAccountMetadata (some accountMetadata) ∧
      rangeIsFree s.accountMetadata accountMetadata ∧ rangeCovers s.coA accountMetadata
  | .journalEntryRecorded journalEntry =>
    command = .recordJournalEntry (some journalEntry) ∧ Recorded snapshot s journalEntry

/-- A command emits at most one event, stamped with the clock reading. -/
theorem processCommand_inv (h : processCommand now snapshot s command = some (hint, events)) :
    events = [] ∨ ∃ payload, events = [.ofPayload now payload] ∧
      Emitted snapshot s command payload := by
  cases command with
  | configureAccountMetadata accountMetadataOpt =>
    have hp := (Prod.mk.inj (some.inj h)).2
    cases accountMetadataOpt with
    | none => exact .inl hp.symm
    | some accountMetadata =>
      simp only at hp
      split_ifs at hp with hfree hcov
      · exact .inr ⟨_, hp.symm, rfl, hfree, hcov⟩
      · exact .inl hp.symm
      · exact .inl hp.symm
  | createAccount accountOpt =>
    have hp := (Prod.mk.inj (some.inj h)).2
    cases accountOpt with
    | none => exact .inl hp.symm
    | some account =>
      simp only at hp
      split at hp
      · exact .inl hp.symm
      · rename_i hfind
        exact .inr ⟨_, hp.symm, rfl, hfind⟩
  | recordJournalEntry journalEntryOpt =>
    rcases processRecordJournalEntry_inv h with hnil | ⟨journalEntry, rfl, hevs, hr⟩
    · exact .inl hnil
    · exact .inr ⟨_, hevs, rfl, hr⟩

/-- `processCommandAndApply`, inverted: nothing happens, or one event is emitted
and applied. -/
theorem processCommandAndApply_inv {after : AppState}
    (h : processCommandAndApply now snapshot s command = some (hint, events, after)) :
    (events = [] ∧ after = s) ∨ ∃ payload callbacks, events = [.ofPayload now payload] ∧
        Emitted snapshot s command payload ∧
        applyEvent s (.ofPayload now payload) = some (after, callbacks) := by
  obtain ⟨⟨hi', events'⟩, hp, h⟩ := bind_eq_some_iff.mp h
  obtain ⟨⟨final, callbacks⟩, ha, hpair⟩ := map_eq_some_iff.mp h
  obtain ⟨-, rfl, rfl⟩ : hi' = hint ∧ events' = events ∧ final = after := by simpa using hpair
  rcases processCommand_inv hp with rfl | ⟨payload, rfl, he⟩
  · exact .inl ⟨rfl, (Prod.mk.inj (some.inj ha)).1.symm⟩
  · obtain ⟨⟨next, made⟩, hev, ha⟩ := bind_eq_some_iff.mp ha
    obtain ⟨rfl, -⟩ := Prod.mk.inj (some.inj ha)
    exact .inr ⟨payload, made, rfl, he, hev⟩

/-- The balance of `account` after `journalLines`, as a mathematical integer. -/
def exactValue (account : Account) (journalLines : List JournalLine) : Int :=
  account.value + account.type.sign * netDebit (linesAt account.nominalCode journalLines)

/-- The loop over `journalLines` ends in a chart in which every account holds
its exact balance. -/
def AppliesExactly (coA : ChartOfAccounts) (journalLines : List JournalLine) : Prop :=
  ∃ after callbacks, applyJournalLines coA journalLines = some (after, callbacks) ∧
    ∀ nominalCode account, coA.find? nominalCode = some account →
      ∃ moved, after.find? nominalCode = some moved ∧ moved.value = exactValue account journalLines

/-- Applying the recorded event leaves every account with its exact balance,
and so does every intermediate step of its line loop. -/
def RecordedExactly (now : UInt64) (s : AppState) (journalEntry : JournalEntry) : Prop :=
  (∃ after callbacks,
    applyEvent s (.ofPayload now (.journalEntryRecorded journalEntry)) = some (after, callbacks) ∧
    ∀ nominalCode account, s.coA.find? nominalCode = some account →
      ∃ moved, after.coA.find? nominalCode = some moved ∧
        moved.value = exactValue account journalEntry.journalLines) ∧
  ∀ done, done <+: journalEntry.journalLines → AppliesExactly s.coA done

/-- Every touched account has a known type, and no exact balance along the
lines leaves `[0, 2 ^ 64)`. -/
def BalancesFit (coA : ChartOfAccounts) (journalLines : List JournalLine) : Prop :=
  (∀ journalLine ∈ journalLines, ∀ account, coA.find? journalLine.nominalCode = some account →
    account.type ≠ .unknown) ∧
  ∀ done, done <+: journalLines → ∀ nominalCode account, coA.find? nominalCode = some account →
    0 ≤ exactValue account done ∧ exactValue account done < 2 ^ 64

theorem emod_eq_self_iff (x : Int) : x % 2 ^ 64 = x ↔ 0 ≤ x ∧ x < 2 ^ 64 := by
  omega

/-- Where the loop runs, it is exact just when no exact balance leaves the range. -/
theorem appliesExactly_iff (hr : ∃ result, applyJournalLines coA journalLines = some result) :
    AppliesExactly coA journalLines ↔ ∀ nominalCode account, coA.find? nominalCode = some account →
        0 ≤ exactValue account journalLines ∧ exactValue account journalLines < 2 ^ 64 := by
  obtain ⟨⟨after, callbacks⟩, hr⟩ := hr
  have hv : ∀ {nominalCode account}, coA.find? nominalCode = some account →
      ∃ moved, after.find? nominalCode = some moved ∧
        moved.value = exactValue account journalLines % 2 ^ 64 := by
    intro nominalCode account hf
    obtain ⟨moved, hm, hmoves⟩ := applyJournalLines_spec hr hf
    refine ⟨moved, hm, ?_⟩
    rw [hmoves.value_eq, exactValue, key_of_find? hf]
  constructor
  · rintro ⟨after', callbacks', hr', hex⟩ nominalCode account hf
    obtain ⟨rfl, -⟩ := Prod.mk.inj (some.inj (hr.symm.trans hr'))
    obtain ⟨moved, hm, heq⟩ := hex nominalCode account hf
    obtain ⟨moved', hm', heq'⟩ := hv hf
    obtain rfl : moved = moved' := some.inj (hm.symm.trans hm')
    exact (emod_eq_self_iff _).mp (heq'.symm.trans heq)
  · intro hfit
    refine ⟨after, callbacks, hr, fun nominalCode account hf => ?_⟩
    obtain ⟨moved, hm, heq⟩ := hv hf
    exact ⟨moved, hm, heq.trans ((emod_eq_self_iff _).mpr (hfit nominalCode account hf))⟩

theorem Recorded.canApply_iff (hr : Recorded snapshot s journalEntry) :
    (∀ journalLine ∈ journalEntry.journalLines, CanApply s.coA journalLine) ↔
      ∀ journalLine ∈ journalEntry.journalLines, ∀ account,
        s.coA.find? journalLine.nominalCode = some account → account.type ≠ .unknown := by
  refine forall₂_congr fun line hl => ?_
  obtain ⟨⟨account, hf, -⟩, -⟩ := hr.valid line hl
  have hf : s.coA.find? line.nominalCode = some account := hf
  simp [CanApply, hf, (hr.valid line hl).type_ne]

theorem Recorded.applyEvent_eq (hr : Recorded snapshot s journalEntry) (now : UInt64)
    {after : ChartOfAccounts}
    (hrun : applyJournalLines s.coA journalEntry.journalLines = some (after, callbacks)) :
    applyEvent s (.ofPayload now (.journalEntryRecorded journalEntry)) =
      some ({ s with
        doneMap := s.doneMap.insert journalEntry.id journalEntry.validTime
        coA := after },
        .onBookkeepingProcessed journalEntry.id journalEntry.validTime :: callbacks) := by
  have hd := Finmap.lookup_eq_none.mpr hr.notDone.1
  simp [applyEvent, Event.ofPayload, applyJournalEntryRecorded, hd, hrun]

theorem recordedExactly_iff_balancesFit
    (hp : processCommand now snapshot s (.recordJournalEntry (some journalEntry)) =
      some (hint, [.ofPayload now (.journalEntryRecorded journalEntry)])) :
    RecordedExactly now s journalEntry ↔ BalancesFit s.coA journalEntry.journalLines := by
  have hr : Recorded snapshot s journalEntry := by
    rcases processRecordJournalEntry_inv hp with hnil | ⟨entry, hent, -, hr⟩
    · cases hnil
    · rwa [some.inj hent]
  rw [BalancesFit, ← hr.canApply_iff, ← applyJournalLines_isSome_iff]
  constructor
  · rintro ⟨-, hex⟩
    have hrun : ∀ done, done <+: journalEntry.journalLines →
        ∃ result, applyJournalLines s.coA done = some result := fun done hdone => by
      obtain ⟨after, callbacks, hrun, -⟩ := hex done hdone
      exact ⟨_, hrun⟩
    refine ⟨hrun _ (prefix_refl _), fun done hdone => ?_⟩
    exact (appliesExactly_iff (hrun done hdone)).mp (hex done hdone)
  · rintro ⟨hrun, hfit⟩
    have hex : ∀ done, done <+: journalEntry.journalLines → AppliesExactly s.coA done := by
      intro done hdone
      have hpre := applyJournalLines_isSome_iff.mpr fun line hline =>
        applyJournalLines_isSome_iff.mp hrun line (hdone.subset hline)
      exact (appliesExactly_iff hpre).mpr (hfit done hdone)
    refine ⟨?_, hex⟩
    obtain ⟨after, callbacks, hwh, hval⟩ := hex _ (prefix_refl _)
    exact ⟨_, _, hr.applyEvent_eq now hwh, hval⟩

/-- `P` holds at every entry that a run over `commands` records, in the state
the entry was accepted in. -/
def ForEachEntry (P : UInt64 → AppState → JournalEntry → Prop) (snapshot : DoneMap) :
    AppState → List (UInt64 × Command) → Prop
  | _, [] => True
  | s, (now, command) :: commands =>
    (∀ hint journalEntry, processCommand now snapshot s command =
      some (hint, [.ofPayload now (.journalEntryRecorded journalEntry)]) → P now s journalEntry) ∧
    ∀ hint events after, processCommandAndApply now snapshot s command =
      some (hint, events, after) → ForEachEntry P snapshot after commands

/-- Every entry the run records changes the balances by exactly its sums. -/
def RunIsExact (snapshot : DoneMap) (s : AppState) (commands : List (UInt64 × Command)) : Prop :=
  ForEachEntry RecordedExactly snapshot s commands

/-- Every entry the run records fits the balances it finds. -/
def RunFits (snapshot : DoneMap) (s : AppState) (commands : List (UInt64 × Command)) : Prop :=
  ForEachEntry (fun _ s journalEntry => BalancesFit s.coA journalEntry.journalLines) snapshot s
    commands

/-- Only a record command emits a recorded entry, and it is the command's own. -/
theorem eq_recordJournalEntry (hp : processCommand now snapshot s command =
      some (hint, [.ofPayload now (.journalEntryRecorded journalEntry)])) :
    command = .recordJournalEntry (some journalEntry) := by
  rcases processCommand_inv hp with hn | ⟨payload, hevs, he⟩
  · cases hn
  · have hpay : EventPayload.journalEntryRecorded journalEntry = payload :=
      congrArg Event.payload (List.cons.inj hevs).1
    subst hpay
    exact he.1

/-- The balances of a run are exact just when each entry fits where it is recorded. -/
theorem runIsExact_iff_runFits (snapshot : DoneMap) (s : AppState)
    (commands : List (UInt64 × Command)) :
    RunIsExact snapshot s commands ↔ RunFits snapshot s commands := by
  induction commands generalizing s with
  | nil => exact Iff.rfl
  | cons head commands ih =>
    obtain ⟨now, command⟩ := head
    refine and_congr ?_ ?_
    · refine forall₃_congr fun hint journalEntry hp => ?_
      obtain rfl := eq_recordJournalEntry hp
      exact recordedExactly_iff_balancesFit hp
    · exact forall₄_congr fun hint events after hs => ih after

/-- Two accounts and an entry that takes 1 out of the empty asset account. -/
def overdraft : JournalEntry := entryOf [debitLine 2001 1, creditLine 1001 1]

def overdraftRun : List (UInt64 × Command) :=
  [(0, .createAccount (some ⟨1, .asset, 1001, "cash", "", 840, {}⟩)),
   (0, .createAccount (some ⟨1, .income, 2001, "sales", "", 840, {}⟩)),
   (0, .recordJournalEntry (some overdraft))]

theorem not_runIsExact_overdraftRun : ¬ RunIsExact ∅ {} overdraftRun := by
  rintro ⟨-, hr⟩
  obtain ⟨-, hr⟩ := hr _ _ _ rfl
  obtain ⟨he, -⟩ := hr _ _ _ rfl
  obtain ⟨⟨after, callbacks, -, hv⟩, -⟩ := he successHint overdraft (by decide)
  obtain ⟨moved, -, hm⟩ := hv 1001 ⟨1, .asset, 1001, "cash", "", 840, {}⟩ (by decide)
  have he : exactValue ⟨1, .asset, 1001, "cash", "", 840, {}⟩ overdraft.journalLines = -1 := by
    decide
  have hn := moved.value_nonneg
  omega

end MySuperLedger.Ledger
