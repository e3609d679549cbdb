import MySuperLedger.Ledger.Ranges
import Mathlib.Algebra.BigOperators.Group.Finset.Piecewise

/-! # Balance per currency

Each line is checked against the currency of its own account, but the sums of
an entry are taken over all its lines together. An entry in several currencies
is therefore recorded as soon as what the currencies are out by cancels, and
an entry in one currency as soon as it is out by a multiple of `2 ^ 64`.
-/

namespace MySuperLedger.Ledger

open Collections Transition

def linesIn (currency : UInt64) (journalLines : List JournalLine) : List JournalLine :=
  journalLines.filter fun journalLine => journalLine.iso4217CurrencyCode = currency

def currenciesOf (journalLines : List JournalLine) : Finset UInt64 :=
  (journalLines.map JournalLine.iso4217CurrencyCode).toFinset

def BalancesInEachCurrency (journalLines : List JournalLine) : Prop :=
  ∀ currency, sumOf .debit (linesIn currency journalLines) =
    sumOf .credit (linesIn currency journalLines)

/-- If the entry is accepted, it balances in each currency. -/
def AcceptsInEachCurrency (now : UInt64) (snapshot : DoneMap) (s : AppState)
    (journalEntry : JournalEntry) : Prop :=
  ∀ hint, processCommand now snapshot s (.recordJournalEntry (some journalEntry)) =
      some (hint, [.ofPayload now (.journalEntryRecorded journalEntry)]) →
    BalancesInEachCurrency journalEntry.journalLines

/-- Some currency is out of balance, but what the currencies are out by adds up
to a multiple of `2 ^ 64`, and neither counter of lines wraps to 0. -/
def CancelsAcrossCurrencies (journalLines : List JournalLine) : Prop :=
  (∃ currency, netDebit (linesIn currency journalLines) ≠ 0) ∧
    2 ^ 64 ∣ ∑ currency ∈ currenciesOf journalLines, netDebit (linesIn currency journalLines) ∧
    ¬ 2 ^ 32 ∣ (linesOf .debit journalLines).length ∧
    ¬ 2 ^ 32 ∣ (linesOf .credit journalLines).length

theorem balancesInEachCurrency_iff (journalLines : List JournalLine) :
    BalancesInEachCurrency journalLines ↔
      ∀ currency, netDebit (linesIn currency journalLines) = 0 := by
  refine forall_congr' fun currency => ?_
  rw [netDebit]
  omega

theorem netDebit_linesIn_cons (currency : UInt64) (journalLine : JournalLine)
    (journalLines : List JournalLine) :
    netDebit (linesIn currency (journalLine :: journalLines)) =
      (if journalLine.iso4217CurrencyCode = currency then journalLine.signedAmount else 0) +
        netDebit (linesIn currency journalLines) := by
  by_cases hc : journalLine.iso4217CurrencyCode = currency
  · simp [linesIn, hc, netDebit_cons]
  · simp [linesIn, hc]

/-- The sums of the check do not see the currencies: they are the sums over all
of them. -/
theorem sum_netDebit_linesIn {journalLines : List JournalLine} {currencies : Finset UInt64}
    (hm : ∀ journalLine ∈ journalLines, journalLine.iso4217CurrencyCode ∈ currencies) :
    ∑ currency ∈ currencies, netDebit (linesIn currency journalLines) = netDebit journalLines := by
  induction journalLines with
  | nil => simp [linesIn]
  | cons line lines ih =>
    obtain ⟨hline, hl⟩ := List.forall_mem_cons.mp hm
    simp only [netDebit_linesIn_cons, Finset.sum_add_distrib, Finset.sum_ite_eq, hline, if_true,
      ih hl, netDebit_cons]

theorem looksBalanced_iff (journalLines : List JournalLine) :
    LooksBalanced journalLines ↔ 2 ^ 64 ∣ netDebit journalLines ∧
      ¬ 2 ^ 32 ∣ (linesOf .debit journalLines).length ∧
      ¬ 2 ^ 32 ∣ (linesOf .credit journalLines).length := by
  have hs : sumOf .debit journalLines ≡ sumOf .credit journalLines [MOD 2 ^ 64] ↔
      (2 ^ 64 : Int) ∣ netDebit journalLines := by
    rw [netDebit, Nat.ModEq]
    omega
  rw [LooksBalanced, hs]
  tauto

/-- The check looks at one sum over all currencies, so it errs exactly where they cancel. -/
theorem acceptsInEachCurrency_iff (now : UInt64) (snapshot : DoneMap) (s : AppState)
    (journalEntry : JournalEntry) (hv : journalEntry.IsV1) :
    AcceptsInEachCurrency now snapshot s journalEntry ↔ ¬ (IsAdmissible snapshot s journalEntry ∧
        CancelsAcrossCurrencies journalEntry.journalLines) := by
  have hs : ∑ currency ∈ currenciesOf journalEntry.journalLines,
      netDebit (linesIn currency journalEntry.journalLines) =
        netDebit journalEntry.journalLines :=
    sum_netDebit_linesIn fun line hline => by simpa [currenciesOf] using ⟨line, hline, rfl⟩
  rw [CancelsAcrossCurrencies, hs, ← looksBalanced_iff, ← not_forall, ← balancesInEachCurrency_iff]
  by_cases ha : Accepts snapshot s journalEntry
  · have hp := processCommand_of_accepts now hv ha
    obtain ⟨hadm, hl⟩ := ha
    simp [AcceptsInEachCurrency, hp, hadm, hl]
  · obtain ⟨hi, hp, -⟩ := processCommand_of_not_accepts now hv ha
    rw [Accepts] at ha
    have ht : AcceptsInEachCurrency now snapshot s journalEntry := by
      simp [AcceptsInEachCurrency, hp]
    refine iff_of_true ht ?_
    rintro ⟨hadm, -, hl⟩
    exact ha ⟨hadm, hl⟩

/-- A dollar asset and a yuan income account. -/
def currencyTurns : List Turn :=
  [⟨0, ∅, .createAccount (some ⟨1, .asset, 1001, "cash", "", 840, {}⟩)⟩,
   ⟨0, ∅, .createAccount (some ⟨1, .income, 2001, "sales", "", 156, {}⟩)⟩]

def mixedEntry : JournalEntry :=
  entryOf [debitLine 1001 50, { creditLine 2001 50 with iso4217CurrencyCode := 156 }]

theorem acceptsInEachCurrency_small_entry : (entryOf [debitLine 1001 50, creditLine 2001 50]).IsV1 ∧
      AcceptsInEachCurrency 0 ∅ twoAccounts (entryOf [debitLine 1001 50, creditLine 2001 50]) := by
  refine ⟨by decide, (acceptsInEachCurrency_iff 0 ∅ twoAccounts
    (entryOf [debitLine 1001 50, creditLine 2001 50]) (by decide)).mpr ?_⟩
  rintro ⟨-, ⟨currency, hne⟩, -⟩
  apply hne
  by_cases hc : 840 = currency
  · subst hc
    decide
  · simp [entryOf, linesIn, debitLine, creditLine, hc]

theorem not_acceptsInEachCurrency_mixedEntry :
    ∃ s, (machine fun _ => True).Reachable s ∧ mixedEntry.IsV1 ∧
      ¬ AcceptsInEachCurrency 0 ∅ s mixedEntry := by
  obtain ⟨s, he, ha⟩ : ∃ s, System.exec (System.guardStep
      (fun _ _ => True) AppState.step) {} currencyTurns = some s ∧
      processCommand 0 ∅ s (.recordJournalEntry (some mixedEntry)) =
        some (successHint, [.ofPayload 0 (.journalEntryRecorded mixedEntry)]) :=
    ⟨_, rfl, by decide⟩
  refine ⟨s, ⟨{}, rfl, System.guarded_runs_of_exec he⟩, by decide, fun hacc => ?_⟩
  have hd := hacc successHint ha 840
  exact absurd hd (by decide)

end MySuperLedger.Ledger
