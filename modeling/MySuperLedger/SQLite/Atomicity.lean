import MySuperLedger.SQLite.Dao
import MySuperLedger.Transition.System

/-! # Atomic batches

What a caller of `persist` may expect of one batch: a command is told that it is
persisted only when its row is committed, a call that returns has stored the
whole batch, and a call that fails leaves no trace and can be followed by another.
The source keeps to this unless a failing statement leaves the transaction open
or comes after a command has already been answered.
-/

namespace MySuperLedger

namespace SQLite

open Transactions (Connection Failure)
open Transition (System)

/-- A batch the tables can take. -/
def IsValid (tables : Tables) (commands : List Command) (events : List Event) : Prop :=
  ∃ after, GoesIn (fun _ => none) tables (inserts commands events) after

structure IsAtomic (connection : Connection Tables) (commands : List Command)
    (events : List Event) (outcome : Outcome) : Prop where
  acknowledged : ∀ command, .onPersisted command ∈ outcome.callbacks →
    command.row ∈ outcome.connection.committed.commands.rows
  complete : outcome.exit = .returned →
    (inserts commands events).foldlM Insert.into connection.current =
      some outcome.connection.committed
  unchanged : outcome.exit ≠ .returned → outcome.connection.current = connection.current
  usable : outcome.exit ≠ .returned → ∀ laterCommands laterEvents,
    IsValid outcome.connection.current laterCommands laterEvents →
      (persist {} outcome.connection laterCommands laterEvents).exit = .returned

/-- The faults and batches that `persist` treats as one transaction. -/
inductive IsSafe (faults : Faults) (tables : Tables) (commands : List Command)
    (events : List Event) : Prop
  | notBegun : faults.begins = true → IsSafe faults tables commands events
  /-- The first statement to fail comes before any command's and ends the transaction. -/
  | takenBack {before rest : List Insert} {insert : Insert} {reached : Tables} :
      inserts commands events = before ++ insert :: rest →
      GoesIn faults.insert tables before reached →
      (∀ command, .command command ∉ before) →
      Stops (faults.insert before.length) reached insert none →
      IsSafe faults tables commands events
  | committed {after : Tables} : GoesIn faults.insert tables (inserts commands events) after →
      faults.commit = none → IsSafe faults tables commands events
  | commitTakenBack {after : Tables} :
      GoesIn faults.insert tables (inserts commands events) after →
      faults.commit = some .rollsBack → commands = [] → IsSafe faults tables commands events

variable {commands : List Command} {events : List Event}

theorem command_mem_inserts {command : Command} :
    .command command ∈ inserts commands events ↔ command ∈ commands := by
  simp [inserts]

theorem event_mem_inserts {event : Event} :
    .event event ∈ inserts commands events ↔ event ∈ events := by
  simp [inserts]

theorem IsValid.nil (tables : Tables) : IsValid tables [] [] :=
  ⟨tables, GoesIn.nil _ tables⟩

theorem IsValid.persist {tables : Tables} (h : IsValid tables commands events) :
    (persist {} ⟨tables, none⟩ commands events).exit = .returned := by
  obtain ⟨after, ha⟩ := h
  have hb : ({} : Faults).begins = false := rfl
  rw [GoesIn.persist hb ha]
  rfl

section Call

variable {faults : Faults} {base : Tables} {commands : List Command} {events : List Event}

/-- A call that failed and left the connection idle has only to keep quiet. -/
theorem isAtomic_of_idle {outcome : Outcome} (hc : outcome.connection = ⟨base, none⟩)
    (he : outcome.exit ≠ .returned) (hq : ∀ command, .onPersisted command ∉ outcome.callbacks) :
    IsAtomic ⟨base, none⟩ commands events outcome where
  acknowledged command hm := absurd hm (hq command)
  complete hr := absurd hr he
  unchanged _ := by rw [hc]
  usable _ laterCommands laterEvents hv := by
    rw [hc] at hv ⊢
    exact hv.persist

/-- An open transaction would refuse the next call, even with an empty batch. -/
theorem IsAtomic.isIdle_of_failed {connection : Connection Tables} {outcome : Outcome}
    (h : IsAtomic connection commands events outcome) (he : outcome.exit ≠ .returned) :
    outcome.connection.IsIdle := by
  have hl := h.usable he [] [] (IsValid.nil _)
  exact (of_persist_returned hl).1

theorem IsSafe.isAtomic (h : IsSafe faults base commands events) :
    IsAtomic ⟨base, none⟩ commands events (persist faults ⟨base, none⟩ commands events) := by
  by_cases hb : faults.begins = true
  · obtain ⟨hc, hcb, he⟩ := persist_of_fault ⟨base, none⟩ commands events hb
    exact isAtomic_of_idle hc he (by simp [hcb])
  rw [Bool.not_eq_true] at hb
  cases h with
  | notBegun hf => simp [hf] at hb
  | takenBack hspl hp hqt hs =>
    obtain ⟨hc, hcb, he⟩ := hs.persist hb hspl hp
    refine isAtomic_of_idle hc he fun command hm => ?_
    exact hqt command ((hcb command).mp hm)
  | committed ha hcom =>
    rw [ha.persist hb, hcom]
    refine ⟨fun command hm => ?_, fun _ => ha.rows, fun he => absurd rfl he,
      fun he => absurd rfl he⟩
    exact (ha.command_mem (onPersisted_mem_acknowledgements.mp hm)).1
  | commitTakenBack ha hcom hn =>
    rw [ha.persist hb, hcom]
    refine isAtomic_of_idle rfl (by simp [execCommit]) fun command hm => ?_
    rw [onPersisted_mem_acknowledgements, command_mem_inserts, hn] at hm
    cases hm

theorem IsAtomic.isSafe
    (h : IsAtomic ⟨base, none⟩ commands events (persist faults ⟨base, none⟩ commands events)) :
    IsSafe faults base commands events := by
  by_cases hbeg : faults.begins = true
  · exact .notBegun hbeg
  rw [Bool.not_eq_true] at hbeg
  rcases goesIn_or_stops (inserts commands events) faults.insert base with ⟨after, hall⟩ |
    ⟨before, insert, rest, reached, pending, hspl, hpre, hstop⟩
  · cases hcom : faults.commit with
    | none => exact .committed hall hcom
    | some failure =>
      have hpers := hall.persist hbeg
      rw [hcom] at hpers
      cases failure with
      | keepsTransaction =>
        have hidle := h.isIdle_of_failed (by simp [hpers, execCommit])
        rw [hpers] at hidle
        cases hidle
      | rollsBack =>
        refine .commitTakenBack hall hcom (List.eq_nil_iff_forall_not_mem.mpr ?_)
        intro command hmem
        have hins : .command command ∈ inserts commands events := command_mem_inserts.mpr hmem
        have hrow := h.acknowledged command
          (by rw [hpers]; exact onPersisted_mem_acknowledgements.mpr hins)
        rw [hpers] at hrow
        exact (hall.command_mem hins).2 hrow
  · obtain ⟨hconn, hcb, hexit⟩ := hstop.persist hbeg hspl hpre
    cases pending with
    | none =>
      refine .takenBack hspl hpre (fun command hmem => ?_) hstop
      have hrow := h.acknowledged command ((hcb command).mpr hmem)
      rw [hconn] at hrow
      exact (hpre.command_mem hmem).2 hrow
    | some tables =>
      have hidle := h.isIdle_of_failed hexit
      rw [hconn] at hidle
      cases hidle

theorem IsAtomic.isIdle
    (h : IsAtomic ⟨base, none⟩ commands events (persist faults ⟨base, none⟩ commands events)) :
    (SQLite.persist faults ⟨base, none⟩ commands events).connection.IsIdle := by
  by_cases he : (SQLite.persist faults ⟨base, none⟩ commands events).exit = .returned
  · obtain ⟨-, after, -, ha⟩ := of_persist_returned he
    rw [ha]
    rfl
  · exact h.isIdle_of_failed he

end Call

/-- One call of `persist` and what befalls its statements. -/
structure Call where
  commands : List Command
  events : List Event
  faults : Faults := {}

def Call.outcome (call : Call) (connection : Connection Tables) : Outcome :=
  persist call.faults connection call.commands call.events

/-- The calls on one connection that are all treated as one transaction. -/
def safeCalls (tables : Tables) : System (Connection Tables) :=
  System.ofGuardedStep ⟨tables, none⟩
    (fun connection call => IsSafe call.faults connection.committed call.commands call.events)
    fun connection (call : Call) => some (call.outcome connection).connection

theorem isIdle_of_reachable {tables : Tables} {connection : Connection Tables}
    (h : (safeCalls tables).Reachable connection) : connection.IsIdle := by
  refine h.invariant Connection.IsIdle (fun hi => ?_) fun hidle hstep => ?_
  · obtain rfl := hi
    rfl
  · obtain ⟨call, hs, ha⟩ := hstep
    obtain rfl := Option.some.inj ha
    rw [hidle.eq] at hs ⊢
    exact hs.isAtomic.isIdle

/-- After safe calls, a call is atomic exactly if it is safe itself. -/
theorem batches_atomic_iff {tables : Tables} {connection : Connection Tables}
    (h : (safeCalls tables).Reachable connection) (call : Call) :
    IsAtomic connection call.commands call.events (call.outcome connection) ↔
      IsSafe call.faults connection.committed call.commands call.events := by
  rw [(isIdle_of_reachable h).eq]
  exact ⟨IsAtomic.isSafe, IsSafe.isAtomic⟩

def emptyTables : Tables where
  commands := .empty
  events := .empty

/-- A command with `id` whose payload is one byte. -/
def sampleCommand (id : UInt64) : Command where
  metaData := { id }
  payload := [1]

/-- The event of the command goes in, and the command's statement ends the transaction. -/
def takenBackCall : Call where
  commands := [sampleCommand 1]
  events := [{ metaData := { id := 1, commandId := 1 }, payload := [1] }]
  faults := { insert := fun n => if n = 1 then some .rollsBack else none }

theorem batches_atomic_takenBack :
    (takenBackCall.outcome ⟨emptyTables, none⟩).exit ≠ .returned ∧
      IsAtomic ⟨emptyTables, none⟩ takenBackCall.commands takenBackCall.events
        (takenBackCall.outcome ⟨emptyTables, none⟩) := by
  refine ⟨by decide +kernel, (batches_atomic_iff (.init rfl) takenBackCall).mpr ?_⟩
  have hin : GoesIn takenBackCall.faults.insert emptyTables
      (takenBackCall.events.map .event) _ := ⟨by decide, by decide, rfl⟩
  exact .takenBack rfl hin (by simp) (.rollsBack rfl rfl)

/-- Two commands of one batch share an id: the first is answered, nothing is
committed, its row can be read, and no later call can begin. -/
theorem failed_batch_acknowledged :
    let outcome := persist {} ⟨emptyTables, none⟩ [sampleCommand 1, sampleCommand 1] []
    .onPersisted (sampleCommand 1) ∈ outcome.callbacks ∧ outcome.exit ≠ .returned ∧
      outcome.connection.committed = emptyTables ∧
      (sampleCommand 1).row ∈ outcome.connection.current.commands.rows ∧
      (persist {} outcome.connection [sampleCommand 2] []).exit ≠ .returned := by
  decide +kernel

end SQLite

end MySuperLedger
