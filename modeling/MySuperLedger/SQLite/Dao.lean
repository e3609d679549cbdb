import MySuperLedger.Collections.SortedTable
import MySuperLedger.Ledger.LogEntry
import MySuperLedger.Transactions.Connection

/-! # The SQLite store

`SQLiteStoreDao` writes commands and events as rows of two tables, whose primary
key is the id. `persist` wraps both loops into one transaction. A statement fails
because the caller of the model says so, or because the id is taken; SQLite then
either keeps the transaction (the default conflict clause, a busy database) or
has already rolled it back (a full disk, an input or output error). No path of
the source issues a `ROLLBACK`.
-/

namespace MySuperLedger

open List Option

namespace SQLite

open Ledger (CommandMetaData EventMetaData)
open Transactions (Connection Failure)
open Collections (SortedTable)

/-- A command with what `encodeToString` makes of it. -/
structure Command where
  metaData : CommandMetaData
  payload : List UInt8
  deriving DecidableEq

structure Event where
  metaData : EventMetaData
  payload : List UInt8
  deriving DecidableEq

structure CommandRow where
  id : Int64
  type : Int32
  createdTime : Int64
  creatorId : Int64
  groupId : Int64
  groupVersion : Int64
  payload : List UInt8
  deriving DecidableEq

structure EventRow where
  id : Int64
  type : Int32
  commandId : Int64
  createdTime : Int64
  creatorId : Int64
  groupId : Int64
  groupVersion : Int64
  payload : List UInt8
  deriving DecidableEq

/-- The bytes of a C string: a text bound with length -1, or read through
`const char *`, ends at its first zero byte. -/
def cString (text : List UInt8) : List UInt8 := text.takeWhile (· ≠ 0)

/-- What `persist` binds to the insert statement. The type goes through
`sqlite3_bind_int`, so only its low 32 bits do. -/
def Command.row (command : Command) : CommandRow where
  id := command.metaData.id.toInt64
  type := command.metaData.type.toInt32
  createdTime := command.metaData.createdTimeInNanos.toInt64
  creatorId := command.metaData.creatorId.toInt64
  groupId := command.metaData.groupId.toInt64
  groupVersion := command.metaData.groupVersion.toInt64
  payload := cString command.payload

def Event.row (event : Event) : EventRow where
  id := event.metaData.id.toInt64
  type := event.metaData.type.toInt32
  commandId := event.metaData.commandId.toInt64
  createdTime := event.metaData.createdTimeInNanos.toInt64
  creatorId := event.metaData.creatorId.toInt64
  groupId := event.metaData.groupId.toInt64
  groupVersion := event.metaData.groupVersion.toInt64
  payload := cString event.payload

structure Tables where
  commands : SortedTable fun row : CommandRow => row.id.toInt
  events : SortedTable fun row : EventRow => row.id.toInt
  deriving DecidableEq

/-- One turn of either loop of `persist`. -/
inductive Insert where
  | event (event : Event)
  | command (command : Command)
  deriving DecidableEq

namespace Insert

/-- The assertions at the head of the loop bodies. -/
def isNumbered : Insert → Bool
  | .event e => 0 < e.metaData.id && 0 < e.metaData.commandId
  | .command c => 0 < c.metaData.id

/-- The command `handleResultCode` is given; the event loop passes `nullptr`. -/
def command? : Insert → Option Command
  | .event _ => none
  | .command c => some c

def into (tables : Tables) : Insert → Option Tables
  | .event e => (tables.events.insert? e.row).map fun events => { tables with events }
  | .command c => (tables.commands.insert? c.row).map fun commands => { tables with commands }

end Insert

inductive Callback where
  | onPersisted (command : Command)
  | onPersistFailed (command : Command) (code : Nat)
  deriving DecidableEq

/-- How a call ends. A failed assertion takes the process down. -/
inductive Exit where
  | returned
  | threw (what : String)
  | aborted
  deriving DecidableEq

structure Outcome where
  connection : Connection Tables
  callbacks : List Callback
  exit : Exit
  deriving DecidableEq

/-- The next statement is reached only if this one returned. -/
def Outcome.andThen (first : Outcome) (next : Connection Tables → Outcome) : Outcome :=
  if first.exit = .returned then
    let second := next first.connection
    { second with callbacks := first.callbacks ++ second.callbacks }
  else first

def handleResultCode (succeeded : Bool) (command : Option Command) : List Callback × Exit :=
  if succeeded then (command.toList.map .onPersisted, .returned)
  else
    (command.toList.map (.onPersistFailed · 503),
      .threw ("Error: Failed on save or query, possible reasons: 1. table doesn't exist; " ++
        "2. failed on constraint."))

/-- `sqlite3_step` on an insert statement. -/
def stepInsert (fault : Option Failure) (connection : Connection Tables) (insert : Insert) :
    Bool × Connection Tables :=
  match fault with
  | some failure => (false, connection.fail failure)
  | none =>
    match insert.into connection.current with
    | none => (false, connection.fail .keepsTransaction)
    | some tables => (true, connection.write tables)

def persistOne (fault : Option Failure) (connection : Connection Tables) (insert : Insert) :
    Outcome :=
  if insert.isNumbered then
    let stepped := stepInsert fault connection insert
    let handled := handleResultCode stepped.1 insert.command?
    { connection := stepped.2, callbacks := handled.1, exit := handled.2 }
  else { connection := connection.rollback, callbacks := [], exit := .aborted }

/-- The loop over `inserts`; `fault` says what becomes of each statement. -/
def persistAll (fault : Nat → Option Failure) (connection : Connection Tables) :
    List Insert → Outcome
  | [] => { connection := connection, callbacks := [], exit := .returned }
  | insert :: rest =>
    (persistOne (fault 0) connection insert).andThen fun stepped =>
      persistAll (fun n => fault (n + 1)) stepped rest

def persistEvents (fault : Nat → Option Failure) (connection : Connection Tables)
    (events : List Event) : Outcome :=
  persistAll fault connection (events.map .event)

def persistCommands (fault : Nat → Option Failure) (connection : Connection Tables)
    (commands : List Command) : Outcome :=
  persistAll fault connection (commands.map .command)

/-- Which statements of one `persist` fail on their own account. -/
structure Faults where
  begins : Bool := false
  insert : Nat → Option Failure := fun _ => none
  commit : Option Failure := none

def execBegin (fault : Bool) (connection : Connection Tables) : Outcome :=
  let refused : Outcome :=
    { connection := connection
      callbacks := []
      exit := .threw "Cannot persist commands and events, error when starting transaction" }
  if fault then refused
  else
    match connection.begin? with
    | none => refused
    | some opened => { connection := opened, callbacks := [], exit := .returned }

def execCommit (fault : Option Failure) (connection : Connection Tables) : Outcome :=
  match fault with
  | none => { connection := connection.commit, callbacks := [], exit := .returned }
  | some failure =>
    { connection := connection.fail failure
      callbacks := []
      exit := .threw "Cannot persist commands and events, error when committing transaction" }

def persist (faults : Faults) (connection : Connection Tables) (commands : List Command)
    (events : List Event) : Outcome :=
  (((execBegin faults.begins connection).andThen fun opened =>
    persistEvents faults.insert opened events).andThen fun stored =>
      persistCommands (fun n => faults.insert (events.length + n)) stored commands).andThen
        (execCommit faults.commit)

namespace Outcome

@[simp] theorem andThen_returned (connection : Connection Tables) (callbacks : List Callback)
    (next : Connection Tables → Outcome) :
    (Outcome.mk connection callbacks .returned).andThen next =
      { next connection with callbacks := callbacks ++ (next connection).callbacks } := rfl

theorem andThen_of_ne {first : Outcome} (h : first.exit ≠ .returned)
    (next : Connection Tables → Outcome) : first.andThen next = first := by
  rw [andThen, if_neg h]

theorem andThen_assoc (first : Outcome) (second third : Connection Tables → Outcome) :
    (first.andThen second).andThen third =
      first.andThen fun connection => (second connection).andThen third := by
  by_cases hf : first.exit = .returned
  · by_cases hs : (second first.connection).exit = .returned <;> simp [andThen, hf, hs]
  · simp [andThen, hf]

end Outcome

theorem persistAll_append (before : List Insert) :
    ∀ (fault : Nat → Option Failure) (connection : Connection Tables) (rest : List Insert),
      persistAll fault connection (before ++ rest) =
        (persistAll fault connection before).andThen fun stored =>
          persistAll (fun n => fault (before.length + n)) stored rest := by
  induction before with
  | nil =>
    intro fault connection rest
    simp [persistAll]
  | cons insert before ih =>
    intro fault connection rest
    simp only [cons_append, persistAll, Outcome.andThen_assoc, ih, length_cons]
    congr 2
    funext stepped
    congr 2
    funext stored
    congr 1
    funext n
    congr 1
    omega

/-- The statements of a batch in the order they are executed. -/
def inserts (commands : List Command) (events : List Event) : List Insert :=
  events.map .event ++ commands.map .command

theorem persist_eq (faults : Faults) (connection : Connection Tables) (commands : List Command)
    (events : List Event) :
    persist faults connection commands events =
      (execBegin faults.begins connection).andThen fun opened =>
        (persistAll faults.insert opened (inserts commands events)).andThen
          (execCommit faults.commit) := by
  simp only [persist, persistEvents, persistCommands, inserts, persistAll_append,
    Outcome.andThen_assoc, length_map]

/-- The rows of `inserts` all go into the tables, which become `after`. -/
structure GoesIn (fault : Nat → Option Failure) (tables : Tables) (inserts : List Insert)
    (after : Tables) : Prop where
  isNumbered : ∀ insert ∈ inserts, insert.isNumbered = true
  fault_eq : ∀ n < inserts.length, fault n = none
  rows : inserts.foldlM Insert.into tables = some after

theorem GoesIn.nil (fault : Nat → Option Failure) (tables : Tables) :
    GoesIn fault tables [] tables where
  isNumbered := by simp
  fault_eq := by simp
  rows := rfl

variable {tables after : Tables} {insert : Insert}

theorem goesIn_cons_iff {fault : Nat → Option Failure} {rest : List Insert} :
    GoesIn fault tables (insert :: rest) after ↔ insert.isNumbered = true ∧ fault 0 = none ∧
        ∃ middle, insert.into tables = some middle ∧
          GoesIn (fun n => fault (n + 1)) middle rest after := by
  constructor
  · intro h
    have hrows := h.rows
    rw [foldlM_cons, bind_eq_bind, bind_eq_some_iff] at hrows
    obtain ⟨middle, hi, hr⟩ := hrows
    refine ⟨h.isNumbered insert mem_cons_self, h.fault_eq 0 (by simp), middle, hi, ?_⟩
    exact ⟨fun other ho => h.isNumbered other (mem_cons_of_mem _ ho),
      fun n hn => h.fault_eq (n + 1) (by simpa using hn), hr⟩
  · rintro ⟨hnum, hf, middle, hi, hr⟩
    refine ⟨?_, fun n hn => ?_, ?_⟩
    · simpa [hnum] using hr.isNumbered
    · cases n with
      | zero => exact hf
      | succ n => exact hr.fault_eq n (by simpa using hn)
    · rw [foldlM_cons, hi]
      exact hr.rows

/-- The callbacks of statements that all succeed. -/
def acknowledgements (inserts : List Insert) : List Callback :=
  (inserts.filterMap Insert.command?).map .onPersisted

theorem persistOne_of_into {fault : Option Failure} {base : Tables}
    (hn : insert.isNumbered = true) (hf : fault = none) (hi : insert.into tables = some after) :
    persistOne fault ⟨base, some tables⟩ insert =
      ⟨⟨base, some after⟩, acknowledgements [insert], .returned⟩ := by
  subst hf
  cases insert <;> simp [persistOne, hn, stepInsert, hi, handleResultCode, acknowledgements,
      Insert.command?]

theorem GoesIn.persistAll {fault : Nat → Option Failure} {base : Tables} {inserts : List Insert} :
    ∀ {tables : Tables} (_ : GoesIn fault tables inserts after),
      persistAll fault ⟨base, some tables⟩ inserts =
        ⟨⟨base, some after⟩, acknowledgements inserts, .returned⟩ := by
  induction inserts generalizing fault with
  | nil =>
    intro tables h
    obtain rfl : tables = after := some.inj h.rows
    rfl
  | cons insert rest ih =>
    intro tables h
    obtain ⟨hn, hf, middle, hi, hr⟩ := goesIn_cons_iff.mp h
    rw [SQLite.persistAll, persistOne_of_into hn hf hi, Outcome.andThen_returned,
      ih hr, acknowledgements, acknowledgements, acknowledgements, ← map_append,
      ← filterMap_append, singleton_append]

/-- What the first failing statement leaves of the connection. -/
inductive Stops (fault : Option Failure) (tables : Tables) (insert : Insert) : Option Tables → Prop
  | aborts : insert.isNumbered = false → Stops fault tables insert none
  | rollsBack : insert.isNumbered = true → fault = some .rollsBack →
      Stops fault tables insert none
  | keeps : insert.isNumbered = true →
      fault = some .keepsTransaction ∨ fault = none ∧ insert.into tables = none →
      Stops fault tables insert (some tables)

theorem Stops.persistOne {fault : Option Failure} {pending : Option Tables}
    (h : Stops fault tables insert pending) (base : Tables) :
    ∃ callbacks exit,
      persistOne fault ⟨base, some tables⟩ insert = ⟨⟨base, pending⟩, callbacks, exit⟩ ∧
        (∀ command, .onPersisted command ∉ callbacks) ∧ exit ≠ .returned := by
  cases h with
  | aborts hn => simp [SQLite.persistOne, hn]
  | rollsBack hn hf =>
    simp [SQLite.persistOne, hn, hf, stepInsert, Connection.fail, handleResultCode]
  | keeps hn hf =>
    rcases hf with hf | ⟨hf, hi⟩
    · simp [SQLite.persistOne, hn, hf, stepInsert, Connection.fail, handleResultCode]
    · simp [SQLite.persistOne, hn, hf, hi, stepInsert, Connection.fail, handleResultCode]

/-- Either every row goes in, or there is a first statement that fails. -/
theorem goesIn_or_stops (inserts : List Insert) :
    ∀ (fault : Nat → Option Failure) (tables : Tables),
      (∃ after, GoesIn fault tables inserts after) ∨
        ∃ before insert rest reached pending, inserts = before ++ insert :: rest ∧
          GoesIn fault tables before reached ∧
          Stops (fault before.length) reached insert pending := by
  induction inserts with
  | nil => exact fun fault tables => .inl ⟨tables, GoesIn.nil fault tables⟩
  | cons insert rest ih =>
    intro fault tables
    by_cases hstop : ∃ pending, Stops (fault 0) tables insert pending
    · obtain ⟨pending, hstop⟩ := hstop
      exact .inr ⟨[], insert, rest, tables, pending, rfl, GoesIn.nil fault tables, hstop⟩
    · obtain ⟨hnum, hflt, middle, hinto⟩ :
          insert.isNumbered = true ∧ fault 0 = none ∧
            ∃ middle, insert.into tables = some middle := by
        by_contra hbad
        apply hstop
        cases hnum : insert.isNumbered with
        | false => exact ⟨none, .aborts hnum⟩
        | true =>
          cases hflt : fault 0 with
          | some failure =>
            cases failure with
            | rollsBack => exact ⟨none, .rollsBack hnum rfl⟩
            | keepsTransaction => exact ⟨some tables, .keeps hnum (.inl rfl)⟩
          | none =>
            cases hinto : insert.into tables with
            | none => exact ⟨some tables, .keeps hnum (.inr ⟨rfl, hinto⟩)⟩
            | some middle => exact absurd ⟨hnum, hflt, middle, hinto⟩ hbad
      rcases ih (fun n => fault (n + 1)) middle with ⟨after, hrest⟩ |
        ⟨before, failing, later, reached, pending, rfl, hpre, hfail⟩
      · exact .inl ⟨after, goesIn_cons_iff.mpr ⟨hnum, hflt, middle, hinto, hrest⟩⟩
      · exact .inr ⟨insert :: before, failing, later, reached, pending, rfl,
          goesIn_cons_iff.mpr ⟨hnum, hflt, middle, hinto, hpre⟩, hfail⟩

structure Tables.Within (tables after : Tables) : Prop where
  commands : tables.commands.rows ⊆ after.commands.rows
  events : tables.events.rows ⊆ after.events.rows

theorem Tables.Within.refl (tables : Tables) : tables.Within tables where
  commands := List.Subset.refl _
  events := List.Subset.refl _

theorem Tables.Within.trans {middle : Tables} (hf : tables.Within middle)
    (hs : middle.Within after) : tables.Within after where
  commands := List.Subset.trans hf.commands hs.commands
  events := List.Subset.trans hf.events hs.events

namespace Insert

variable {tables after : Tables}

theorem within_into {insert : Insert} (h : insert.into tables = some after) :
    tables.Within after := by
  cases insert with
  | event e =>
    obtain ⟨rows, hr, rfl⟩ := map_eq_some_iff.mp h
    exact ⟨List.Subset.refl _, fun row hrow =>
      ((SortedTable.insert?_eq_some hr).2 row).mpr (.inr hrow)⟩
  | command c =>
    obtain ⟨rows, hr, rfl⟩ := map_eq_some_iff.mp h
    exact ⟨fun row hrow => ((SortedTable.insert?_eq_some hr).2 row).mpr (.inr hrow),
      List.Subset.refl _⟩

theorem command_into {command : Command} (h : (Insert.command command).into tables = some after) :
    command.row ∈ after.commands.rows ∧ command.row ∉ tables.commands.rows := by
  obtain ⟨rows, hr, rfl⟩ := map_eq_some_iff.mp h
  obtain ⟨hn, hm⟩ := SortedTable.insert?_eq_some hr
  exact ⟨(hm _).mpr (.inl rfl), fun ho => hn _ ho rfl⟩

theorem event_into {event : Event} (h : (Insert.event event).into tables = some after) :
    event.row ∈ after.events.rows := by
  obtain ⟨rows, hr, rfl⟩ := map_eq_some_iff.mp h
  exact ((SortedTable.insert?_eq_some hr).2 _).mpr (.inl rfl)

end Insert

namespace GoesIn

variable {fault : Nat → Option Failure} {tables after : Tables} {inserts : List Insert}

section

variable (h : GoesIn fault tables inserts after)
include h

theorem within : tables.Within after := by
  induction inserts generalizing fault tables with
  | nil =>
    obtain rfl : tables = after := some.inj h.rows
    exact Tables.Within.refl tables
  | cons insert rest ih =>
    obtain ⟨-, -, middle, hi, hr⟩ := goesIn_cons_iff.mp h
    exact (Insert.within_into hi).trans (ih hr)

theorem command_mem {command : Command} (hm : .command command ∈ inserts) :
    command.row ∈ after.commands.rows ∧ command.row ∉ tables.commands.rows := by
  induction inserts generalizing fault tables with
  | nil => cases hm
  | cons insert rest ih =>
    obtain ⟨-, -, middle, hi, hr⟩ := goesIn_cons_iff.mp h
    rcases mem_cons.mp hm with rfl | hl
    · have hrow := Insert.command_into hi
      exact ⟨hr.within.commands hrow.1, hrow.2⟩
    · have hrow := ih hr hl
      exact ⟨hrow.1, fun ho => hrow.2 ((Insert.within_into hi).commands ho)⟩

theorem event_mem {event : Event}
    (hm : .event event ∈ inserts) : event.row ∈ after.events.rows := by
  induction inserts generalizing fault tables with
  | nil => cases hm
  | cons insert rest ih =>
    obtain ⟨-, -, middle, hi, hr⟩ := goesIn_cons_iff.mp h
    rcases mem_cons.mp hm with rfl | hl
    · exact hr.within.events (Insert.event_into hi)
    · exact ih hr hl

end

end GoesIn

theorem onPersisted_mem_acknowledgements {command : Command} {inserts : List Insert} :
    .onPersisted command ∈ acknowledgements inserts ↔ .command command ∈ inserts := by
  unfold acknowledgements
  rw [List.mem_map]
  constructor
  · rintro ⟨_, hm, heq⟩
    obtain rfl := Callback.onPersisted.inj heq
    obtain ⟨insert, hi, hc⟩ := List.mem_filterMap.mp hm
    cases insert with
    | event e => cases hc
    | command c =>
      obtain rfl := Option.some.inj hc
      exact hi
  · exact fun hm => ⟨command, List.mem_filterMap.mpr ⟨_, hm, rfl⟩, rfl⟩

section Call

variable {faults : Faults} {base : Tables} {commands : List Command} {events : List Event}

theorem persist_of_fault (connection : Connection Tables) (commands : List Command)
    (events : List Event) (hb : faults.begins = true) :
    (persist faults connection commands events).connection = connection ∧
      (persist faults connection commands events).callbacks = [] ∧
      (persist faults connection commands events).exit ≠ .returned := by
  rw [persist_eq, Outcome.andThen_of_ne] <;> simp [execBegin, hb]

theorem persist_of_open (pending : Tables) :
    (persist faults ⟨base, some pending⟩ commands events).connection = ⟨base, some pending⟩ ∧
      (persist faults ⟨base, some pending⟩ commands events).exit ≠ .returned := by
  have hr : (execBegin faults.begins ⟨base, some pending⟩).connection = ⟨base, some pending⟩ ∧
      (execBegin faults.begins ⟨base, some pending⟩).exit ≠ .returned := by
    cases hf : faults.begins <;> simp [execBegin]
  rw [persist_eq, Outcome.andThen_of_ne hr.2]
  exact hr

theorem persist_of_begins (hb : faults.begins = false) :
    persist faults ⟨base, none⟩ commands events =
      (persistAll faults.insert ⟨base, some base⟩ (inserts commands events)).andThen
        (execCommit faults.commit) := by
  rw [persist_eq, hb]
  rfl

theorem GoesIn.persist {after : Tables} (hb : faults.begins = false)
    (h : GoesIn faults.insert base (inserts commands events) after) :
    persist faults ⟨base, none⟩ commands events =
      { execCommit faults.commit ⟨base, some after⟩ with
        callbacks := acknowledgements (inserts commands events) } := by
  rw [persist_of_begins hb, h.persistAll, Outcome.andThen_returned]
  cases hc : faults.commit <;> simp [execCommit]

theorem Stops.persist {before rest : List Insert} {insert : Insert} {reached : Tables}
    {pending : Option Tables} (hb : faults.begins = false)
    (hs : inserts commands events = before ++ insert :: rest)
    (hp : GoesIn faults.insert base before reached)
    (h : Stops (faults.insert before.length) reached insert pending) :
    (persist faults ⟨base, none⟩ commands events).connection = ⟨base, pending⟩ ∧
      (∀ command, .onPersisted command ∈
        (SQLite.persist faults ⟨base, none⟩ commands events).callbacks ↔
          .command command ∈ before) ∧
      (SQLite.persist faults ⟨base, none⟩ commands events).exit ≠ .returned := by
  obtain ⟨callbacks, exit, ho, hcb, he⟩ := h.persistOne base
  have ha : persistAll faults.insert ⟨base, some base⟩ (inserts commands events) =
      ⟨⟨base, pending⟩, acknowledgements before ++ callbacks, exit⟩ := by
    rw [hs, persistAll_append, hp.persistAll, Outcome.andThen_returned, persistAll,
      Nat.add_zero, ho, Outcome.andThen_of_ne he]
  rw [persist_of_begins hb, ha, Outcome.andThen_of_ne he]
  refine ⟨rfl, fun command => ?_, he⟩
  rw [mem_append, onPersisted_mem_acknowledgements]
  exact or_iff_left (hcb command)

/-- A call that returns found the connection idle and has committed the whole batch. -/
theorem of_persist_returned {connection : Connection Tables}
    (h : (persist faults connection commands events).exit = .returned) :
    connection.IsIdle ∧ ∃ after,
      GoesIn faults.insert connection.committed (inserts commands events) after ∧
        (persist faults connection commands events).connection = ⟨after, none⟩ := by
  obtain ⟨base, pending⟩ := connection
  cases pending with
  | some tables => exact absurd h (persist_of_open tables).2
  | none =>
    by_cases hb : faults.begins = true
    · exact absurd h (persist_of_fault _ _ _ hb).2.2
    rw [Bool.not_eq_true] at hb
    rcases goesIn_or_stops (inserts commands events) faults.insert base with ⟨after, ha⟩ |
      ⟨_, _, _, _, _, hspl, hp, hs⟩
    · refine ⟨rfl, after, ha, ?_⟩
      rw [ha.persist hb] at h ⊢
      cases hc : faults.commit <;> simp_all [execCommit]
    · exact absurd h (hs.persist hb hspl hp).2.2

end Call

end SQLite

end MySuperLedger
