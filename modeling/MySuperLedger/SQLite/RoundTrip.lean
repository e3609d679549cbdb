import Mathlib.Data.List.TakeWhile
import MySuperLedger.SQLite.Atomicity

/-! # Reading rows back

The three queries hand the decoder what is left of a command or an event after
both ways through the table. Ids, times and group numbers survive the signed
columns; a payload loses what follows its first zero byte, a type its high bits,
and the tracking context has no column.
-/

namespace MySuperLedger

open List

namespace SQLite

open Ledger (CommandMetaData EventMetaData)
open Transactions (Connection)
open Transition (System)
open Collections (SortedTable)

def populateCommand (row : CommandRow) : CommandMetaData × List UInt8 :=
  ({ id := row.id.toUInt64
     type := row.type.toInt64
     createdTimeInNanos := row.createdTime.toUInt64
     creatorId := row.creatorId.toUInt64
     groupId := row.groupId.toUInt64
     groupVersion := row.groupVersion.toUInt64 }, cString row.payload)

def populateEvent (row : EventRow) : EventMetaData × List UInt8 :=
  ({ id := row.id.toUInt64
     type := row.type.toInt64
     commandId := row.commandId.toUInt64
     createdTimeInNanos := row.createdTime.toUInt64
     creatorId := row.creatorId.toUInt64
     groupId := row.groupId.toUInt64
     groupVersion := row.groupVersion.toUInt64 }, cString row.payload)

/-- What `findNextCommand` hands the decoder. -/
def findNextCommand (connection : Connection Tables) (id : UInt64) :
    Option (CommandMetaData × List UInt8) :=
  (connection.current.commands.next? id.toInt64.toInt).map populateCommand

def findNextEvent (connection : Connection Tables) (id : UInt64) :
    Option (EventMetaData × List UInt8) :=
  (connection.current.events.next? id.toInt64.toInt).map populateEvent

def getEventsByCommandId (connection : Connection Tables) (id : UInt64) :
    List (EventMetaData × List UInt8) :=
  (connection.current.events.rows.filter fun row => row.commandId = id.toInt64).map populateEvent

/-- What both ways through a row leave as it was. -/
structure IsPlain (type : Int64) (trackingContext : String) (payload : List UInt8) : Prop where
  payload_ne : 0 ∉ payload
  type_le : -2 ^ 31 ≤ type.toInt
  type_lt : type.toInt < 2 ^ 31
  trackingContext_eq : trackingContext = ""

theorem cString_cString (text : List UInt8) : cString (cString text) = cString text := by
  simp [cString, takeWhile_idem]

theorem cString_eq_self_iff {text : List UInt8} : cString text = text ↔ 0 ∉ text := by
  rw [cString, takeWhile_eq_self_iff]
  constructor
  · intro h hz
    simpa using h 0 hz
  · intro h byte hb
    have hne : byte ≠ 0 := fun heq => h (heq ▸ hb)
    simpa using hne

theorem toInt64_toInt32_eq_iff {type : Int64} :
    type.toInt32.toInt64 = type ↔ -2 ^ 31 ≤ type.toInt ∧ type.toInt < 2 ^ 31 := by
  rw [← Int64.toInt_inj, Int32.toInt_toInt64, Int64.toInt_toInt32]
  constructor
  · intro h
    have hle := Int.le_bmod (x := type.toInt) (m := 2 ^ 32) (by decide)
    have hlt := Int.bmod_lt (x := type.toInt) (m := 2 ^ 32) (by decide)
    omega
  · intro h
    exact Int.bmod_eq_of_le (by omega) (by omega)

theorem populateCommand_row_iff {command : Command} :
    populateCommand command.row = (command.metaData, command.payload) ↔
      IsPlain command.metaData.type command.metaData.trackingContext command.payload := by
  obtain ⟨⟨id, type, time, creator, group, version, context⟩, payload⟩ := command
  simp only [populateCommand, Command.row, cString_cString, Prod.mk.injEq,
    CommandMetaData.mk.injEq, UInt64.toUInt64_toInt64, true_and, cString_eq_self_iff,
    toInt64_toInt32_eq_iff]
  exact ⟨fun h => ⟨h.2, h.1.1.1, h.1.1.2, h.1.2.symm⟩,
    fun h => ⟨⟨⟨h.type_le, h.type_lt⟩, h.trackingContext_eq.symm⟩, h.payload_ne⟩⟩

variable {event : Event} {id : UInt64} {connection : Connection Tables} {tables : Tables}

theorem populateEvent_row_iff : populateEvent event.row = (event.metaData, event.payload) ↔
      IsPlain event.metaData.type event.metaData.trackingContext event.payload := by
  obtain ⟨⟨id, type, commandId, time, creator, group, version, context⟩, payload⟩ := event
  simp only [populateEvent, Event.row, cString_cString, Prod.mk.injEq,
    EventMetaData.mk.injEq, UInt64.toUInt64_toInt64, true_and, cString_eq_self_iff,
    toInt64_toInt32_eq_iff]
  exact ⟨fun h => ⟨h.2, h.1.1.1, h.1.1.2, h.1.2.symm⟩,
    fun h => ⟨⟨⟨h.type_le, h.type_lt⟩, h.trackingContext_eq.symm⟩, h.payload_ne⟩⟩

theorem exists_lt_iff :
    (∃ bound : UInt64, bound.toInt64.toInt < id.toInt64.toInt) ↔ id.toNat ≠ 2 ^ 63 := by
  have hm : id.toNat = 2 ^ 63 ↔ id.toInt64.toInt = -2 ^ 63 := by
    have hlt := id.toNat_lt
    have hb : id.toInt64.toInt = (id.toNat : Int).bmod (2 ^ 64) :=
      BitVec.toInt_eq_toNat_bmod _
    rw [hb, Int.bmod]
    split <;> omega
  rw [Ne, hm]
  constructor
  · rintro ⟨bound, hbd⟩
    have hle := bound.toInt64.le_toInt
    omega
  · intro hne
    have hle := id.toInt64.le_toInt
    have hm : Int64.minValue.toInt = -2 ^ 63 := rfl
    refine ⟨Int64.minValue.toUInt64, ?_⟩
    rw [Int64.toInt64_toUInt64, hm]
    omega

/-- The query reaches the row of `original`, and whenever it does it hands on `original`. -/
def ComesBack {Handed : Type} (find : UInt64 → Option Handed) (reaches : UInt64 → Prop)
    (original : Handed) : Prop :=
  (∃ id, reaches id) ∧ ∀ id, reaches id → find id = some original

theorem comesBack_iff {Row Handed : Type} {key : Row → Int} {table : SortedTable key}
    {populate : Row → Handed} {row : Row} {original : Handed} (hrow : row ∈ table.rows)
    (hkey : key row = id.toInt64.toInt) :
    ComesBack (fun bound => (table.next? bound.toInt64.toInt).map populate)
        (fun bound => table.next? bound.toInt64.toInt = some row) original ↔
      populate row = original ∧ id.toNat ≠ 2 ^ 63 := by
  have hreac : (∃ bound : UInt64, table.next? bound.toInt64.toInt = some row) ↔
      id.toNat ≠ 2 ^ 63 := by
    rw [← exists_lt_iff, ← hkey]
    constructor
    · rintro ⟨bound, hbd⟩
      exact ⟨bound, (table.next?_eq_some_iff.mp hbd).2.1⟩
    · rintro ⟨bound, hbd⟩
      -- the value just below the key is a column value too
      have hle := bound.toInt64.le_toInt
      have hlt := id.toInt64.toInt_lt
      refine ⟨(Int64.ofInt (key row - 1)).toUInt64, table.next?_eq_some_iff.mpr ?_⟩
      rw [Int64.toInt64_toUInt64, Int64.toInt_ofInt_of_le (by omega) (by omega)]
      exact ⟨hrow, by omega, fun other _ hoth => by omega⟩
  unfold ComesBack
  rw [hreac, and_comm]
  constructor
  · intro h
    obtain ⟨bound, hbd⟩ := hreac.mpr h.2
    have hfnd : (table.next? bound.toInt64.toInt).map populate = some original :=
      h.1 bound hbd
    rw [hbd] at hfnd
    exact ⟨Option.some.inj hfnd, h.2⟩
  · intro h
    refine ⟨fun bound hbd => ?_, h.2⟩
    have hmap := congrArg (Option.map populate) hbd
    rw [← h.1]
    exact hmap

theorem mem_getEventsByCommandId_iff (hr : event.row ∈ connection.current.events.rows) :
    (event.metaData, event.payload) ∈ getEventsByCommandId connection event.metaData.commandId ↔
      populateEvent event.row = (event.metaData, event.payload) := by
  unfold getEventsByCommandId
  rw [mem_map]
  constructor
  · rintro ⟨row, hf, heq⟩
    -- the row has the event's id, and only one row does
    have hid : row.id.toUInt64 = event.metaData.id :=
      congrArg (fun ha => ha.1.id) heq
    have hk : row.id.toInt = event.row.id.toInt := by
      rw [← Int64.toInt64_toUInt64 row.id, hid]
      rfl
    have hm := (mem_filter.mp hf).1
    rw [connection.current.events.eq_of_key_eq hm hr hk] at heq
    exact heq
  · intro h
    exact ⟨event.row, mem_filter.mpr ⟨hr, by simp [Event.row]⟩, h⟩

def calls (start : Connection Tables) : System (Connection Tables) :=
  System.ofStep start fun connection (call : Call) => some (call.outcome connection).connection

structure Holds (tables : Tables) (connection : Connection Tables) : Prop where
  committed : tables.Within connection.committed
  current : tables.Within connection.current

theorem Holds.idle {base : Tables} (h : tables.Within base) : Holds tables ⟨base, none⟩ :=
  ⟨h, h⟩

theorem Holds.persist (h : Holds tables connection) (faults : Faults) (commands : List Command)
    (events : List Event) :
    Holds tables (persist faults connection commands events).connection := by
  obtain ⟨base, pending⟩ := connection
  cases pending with
  | some reached =>
    rw [(persist_of_open reached).1]
    exact h
  | none =>
    have hbase : tables.Within base := h.committed
    by_cases hbeg : faults.begins = true
    · rw [(persist_of_fault _ commands events hbeg).1]
      exact h
    rw [Bool.not_eq_true] at hbeg
    rcases goesIn_or_stops (inserts commands events) faults.insert base with ⟨after, hall⟩ |
      ⟨before, insert, rest, reached, pending, hspl, hpre, hstop⟩
    · have haft := hbase.trans hall.within
      rw [hall.persist hbeg]
      cases hcom : faults.commit with
      | none => exact Holds.idle haft
      | some failure =>
        cases failure with
        | keepsTransaction => exact ⟨hbase, haft⟩
        | rollsBack => exact Holds.idle hbase
    · rw [(hstop.persist hbeg hspl hpre).1]
      cases hstop with
      | aborts _ | rollsBack _ _ => exact Holds.idle hbase
      | keeps _ _ => exact ⟨hbase, hbase.trans hpre.within⟩

theorem holds_of_runs {call : Call} {later : Connection Tables}
    (hr : (call.outcome connection).exit = .returned)
    (hl : (calls connection).Runs (call.outcome connection).connection later) :
    ∃ after, GoesIn call.faults.insert connection.committed
      (inserts call.commands call.events) after ∧ Holds after later := by
  obtain ⟨-, after, ha, haft⟩ := of_persist_returned hr
  refine ⟨after, ha, hl.invariant (Holds after) (fun hh hs => ?_) ?_⟩
  · obtain ⟨next, hn⟩ := hs
    obtain rfl := Option.some.inj hn
    exact hh.persist _ _ _
  · have hc : (call.outcome connection).connection = ⟨after, none⟩ := haft
    rw [hc]
    exact Holds.idle (Tables.Within.refl after)

/-- Of a batch that was stored, the plain rows come back, but for the one id that no
query with a smaller id reaches. Later calls change nothing about it. -/
theorem stored_comes_back_iff {call : Call} {connection later : Connection Tables}
    (hreturned : (call.outcome connection).exit = .returned)
    (hlater : (calls connection).Runs (call.outcome connection).connection later) :
    (∀ command ∈ call.commands, ComesBack (findNextCommand later)
          (fun id => later.current.commands.next? id.toInt64.toInt = some command.row)
          (command.metaData, command.payload) ↔
        IsPlain command.metaData.type command.metaData.trackingContext command.payload ∧
          command.metaData.id.toNat ≠ 2 ^ 63) ∧
      ∀ event ∈ call.events, (ComesBack (findNextEvent later)
            (fun id => later.current.events.next? id.toInt64.toInt = some event.row)
            (event.metaData, event.payload) ↔
          IsPlain event.metaData.type event.metaData.trackingContext event.payload ∧
            event.metaData.id.toNat ≠ 2 ^ 63) ∧
        ((event.metaData, event.payload) ∈ getEventsByCommandId later event.metaData.commandId ↔
          IsPlain event.metaData.type event.metaData.trackingContext event.payload) := by
  obtain ⟨after, ha, hh⟩ := holds_of_runs hreturned hlater
  constructor
  · intro command hc
    have hr := hh.current.commands (ha.command_mem (command_mem_inserts.mpr hc)).1
    rw [← populateCommand_row_iff]
    exact comesBack_iff hr rfl
  · intro event hev
    have hr := hh.current.events (ha.event_mem (event_mem_inserts.mpr hev))
    rw [← populateEvent_row_iff]
    exact ⟨comesBack_iff hr rfl, mem_getEventsByCommandId_iff hr⟩

/-- A command and an event of one batch, both with a zero byte in the payload. -/
def zeroByteCall : Call where
  commands := [{ metaData := { id := 1 }, payload := [8, 0, 16] }]
  events := [{ metaData := { id := 1, commandId := 1 }, payload := [8, 0, 16] }]

def plainCall : Call where
  commands := [{ metaData := { id := 1 }, payload := [8, 16] }]
  events := []

theorem plain_command_comes_back :
    ComesBack (findNextCommand (plainCall.outcome ⟨emptyTables, none⟩).connection)
      (fun id => (plainCall.outcome ⟨emptyTables, none⟩).connection.current.commands.next?
        id.toInt64.toInt = some (Command.mk { id := 1 } [8, 16]).row)
      ({ id := 1 }, [8, 16]) := by
  have hr : (plainCall.outcome ⟨emptyTables, none⟩).exit = .returned := by decide +kernel
  have hi := stored_comes_back_iff hr (System.Runs.refl _ _)
  exact (hi.1 _ mem_cons_self).mpr ⟨⟨by decide, by decide, by decide, rfl⟩, by decide⟩

theorem zero_byte_cuts_payload :
    let connection := (zeroByteCall.outcome ⟨emptyTables, none⟩).connection
    (zeroByteCall.outcome ⟨emptyTables, none⟩).exit = .returned ∧
      findNextCommand connection 0 = some ({ id := 1 }, [8]) ∧
      findNextEvent connection 0 = some ({ id := 1, commandId := 1 }, [8]) ∧
      getEventsByCommandId connection 1 = [({ id := 1, commandId := 1 }, [8])] := by
  decide +kernel

end SQLite

end MySuperLedger
