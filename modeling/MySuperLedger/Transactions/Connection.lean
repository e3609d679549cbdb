import Mathlib.Logic.Basic

/-! # One connection to a transactional store

The store holds its committed data. A connection that has begun a transaction
also holds what the transaction has made of the data so far, which is what reads
on that connection see. A statement that fails either leaves the transaction
open or takes it back. Connection
-/

namespace Transactions

structure Connection (Data : Type) where
  committed : Data
  pending : Option Data := none
  deriving DecidableEq

inductive Failure where
  | keepsTransaction
  | rollsBack
  deriving DecidableEq

namespace Connection

variable {Data : Type}

variable (connection : Connection Data)

def current : Data :=
  connection.pending.getD connection.committed

def IsIdle : Prop := connection.pending = none

instance : Decidable connection.IsIdle :=
  decidable_of_iff (connection.pending.isNone = true) Option.isNone_iff_eq_none

/-- Transactions do not nest. -/
def begin? : Option (Connection Data) :=
  match connection.pending with
  | none => some { connection with pending := some connection.committed }
  | some _ => none

/-- A write outside a transaction is committed at once. -/
def write (data : Data) : Connection Data :=
  match connection.pending with
  | none => { connection with committed := data }
  | some _ => { connection with pending := some data }

def commit : Connection Data where
  committed := connection.current

def rollback : Connection Data where
  committed := connection.committed

def fail : Failure → Connection Data
  | .keepsTransaction => connection
  | .rollsBack => connection.rollback

@[simp] theorem current_idle (data : Data) : (mk data none).current = data := rfl

@[simp] theorem current_open (base data : Data) :
    (mk base (some data)).current = data := rfl

@[simp] theorem begin?_idle (data : Data) :
    (mk data none).begin? = some ⟨data, some data⟩ := rfl

@[simp] theorem begin?_open (base data : Data) :
    (mk base (some data)).begin? = none := rfl

@[simp] theorem write_open (base data after : Data) :
    (mk base (some data)).write after = ⟨base, some after⟩ := rfl

@[simp] theorem commit_open (base data : Data) :
    (mk base (some data)).commit = ⟨data, none⟩ := rfl

@[simp] theorem rollback_mk (base : Data) (pending : Option Data) :
    (mk base pending).rollback = ⟨base, none⟩ := rfl

@[simp] theorem isIdle_mk_none (data : Data) : (mk data none).IsIdle := rfl

theorem IsIdle.eq {connection : Connection Data} (h : connection.IsIdle) :
    connection = ⟨connection.committed, none⟩ := by
  obtain ⟨committed, pending⟩ := connection
  obtain rfl : pending = none := h
  rfl

end Connection

end Transactions
