import MySuperLedger.Raft.Answers
import MySuperLedger.Replica.Process

/-! # Reading committed entries ahead

`ReadonlyRaftCommandEventStore` hands out the committed entries of raft as
bundles. In its asynchronous mode a load thread puts batches of entries into a
queue of tasks, decrypt threads work on the tasks in any order, and
`loadNextCommandEvents` takes the oldest task once it is done. In its synchronous
mode the consumer reads and decrypts by itself. `teardown` joins the threads and
empties everything; `setCurrentOffset` and `init` start again.

Here every access to something that another thread may change is a step of its
own, while `Replica.Process` takes a round of a thread as one step. What happens
under the lock is one step. `none` is a step that a thread cannot take, because
it has ended, waits for a join, or fails an assertion. The waits between two
rounds are left out, and so are `loadNextEvent` and `loadCommandEventsList`.
-/

namespace MySuperLedger.Reader

open Ledger (Bundle)
open Raft Replica Transition

/-- The log of a node as its readers see it. The entries before `firstIndex` are truncated
away. What is committed fits into one read and can be decoded; a read ends with the segment
that holds its first entry, and `room` entries are left there. -/
structure RaftView (config : Config RaftPayload) where
  history : List Entry
  firstIndex : Nat
  commitIndex : Nat
  room : Nat → Nat
  firstIndex_pos : 1 ≤ firstIndex
  firstIndex_le : firstIndex ≤ history.length + 1
  commitIndex_le : commitIndex ≤ history.length
  room_pos : ∀ index, 1 ≤ room index
  fits : ∀ entry ∈ history.take commitIndex, config.byteSize entry ≤ config.maxLenInBytes
  decodes : (decryptEntries (history.take commitIndex)).isSome = true

namespace RaftView

variable {config : Config RaftPayload}

def committed (view : RaftView config) : List Entry := view.history.take view.commitIndex

def log (view : RaftView config) : Log 1 RaftPayload where
  firstIndex := view.firstIndex
  entries := view.history.drop (view.firstIndex - 1)
  currentTerm := 0
  voteFor := none
  votes := []

/-- `RaftCore::getEntries`. -/
def getEntries (view : RaftView config) (startIndex size : Nat) : Option (List Entry) :=
  if startIndex + size - 1 ≤ view.commitIndex then
    view.log.getEntries config.byteSize startIndex config.maxLenInBytes size
      (view.room startIndex)
  else none

/-- More may be committed; what is committed stays. -/
def Grows (view after : RaftView config) : Prop := view.committed <+: after.committed

/-- The committed entries above `offset` that are no no-ops and carry events. -/
def deliverable (view : RaftView config) (offset : Nat) : List Entry :=
  (view.committed.drop offset).filter fun entry => !entry.noop && !entry.payload.events.isEmpty

end RaftView

inductive LoadPc where
  | stopped
  | testRunning
  | readQueueSize
  | readCommitIndex
  | getEntries (commitIndex : Nat)
  | count (entries : List Entry)
  | push (entries : List Entry)
  deriving DecidableEq

/-- Where a decrypt thread is in `decryptEntriesThreadMain`. Its task is known by the number
of tasks that were pushed before. -/
inductive DecryptPc where
  | stopped
  | testRunning
  | take
  | decrypt (number : Nat)
  | finish (number : Nat)
  deriving DecidableEq

inductive ConsumerPc where
  | idle
  | readQueueSize
  | readFront
  | readFlag
  | pop
  | swap (task : Task)
  | readCommitIndex
  | loadBundles (commitIndex : Nat)

def ConsumerPc.isIdle : ConsumerPc → Bool
  | .idle => true
  | _ => false

/-- The tasks of a queue by their numbers. -/
def taskAt (popped : Nat) (taskQueue : List Task) (number : Nat) : Option Task :=
  if popped ≤ number then taskQueue[number - popped]? else none

structure State (config : Config RaftPayload) (workers : Nat) where
  view : RaftView config
  running : Bool := true
  loadedIndex : Nat := 0
  appliedIndex : Nat := 0
  applyingIndex : Nat := 0
  cachedBundles : List Bundle := []
  taskQueue : List Task := []
  /-- The number of the task at the front of the queue. -/
  popped : Nat := 0
  loader : LoadPc := .stopped
  decrypter : Fin workers → DecryptPc := fun _ => .stopped
  consumer : ConsumerPc := .idle
  /-- `teardown` waits for the threads. -/
  joining : Bool := false
  /-- What `setCurrentOffset` has set since the last `teardown`. -/
  offset : Nat := 0
  /-- What `loadNextCommandEvents` has returned since the last `teardown`. -/
  delivered : List Bundle := []

namespace State

variable {config : Config RaftPayload} {workers : Nat}

variable (s : State config workers)

def load : Option (State config workers) :=
  match s.loader with
  | .stopped => none
  | .testRunning => some { s with loader := if s.running then .readQueueSize else .stopped }
  | .readQueueSize =>
    some { s with
      loader := if maxQueueSize ≤ s.taskQueue.length then .testRunning else .readCommitIndex }
  | .readCommitIndex =>
    some { s with
      loader :=
        if s.view.commitIndex ≤ s.loadedIndex then .testRunning
        else .getEntries s.view.commitIndex }
  | .getEntries commitIndex =>
    (s.view.getEntries (s.loadedIndex + 1) (commitIndex - s.loadedIndex)).map fun entries =>
      { s with loader := .count entries }
  | .count entries =>
    some { s with loadedIndex := s.loadedIndex + entries.length, loader := .push entries }
  | .push entries =>
    some { s with
      taskQueue := s.taskQueue ++ [{ entries := entries }], loader := .testRunning }

def setDecrypter (worker : Fin workers) (pc : DecryptPc) : State config workers :=
  { s with decrypter := Function.update s.decrypter worker pc }

def task? (number : Nat) : Option Task :=
  taskAt s.popped s.taskQueue number

def setTask (number : Nat) (task : Task) : State config workers :=
  { s with taskQueue := s.taskQueue.set (number - s.popped) task }

def decrypt (s : State config workers) (worker : Fin workers) : Option (State config workers) :=
  match s.decrypter worker with
  | .stopped => none
  | .testRunning => some (s.setDecrypter worker (if s.running then .take else .stopped))
  | .take =>
    -- flags never become initial again, so the scan finds the first initial one
    match s.taskQueue.findIdx? (fun task => task.flag = .initial) with
    | none => some (s.setDecrypter worker .testRunning)
    | some position =>
      (s.task? (s.popped + position)).map fun task =>
        (s.setTask (s.popped + position) { task with flag := .doing }).setDecrypter worker
          (.decrypt (s.popped + position))
  | .decrypt number =>
    (s.task? number).bind fun task =>
      (decryptEntries task.entries).map fun bundles =>
        (s.setTask number { task with bundles := task.bundles ++ bundles }).setDecrypter worker
          (.finish number)
  | .finish number =>
    (s.task? number).map fun task =>
      (s.setTask number { task with flag := .done }).setDecrypter worker .testRunning

/-- `loadNextCommandEvents` once it has tried to fill the cache. -/
def takeBundle : State config workers :=
  match s.cachedBundles with
  | [] => { s with consumer := .idle }
  | bundle :: cachedBundles =>
    { s with
      cachedBundles := cachedBundles
      applyingIndex := bundle.id.toNat
      consumer := .idle
      delivered := s.delivered ++ [bundle] }

def consume (asyncLoad : Bool) (s : State config workers) : Option (State config workers) :=
  match s.consumer with
  | .idle =>
    if s.joining then none
    else
      let applied := { s with appliedIndex := max s.appliedIndex s.applyingIndex }
      if s.cachedBundles.isEmpty then
        some { applied with
          consumer := if asyncLoad then .readQueueSize else .readCommitIndex }
      else some applied.takeBundle
  | .readQueueSize => some { s with consumer := if s.taskQueue.isEmpty then .idle else .readFront }
  | .readFront => some { s with consumer := .readFlag }
  | .readFlag =>
    (s.taskQueue.head?).map fun task =>
      { s with consumer := if task.flag = .done then .pop else .idle }
  | .pop =>
    (s.taskQueue.head?).map fun task =>
      { s with
        taskQueue := s.taskQueue.tail
        popped := s.popped + 1
        consumer := .swap task }
  | .swap task => some { s with cachedBundles := task.bundles }.takeBundle
  | .readCommitIndex =>
    some { s with
      consumer :=
        if s.view.commitIndex ≤ s.loadedIndex then .idle
        else .loadBundles s.view.commitIndex }
  | .loadBundles commitIndex =>
    (s.view.getEntries (s.loadedIndex + 1) (commitIndex - s.loadedIndex)).bind fun entries =>
      (decryptEntries entries).map fun bundles =>
        { s with
          loadedIndex := s.loadedIndex + entries.length
          cachedBundles := bundles }.takeBundle

/-- The thread that calls `loadNextCommandEvents` is free for another call. -/
def MayCall : Prop := s.consumer.isIdle = true ∧ s.joining = false

/-- No other thread is there. -/
def IsQuiet : Prop :=
  s.loader = .stopped ∧ ∀ worker, s.decrypter worker = .stopped

instance : Decidable s.MayCall := inferInstanceAs (Decidable (_ ∧ _))

instance : Decidable s.IsQuiet :=
  inferInstanceAs (Decidable (s.loader = .stopped ∧ ∀ worker, s.decrypter worker = .stopped))

/-- `teardown` up to the joins. -/
def teardown : State config workers :=
  { s with running := false, joining := true }

/-- `teardown` after the joins. -/
def cleanup : State config workers :=
  { view := s.view, running := s.running }

def setCurrentOffset (currentOffset : Nat) : Option (State config workers) :=
  if s.appliedIndex = 0 ∧ s.loadedIndex = 0 then
    some { s with
      appliedIndex := currentOffset, loadedIndex := currentOffset, offset := currentOffset }
  else none

def init (asyncLoad : Bool) (s : State config workers) : State config workers :=
  if asyncLoad then
    { s with running := true, loader := .testRunning, decrypter := fun _ => .testRunning }
  else { s with running := true }

end State

inductive Action (config : Config RaftPayload) (workers : Nat) where
  | load
  | decrypt (worker : Fin workers)
  | consume
  | teardown
  | cleanup
  | setCurrentOffset (currentOffset : Nat)
  | init
  | raft (view : RaftView config)

namespace State

variable {config : Config RaftPayload} {workers : Nat}

/-- One thread makes the calls: it consumes, and it starts and stops the store. -/
def step (asyncLoad : Bool) (s : State config workers) :
    Action config workers → Option (State config workers)
  | .load => s.load
  | .decrypt worker => s.decrypt worker
  | .consume => s.consume asyncLoad
  | .teardown => if s.MayCall then some s.teardown else none
  | .cleanup => if s.joining = true ∧ s.IsQuiet then some s.cleanup else none
  | .setCurrentOffset currentOffset =>
    if s.MayCall ∧ s.IsQuiet then s.setCurrentOffset currentOffset else none
  | .init => if s.MayCall ∧ s.IsQuiet then some (s.init asyncLoad) else none
  | .raft view => some { s with view := view }

/-- Raft keeps what is committed, and what lies above the offset is there when it is read. -/
def Admissible (s : State config workers) : Action config workers → Prop
  | .raft view => s.view.Grows view
  | .load | .consume => s.view.firstIndex ≤ s.offset + 1
  | _ => True

end State

/-- The store over a log that grows. -/
def reader (asyncLoad : Bool) {config : Config RaftPayload} (workers : Nat)
    (view : RaftView config) : System (State config workers) :=
  System.ofGuardedStep { view := view } State.Admissible (State.step asyncLoad)

/-- A step of the load thread, of a decrypt thread or of the consumer. -/
def Action.IsThread {config : Config RaftPayload} {workers : Nat} : Action config workers → Prop
  | .load | .decrypt _ | .consume => True
  | _ => False

def threads (asyncLoad : Bool) {config : Config RaftPayload} {workers : Nat}
    (s : State config workers) : System (State config workers) :=
  System.ofGuardedStep s (fun s action => action.IsThread ∧ s.Admissible action)
    (State.step asyncLoad)

end MySuperLedger.Reader
