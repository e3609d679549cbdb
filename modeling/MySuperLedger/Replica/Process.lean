import MySuperLedger.Raft.Core
import MySuperLedger.Replica.Replay

/-! # The threads around a raft node

The command process loop takes commands, waits until the node leads and the
event apply loop has caught up, takes its state over, and from then on executes
commands ahead of the log: the events are applied at once and handed to the
persist thread, which sends them to raft. The event apply loop follows the
committed log. It reads through a store that a load thread and decrypt threads
fill in advance.

A thread reads a variable of another one in a step of its own, and any other
step may happen in between; so `waitTillLeaderIsReadyOrStepDown` and `refresh`
take several steps. Only the mutex of the event apply loop keeps a swap out of
an iteration. `none` is a step that cannot be taken, because a thread waits or
because a check ends the process.

Time, metrics and log lines are left out, and so are the control commands, which
the loop processes like the others but on the control state, and the answers to
clients behind `RaftReplyLoop`. Indices have 64 bits in the source; the command process
loop stops before they run out.
-/

namespace MySuperLedger.Replica

open Ledger Raft

abbrev Request := ClientRequest RaftPayload Unit

/-- The entry of a command. Its index is the id of the command. -/
structure PersistEntry where
  term : Nat
  payload : RaftPayload
  deriving DecidableEq

def PersistEntry.entry (persistEntry : PersistEntry) : Entry where
  term := persistEntry.term
  index := persistEntry.payload.id.toNat
  noop := false
  payload := persistEntry.payload

structure RaftLogStore where
  logStoreTerm : Nat := 0
  logStoreRole : RaftRole := .Follower
  persistQueue : List PersistEntry := []
  batch : List Request := []

def maxPayLoadSizeInBytes : Nat := 4000000

namespace RaftLogStore

/-- The rest of `refresh`, once it has read a term and a role that belong together. A leader
that became a follower within its term is about to enter a new one. -/
def refresh (store : RaftLogStore) (term : Nat) (role : RaftRole) : RaftLogStore :=
  if store.logStoreTerm = term ∧ store.logStoreRole = .Leader ∧ role ≠ .Leader then store
  else { store with logStoreTerm := term, logStoreRole := role }

def persistAsync (store : RaftLogStore) (payload : RaftPayload) : RaftLogStore :=
  { store with persistQueue := store.persistQueue ++ [⟨store.logStoreTerm, payload⟩] }

/-- The persist thread encodes the oldest entry and adds it to the batch. -/
def dequeue (store : RaftLogStore) (config : Config RaftPayload) : Option RaftLogStore :=
  match store.persistQueue with
  | [] => none
  | persistEntry :: persistQueue =>
    if (∀ event ∈ persistEntry.payload.events, event.payload.IsV1) ∧
        config.byteSize persistEntry.entry ≤ maxPayLoadSizeInBytes then
      some { store with
        persistQueue := persistQueue
        batch := store.batch ++ [⟨persistEntry.entry, none⟩] }
    else none

end RaftLogStore

inductive RaftTransition where
  | OldFollowerToNewFollower
  | FollowerToLeader
  | LeaderToFollower
  | OldLeaderToNewLeader
  | SameFollower
  | SameLeader
  deriving DecidableEq, Repr

structure ReplyTask where
  index : Nat
  term : Nat
  code : UInt64
  message : String
  deriving DecidableEq

structure RaftCommandEventStore where
  logStore : RaftLogStore := {}
  lastCheckedTerm : Nat := 0
  lastCheckedRole : RaftRole := .Follower
  replyTasks : List ReplyTask := []

namespace RaftCommandEventStore

def pushTask (store : RaftCommandEventStore) (commandId : Nat) (hint : ProcessHint) :
    RaftCommandEventStore :=
  { store with
    replyTasks := store.replyTasks ++
      [⟨commandId, store.lastCheckedTerm, hint.code, hint.message⟩] }

/-- `persistAsync` for a command with events. -/
def persistAsync (store : RaftCommandEventStore) (payload : RaftPayload) (hint : ProcessHint) :
    RaftCommandEventStore :=
  { store.pushTask payload.id.toNat hint with logStore := store.logStore.persistAsync payload }

/-- `detectTransition` after `refresh`. -/
def detectTransition (store : RaftCommandEventStore) :
    Option (RaftTransition × RaftCommandEventStore) :=
  let currentTerm := store.logStore.logStoreTerm
  let currentRole := store.logStore.logStoreRole
  let checked :=
    { store with lastCheckedTerm := currentTerm, lastCheckedRole := currentRole }
  if store.lastCheckedTerm ≠ currentTerm then
    if store.lastCheckedTerm < currentTerm then
      if store.lastCheckedRole = .Leader then
        if currentRole = .Leader then some (.OldLeaderToNewLeader, checked)
        else some (.LeaderToFollower, checked)
      else if currentRole = .Leader then some (.FollowerToLeader, checked)
      else some (.OldFollowerToNewFollower, checked)
    else none
  else if store.lastCheckedRole = .Leader then
    if currentRole = .Leader then some (.SameLeader, checked) else none
  else if currentRole = .Leader then some (.FollowerToLeader, checked)
  else some (.SameFollower, checked)

end RaftCommandEventStore

inductive TaskFlag where
  | initial
  | doing
  | done
  deriving DecidableEq, Repr

structure Task where
  entries : List Entry
  bundles : List Bundle := []
  flag : TaskFlag := .initial

def maxQueueSize : Nat := 30

/-- The store in its asynchronous mode. -/
structure ReadonlyRaftCommandEventStore where
  running : Bool := false
  loadedIndex : Nat := 0
  appliedIndex : Nat := 0
  applyingIndex : Nat := 0
  cachedBundles : List Bundle := []
  taskQueue : List Task := []

namespace ReadonlyRaftCommandEventStore

variable (store : ReadonlyRaftCommandEventStore)

def init : ReadonlyRaftCommandEventStore :=
  { store with running := true }

/-- The threads are joined and everything is reset. -/
def teardown (_ : ReadonlyRaftCommandEventStore) : ReadonlyRaftCommandEventStore := {}

def setCurrentOffset (currentOffset : Nat) : Option ReadonlyRaftCommandEventStore :=
  if store.appliedIndex = 0 ∧ store.loadedIndex = 0 then
    some { store with appliedIndex := currentOffset, loadedIndex := currentOffset }
  else none

/-- One round of the load thread, which read `commitIndex` a while ago. -/
def loadEntries {size : Nat}
    (config : Config RaftPayload) (node : Node size RaftPayload Unit) (commitIndex room : Nat) :
    Option ReadonlyRaftCommandEventStore :=
  if store.running ∧ store.taskQueue.length < maxQueueSize ∧ store.loadedIndex < commitIndex ∧
      commitIndex ≤ node.commitIndex then
    (node.log.getEntries config.byteSize (store.loadedIndex + 1) config.maxLenInBytes
        (commitIndex - store.loadedIndex) room).map fun entries =>
      { store with
        loadedIndex := store.loadedIndex + entries.length
        taskQueue := store.taskQueue ++ [{ entries := entries }] }
  else none

/-- A decrypt thread takes a task, or finishes one. -/
def decryptTask (task : Task) : Option Task :=
  match task.flag with
  | .initial => some { task with flag := .doing }
  | .doing =>
    (decryptEntries task.entries).map fun bundles =>
      { task with bundles := bundles, flag := .done }
  | .done => none

/-- One round of a decrypt thread, on the task at `position`. -/
def decrypt (position : Nat) : Option ReadonlyRaftCommandEventStore :=
  if store.running then
    (store.taskQueue[position]?).bind fun task =>
      (decryptTask task).map fun task =>
        { store with taskQueue := store.taskQueue.set position task }
  else none

/-- The oldest task moves to the cache once it is done. -/
def tryAsyncLoadBundles : ReadonlyRaftCommandEventStore :=
  match store.taskQueue with
  | [] => store
  | task :: taskQueue =>
    if task.flag = .done then
      { store with cachedBundles := task.bundles, taskQueue := taskQueue }
    else store

def loadNextCommandEvents : ReadonlyRaftCommandEventStore × Option Bundle :=
  let applied := { store with appliedIndex := max store.appliedIndex store.applyingIndex }
  let loaded := if applied.cachedBundles = [] then applied.tryAsyncLoadBundles else applied
  match loaded.cachedBundles with
  | [] => (loaded, none)
  | bundle :: cachedBundles =>
    ({ loaded with cachedBundles := cachedBundles, applyingIndex := bundle.id.toNat }, some bundle)

end ReadonlyRaftCommandEventStore

structure EventApplyLoop where
  machine : RocksDBBacked := {}
  shouldRecover : Bool := true
  lastAppliedLogEntryIndex : UInt64 := 0
  pc : Pc := .idle
  store : ReadonlyRaftCommandEventStore := {}

namespace EventApplyLoop

def recoverSelf (eal : EventApplyLoop) : Option EventApplyLoop :=
  eal.machine.recoverSelf.bind fun machine =>
    (eal.store.setCurrentOffset machine.lastFlushedIndex.toNat).map fun store =>
      { eal with
        machine := machine
        lastAppliedLogEntryIndex := machine.lastFlushedIndex
        store := store.init
        shouldRecover := false }

def loadNextCommandEvents (eal : EventApplyLoop) : EventApplyLoop :=
  match eal.store.loadNextCommandEvents with
  | (store, none) => { eal with store := store }
  | (store, some bundle) => { eal with store := store, pc := .applying bundle.events bundle.id }

/-- The next piece of an iteration of `run`. -/
def run (eal : EventApplyLoop) : Option EventApplyLoop :=
  match eal.pc with
  | .idle =>
    (if eal.shouldRecover then eal.recoverSelf else some eal).map loadNextCommandEvents
  | .applying (event :: events) commandId =>
    (eal.machine.applyEvent event).map fun machine =>
      { eal with machine := machine, pc := .applying events commandId }
  | .applying [] commandId =>
    some { eal with
      machine := eal.machine.putAppliedIndex commandId
      pc := .committing commandId }
  | .committing commandId =>
    some { eal with
      machine := eal.machine.flushIfNeeded commandId
      lastAppliedLogEntryIndex := commandId
      pc := .idle }

end EventApplyLoop

/-- What the loop reads of the raft node. The node changes its role before its term and its
log before its commit index, and may be in the middle of that: a leader may already look like
a follower, the last index may be any, and the commit index may still grow. -/
structure Reading where
  role : RaftRole
  lastIndex : Nat
  commitIndex : Nat

def Reading.IsOf {size : Nat} (reading : Reading) (node : Node size RaftPayload Unit) : Prop :=
  (reading.role = .Leader → node.role = .Leader) ∧ reading.commitIndex ≤ node.commitIndex

instance {size : Nat} (reading : Reading) (node : Node size RaftPayload Unit) :
    Decidable (reading.IsOf node) :=
  inferInstanceAs (Decidable (_ ∧ _))

/-- Where the loop is with its command. -/
inductive CommandPc where
  | idle
  /-- `refresh` reads the term, the role and the term again. -/
  | readTerm (command : Command)
  | readRole (command : Command) (term : Nat)
  | readTermAgain (command : Command) (term : Nat) (role : RaftRole)
  /-- `waitTillLeaderIsReadyOrStepDown`. -/
  | checkTerm (command : Command)
  | readLastIndex (command : Command)
  | readCommitIndex (command : Command) (lastIndex : Nat)
  | readLoadedIndex (command : Command) (lastIndex commitIndex : Nat)
  | readAppliedIndex (command : Command) (lastIndex commitIndex loadedIndex : Nat)
  | scanning (command : Command) (lastIndex index : Nat)
  | swapping (command : Command) (lastIndex : Nat)
  | processing (command : Command)

structure CommandProcessLoop where
  pc : CommandPc := .idle
  machine : AppState := {}
  /-- The done ids of the RocksDB snapshot taken at the last swap. -/
  snapshot : DoneMap := ∅
  lastCommandId : Nat := 0
  store : RaftCommandEventStore := {}

theorem ofNat_pos {n : Nat} (h : n + 1 < 2 ^ 64) : 0 < UInt64.ofNat (n + 1) := by
  rw [UInt64.lt_iff_toNat_lt, UInt64.toNat_ofNat_of_lt' h]
  exact Nat.succ_pos n

namespace CommandProcessLoop

/-- The rest of an iteration once `refresh` has read `term` and `role`. -/
def onRefreshed (cpl : CommandProcessLoop) (command : Command) (term : Nat) (role : RaftRole) :
    Option CommandProcessLoop :=
  let store := { cpl.store with logStore := cpl.store.logStore.refresh term role }
  store.detectTransition.map fun (transition, store) =>
    match transition with
    | .FollowerToLeader => { cpl with store := store, pc := .checkTerm command }
    | .OldLeaderToNewLeader => { cpl with store := store, pc := .checkTerm command }
    | .SameLeader => { cpl with store := store, pc := .processing command }
    | .OldFollowerToNewFollower => { cpl with store := store, pc := .idle }
    | .LeaderToFollower => { cpl with store := store, pc := .idle }
    | .SameFollower => { cpl with store := store, pc := .idle }

/-- `swapStateAndTeardown`, which waits for the mutex of the event apply loop. -/
def swapStateAndTeardown (cpl : CommandProcessLoop) (eal : EventApplyLoop) :
    Option (CommandProcessLoop × EventApplyLoop) :=
  match eal.pc with
  | .idle =>
    let (state, machine) := RocksDBBacked.swapState cpl.machine eal.machine
    some ({ cpl with machine := state, snapshot := machine.rocksDB.doneIds },
      { eal with machine := machine, store := eal.store.teardown, shouldRecover := true })
  | _ => none

def processCommand (cpl : CommandProcessLoop) (now : UInt64) (command : Command) :
    Option CommandProcessLoop :=
  (processCommandAndApply now cpl.snapshot cpl.machine command).bind fun (hint, events, machine) =>
    if events = [] then
      some { cpl with
        pc := .idle
        machine := machine
        store := cpl.store.pushTask cpl.lastCommandId hint }
    else if h : cpl.lastCommandId + 1 < 2 ^ 64 then
      let id := UInt64.ofNat (cpl.lastCommandId + 1)
      some { cpl with
        pc := .idle
        machine := machine
        lastCommandId := cpl.lastCommandId + 1
        store := cpl.store.persistAsync ⟨id, command, stampAll id 0 events, ofNat_pos h⟩ hint }
    else none

/-- `getEntry` and what the wait makes of the entry at `index`. -/
def scan (cpl : CommandProcessLoop) {size : Nat} (node : Node size RaftPayload Unit)
    (command : Command) (lastIndex index : Nat) : Option CommandProcessLoop :=
  if lastIndex < index then some { cpl with pc := .checkTerm command }
  else if index ≤ node.commitIndex then
    (node.log.getEntry index).map fun entry =>
      if entry.noop = false then { cpl with pc := .checkTerm command }
      else if index = lastIndex ∧ entry.term = cpl.store.lastCheckedTerm then
        { cpl with pc := .swapping command lastIndex }
      else { cpl with pc := .scanning command lastIndex (index + 1) }
  else none

/-- The next piece of an iteration of `run`. -/
def run (cpl : CommandProcessLoop) {size : Nat} (node : Node size RaftPayload Unit)
    (reading : Reading) (eal : EventApplyLoop) (now : UInt64) :
    Option (CommandProcessLoop × EventApplyLoop) :=
  match cpl.pc with
  | .idle => none
  | .readTerm command => some ({ cpl with pc := .readRole command node.log.currentTerm }, eal)
  | .readRole command term =>
    some ({ cpl with pc := .readTermAgain command term reading.role }, eal)
  | .readTermAgain command term role =>
    if node.log.currentTerm = term then
      (cpl.onRefreshed command term role).map fun cpl => (cpl, eal)
    else some ({ cpl with pc := .readTerm command }, eal)
  | .checkTerm command =>
    if node.log.currentTerm = cpl.store.lastCheckedTerm then
      some ({ cpl with pc := .readLastIndex command }, eal)
    else some ({ cpl with pc := .idle }, eal)
  | .readLastIndex command =>
    some ({ cpl with pc := .readCommitIndex command reading.lastIndex }, eal)
  | .readCommitIndex command lastIndex =>
    some ({ cpl with pc := .readLoadedIndex command lastIndex reading.commitIndex }, eal)
  | .readLoadedIndex command lastIndex commitIndex =>
    some ({ cpl with
      pc := .readAppliedIndex command lastIndex commitIndex eal.store.loadedIndex }, eal)
  | .readAppliedIndex command lastIndex commitIndex loadedIndex =>
    if loadedIndex = commitIndex ∧ commitIndex = lastIndex then
      some ({ cpl with pc := .scanning command lastIndex (eal.store.appliedIndex + 1) }, eal)
    else some ({ cpl with pc := .checkTerm command }, eal)
  | .scanning command lastIndex index =>
    (cpl.scan node command lastIndex index).map fun cpl => (cpl, eal)
  | .swapping command lastIndex =>
    ({ cpl with pc := .processing command, lastCommandId := lastIndex }
      : CommandProcessLoop).swapStateAndTeardown eal
  | .processing command => (cpl.processCommand now command).map fun cpl => (cpl, eal)

end CommandProcessLoop

structure Process where
  eal : EventApplyLoop := {}
  cpl : CommandProcessLoop := {}

/-- A step of a thread outside raft. -/
inductive ThreadStep where
  /-- The command process loop takes the next command. -/
  | dequeueCommand (command : Command)
  | processCommands (reading : Reading) (now : UInt64)
  | applyEvents
  | loadEntries (commitIndex room : Nat)
  | decryptEntries (position : Nat)
  | persist

namespace Process

def start (rocksDB : RocksDB) : Process := { eal := { machine := { rocksDB := rocksDB } } }

def dequeueCommand (process : Process) (command : Command) : Option Process :=
  match process.cpl.pc with
  | .idle => some { process with cpl := { process.cpl with pc := .readTerm command } }
  | _ => none

def step (process : Process) {size : Nat} (config : Config RaftPayload)
    (node : Node size RaftPayload Unit) : ThreadStep → Option Process
  | .dequeueCommand command => process.dequeueCommand command
  | .processCommands reading now =>
    if reading.IsOf node then
      (process.cpl.run node reading process.eal now).map fun (cpl, eal) => ⟨eal, cpl⟩
    else none
  | .applyEvents => process.eal.run.map fun eal => { process with eal := eal }
  | .loadEntries commitIndex room =>
    (process.eal.store.loadEntries config node commitIndex room).map fun store =>
      { process with eal := { process.eal with store := store } }
  | .decryptEntries position =>
    (process.eal.store.decrypt position).map fun store =>
      { process with eal := { process.eal with store := store } }
  | .persist =>
    (process.cpl.store.logStore.dequeue config).map fun logStore =>
      { process with
        cpl := { process.cpl with store := { process.cpl.store with logStore := logStore } } }

end Process

/-- Limits for small runs. -/
def soloConfig : Config RaftPayload where
  maxBatchSize := 10
  maxLenInBytes := 100
  maxDecrStep := 1
  byteSize _ := 1

end MySuperLedger.Replica
