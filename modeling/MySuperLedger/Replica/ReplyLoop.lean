import MySuperLedger.Replica.System

/-! # Answers to clients

A request that was executed ahead of the log is answered by `RaftReplyLoop`, once
the fate of its entry is known. Its threads wait on the term, the last index and
the commit index of the raft node without a lock, read the entry at the index of
the task, and answer with the verdict of the command if the entry has the term of
the task. A command that is not executed is answered by the command process loop.

Requests carry a number in place of the pointer to their call. Raft gets no
handle and answers nobody.
-/

namespace MySuperLedger.Replica

open Ledger Raft Transition Function

/-- A task of the queue. The last four fields say what the verdict is about; nothing reads
them. -/
structure PendingTask extends ReplyTask where
  handle : Option Nat
  flag : TaskFlag := .initial
  command : Command
  /-- The state the verdict was computed from. -/
  snapshot : DoneMap
  machine : AppState
  /-- What was built from the command and its events, if there were any. -/
  entry : Option Entry

/-- An answer. The last two fields say when it was given; nothing reads them. -/
structure Answer (size : Nat) where
  handle : Nat
  code : UInt64
  message : String
  leaderHint : Option (Fin size)
  task : Option PendingTask
  /-- What the node of the loop knew to be committed. -/
  committedLog : List Entry

/-- Where a reply thread is with the task at a position. -/
inductive ReplyPc where
  | idle
  /-- `waitTillCommittedOrQuit` begins a round. -/
  | waiting (position : Nat)
  | readTerm (position : Nat)
  | readLastLogIndex (position term1 : Nat)
  | readTermAgain (position term1 lastLogIndex : Nat)
  | readCommitIndex (position : Nat)
  | readEntry (position : Nat)
  | replying (position : Nat) (isCommitted : Bool)
  deriving DecidableEq

def ReplyPc.position : ReplyPc → Option Nat
  | .idle => none
  | .waiting position => some position
  | .readTerm position => some position
  | .readLastLogIndex position _ => some position
  | .readTermAgain position _ _ => some position
  | .readCommitIndex position => some position
  | .readEntry position => some position
  | .replying position _ => some position

abbrev concurrency : Nat := 2

structure RaftReplyLoop where
  running : Bool := true
  /-- All tasks so far. The queue is what is behind the first `popped` of them. -/
  tasks : List PendingTask := []
  popped : Nat := 0
  threads : Fin concurrency → ReplyPc := fun _ => .idle

variable {size : Nat}

/-- `fillResultAndReply` on the handle of the task, if it has one. -/
def PendingTask.answers (task : PendingTask) (node : Node size RaftPayload Unit)
    (isCommitted : Bool) : List (Answer size) :=
  task.handle.toList.map fun handle =>
    { handle := handle
      code := if isCommitted then task.code else 301
      message := if isCommitted then task.message else "NotLeaderAnyMore"
      leaderHint := node.leaderId
      task := some task
      committedLog := committedLog node }

namespace RaftReplyLoop

def setPc (loop : RaftReplyLoop) (thread : Fin concurrency) (pc : ReplyPc) : RaftReplyLoop :=
  { loop with threads := update loop.threads thread pc }

def setFlag (loop : RaftReplyLoop) (position : Nat) (flag : TaskFlag) : RaftReplyLoop :=
  { loop with tasks := loop.tasks.modify position fun task => { task with flag := flag } }

/-- The first task in the queue that no thread has taken. -/
def nextTask (loop : RaftReplyLoop) : Option Nat :=
  ((loop.tasks.drop loop.popped).findIdx? fun task => task.flag = .initial).map (loop.popped + ·)

/-- `popThreadMain` -/
def pop (loop : RaftReplyLoop) : Option RaftReplyLoop :=
  loop.tasks[loop.popped]?.bind fun task =>
    if loop.running ∧ task.flag = .done then some { loop with popped := loop.popped + 1 }
    else none

/-- The next piece of `replyThreadMain`. The thread may find the log of the node in the middle
of a change, so the last index it reads may be any; the commit index only grows. -/
def reply (loop : RaftReplyLoop) (node : Node size RaftPayload Unit) (thread : Fin concurrency)
    (lastLogIndex commitIndex : Nat) : Option (RaftReplyLoop × List (Answer size)) :=
  match loop.threads thread with
  | .idle =>
    if loop.running then
      loop.nextTask.map fun position =>
        ((loop.setFlag position .doing).setPc thread (.waiting position), [])
    else none
  | .waiting position =>
    some (loop.setPc thread
      (if loop.running then .readTerm position else .replying position false), [])
  | .readTerm position =>
    some (loop.setPc thread (.readLastLogIndex position node.log.currentTerm), [])
  | .readLastLogIndex position term1 =>
    some (loop.setPc thread (.readTermAgain position term1 lastLogIndex), [])
  | .readTermAgain position term1 lastLogIndex =>
    if node.log.currentTerm ≠ term1 then some (loop.setPc thread (.readTerm position), [])
    else
      loop.tasks[position]?.bind fun task =>
        if task.term ≤ term1 then
          some (loop.setPc thread
            (if lastLogIndex < task.index ∧ task.term < term1 then .replying position false
            else .readCommitIndex position), [])
        else none
  | .readCommitIndex position =>
    loop.tasks[position]?.map fun task =>
      (loop.setPc thread
        (if commitIndex < task.index then .waiting position else .readEntry position), [])
  | .readEntry position =>
    loop.tasks[position]?.bind fun task =>
      if task.index ≤ node.commitIndex then
        (node.log.getEntry task.index).map fun entry =>
          (loop.setPc thread (.replying position (entry.term = task.term)), [])
      else none
  | .replying position isCommitted =>
    loop.tasks[position]?.map fun task =>
      ((loop.setFlag position .done).setPc thread .idle, task.answers node isCommitted)

end RaftReplyLoop

structure Service (size : Nat) where
  replicas : Replicas size
  loops : Fin size → RaftReplyLoop
  /-- The handle of the command a command process loop is busy with. -/
  handles : Fin size → Option Nat
  /-- How many commands were taken so far. -/
  requests : Nat
  /-- All answers so far. -/
  answers : List (Answer size)

inductive ServiceAction (size : Nat) where
  /-- `hasHandle` says whether a command that is taken comes from a client. -/
  | replicas (action : Action size) (hasHandle : Bool)
  | reply (id : Fin size) (thread : Fin concurrency) (lastLogIndex commitIndex : Nat)
  | pop (id : Fin size)
  /-- The loop is about to be destroyed. -/
  | stop (id : Fin size)

/-- The tasks a command leaves behind: those that `persistAsync` pushed. -/
def pushedTasks (cpl cpl' : CommandProcessLoop) (command : Command) (handle : Option Nat) :
    List PendingTask :=
  (cpl'.store.replyTasks.drop cpl.store.replyTasks.length).map fun task =>
    { task with
      handle := handle
      command := command
      snapshot := cpl.snapshot
      machine := cpl.machine
      entry := (cpl'.store.logStore.persistQueue.drop
        cpl.store.logStore.persistQueue.length).head?.map PersistEntry.entry }

/-- `onPersistFailed` -/
def rejections (node : Node size RaftPayload Unit) (handle : Option Nat) : List (Answer size) :=
  handle.toList.map fun handle =>
    { handle := handle
      code := 301
      message := "Not a leader any longer"
      leaderHint := node.leaderId
      task := none
      committedLog := committedLog node }

namespace Service

def initial : Service size where
  replicas := Replicas.initial
  loops _ := {}
  handles _ := none
  requests := 0
  answers := []

def setLoop (service : Service size) (id : Fin size) (loop : RaftReplyLoop) : Service size :=
  { service with loops := update service.loops id loop }

/-- The command process loop of `id` took a step. A command it is done with was processed or
rejected. -/
def afterCommand (service : Service size) (id : Fin size) (replicas : Replicas size) :
    Service size :=
  let cpl := (service.replicas.processes id).cpl
  let cpl' := (replicas.processes id).cpl
  match cpl.pc, cpl'.pc with
  | .processing command, _ =>
    { service with
      replicas := replicas
      loops := update service.loops id
        { service.loops id with
          tasks := (service.loops id).tasks ++ pushedTasks cpl cpl' command (service.handles id) }
      handles := update service.handles id none }
  | _, .idle =>
    { service with
      replicas := replicas
      handles := update service.handles id none
      answers := service.answers ++ rejections (replicas.cluster.nodes id) (service.handles id) }
  | _, _ => { service with replicas := replicas }

/-- The replicas took a step. -/
def follow (service : Service size) (action : Action size) (hasHandle : Bool)
    (replicas : Replicas size) : Service size :=
  match action with
  | .crash id _ _ =>
    { service with
      replicas := replicas
      loops := update service.loops id {}
      handles := update service.handles id none }
  | .thread id (.dequeueCommand _) =>
    { service with
      replicas := replicas
      handles := update service.handles id
        (if hasHandle then some service.requests else none)
      requests := service.requests + 1 }
  | .thread id (.processCommands _ _) => service.afterCommand id replicas
  | _ => { service with replicas := replicas }

variable (config : Config RaftPayload)

def step (service : Service size) : ServiceAction size → Option (Service size)
  | .replicas action hasHandle =>
    (service.replicas.step config action).map (service.follow action hasHandle)
  | .reply id thread lastLogIndex commitIndex =>
    if commitIndex ≤ (service.replicas.cluster.nodes id).commitIndex then
      ((service.loops id).reply (service.replicas.cluster.nodes id) thread lastLogIndex
        commitIndex).map fun (loop, answers) =>
          { service.setLoop id loop with answers := service.answers ++ answers }
    else none
  | .pop id => (service.loops id).pop.map (service.setLoop id)
  | .stop id => some (service.setLoop id { service.loops id with running := false })

def system : System (Service size) := .ofStep initial (step config)

def run (service : Service size) : List (ServiceAction size) → Option (Service size) :=
  System.exec (step config) service

end Service

end MySuperLedger.Replica
