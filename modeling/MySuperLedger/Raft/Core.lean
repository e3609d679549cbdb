import Mathlib.Data.List.FinRange
import Mathlib.Data.List.Sort
import MySuperLedger.Effects.Program
import MySuperLedger.Raft.Log

/-! # One node of the cluster

The handlers and loop steps of the protocol on the state of one node. A step
leaves effects as it goes (a write to the log, a message, an answer to a client)
and stops at the first check that fails.

Time is left out: a timer may fire whenever the source would look at it, and a
request whose switch is on may be sent or not. Metrics and log lines are left
out as well.
-/

namespace MySuperLedger.Raft

open Effects Function

inductive RaftRole where
  | Leader
  | Follower
  | Candidate
  | Syncer
deriving DecidableEq, Repr

structure Peer where
  requestVoteDone : Bool := false
  haveVote : Bool := false
  matchIndex : Nat := 0
  nextIndex : Nat := 1
  suppressBulkData : Bool := true
  /-- The next request is ready to be sent once its time has come. -/
  switch : Bool := true
deriving DecidableEq, Repr

structure ClientRequest (Payload Handle : Type) where
  entry : LogEntry Payload
  handle : Option Handle

/-- An answer to a client; no leader id stands for id 0. -/
structure Reply (size : Nat) (Handle : Type) where
  handle : Handle
  code : Nat
  message : String
  leaderId : Option (Fin size)
deriving DecidableEq

structure AppendEntriesRequest (size : Nat) (Payload : Type) where
  term : Nat
  leaderId : Fin size
  prevLogIndex : Nat
  prevLogTerm : Nat
  entries : List (LogEntry Payload)
  commitIndex : Nat
deriving DecidableEq

structure AppendEntriesResponse (size : Nat) where
  term : Nat
  success : Bool
  id : Fin size
  savedTerm : Nat
  savedPrevLogIndex : Nat
  lastLogIndex : Nat
  matchIndex : Nat
deriving DecidableEq

structure RequestVoteRequest (size : Nat) where
  term : Nat
  candidateId : Fin size
  lastLogIndex : Nat
  lastLogTerm : Nat
deriving DecidableEq

structure RequestVoteResponse (size : Nat) where
  term : Nat
  voteGranted : Bool
  id : Fin size
  savedTerm : Nat
deriving DecidableEq

inductive Body (size : Nat) (Payload : Type) where
  | appendEntriesRequest (request : AppendEntriesRequest size Payload)
  | appendEntriesResponse (response : AppendEntriesResponse size)
  | requestVoteRequest (request : RequestVoteRequest size)
  | requestVoteResponse (response : RequestVoteResponse size)
deriving DecidableEq

/-- A message. A call belongs to the start of the process that made it, and so does its answer. -/
structure Message (size : Nat) (Payload : Type) where
  source : Fin size
  target : Fin size
  incarnation : Nat
  body : Body size Payload
deriving DecidableEq

/-- The node that made the call a message belongs to. -/
def Message.caller {size : Nat} {Payload : Type} (message : Message size Payload) : Fin size :=
  match message.body with
  | .appendEntriesRequest _ => message.source
  | .appendEntriesResponse _ => message.target
  | .requestVoteRequest _ => message.source
  | .requestVoteResponse _ => message.target

structure Node (size : Nat) (Payload Handle : Type) where
  log : Log size Payload
  role : RaftRole
  commitIndex : Nat
  leaderId : Option (Fin size)
  /-- The entry of the node itself is never looked at. -/
  peers : Fin size → Peer
  pendingClientRequests : List (Nat × Option Handle)
  clientRequestsQueue : List (List (ClientRequest Payload Handle))
  /-- How often the process was started before. -/
  incarnation : Nat

def Node.start {size : Nat} {Payload Handle : Type} (log : Log size Payload)
    (incarnation : Nat) : Node size Payload Handle where
  log := log
  role := .Follower
  commitIndex := 0
  leaderId := none
  peers := fun _ => {}
  pendingClientRequests := []
  clientRequestsQueue := []
  incarnation := incarnation

/-- The state of a new leader, before its first entry. -/
def Node.lead {size : Nat} {Payload Handle : Type} (node : Node size Payload Handle) :
    Node size Payload Handle :=
  { node with
    role := .Leader
    peers := fun id =>
      { node.peers id with
        nextIndex := node.log.lastLogIndex + 1
        matchIndex := 0
        suppressBulkData := true
        switch := true } }

/-- The state of a new candidate, once its term and its vote are written. -/
def Node.campaign {size : Nat} {Payload Handle : Type} (node : Node size Payload Handle) :
    Node size Payload Handle :=
  { node with
    leaderId := none
    peers := fun id =>
      { node.peers id with requestVoteDone := false, haveVote := false, switch := true } }

/-- The request that carries `entries`; it says no more of the commit index than they cover. -/
def Node.appendEntriesRequest {size : Nat} {Payload Handle : Type}
    (node : Node size Payload Handle) (leaderId : Fin size) (prevLogIndex prevLogTerm : Nat)
    (entries : List (LogEntry Payload)) : AppendEntriesRequest size Payload where
  term := node.log.currentTerm
  leaderId := leaderId
  prevLogIndex := prevLogIndex
  prevLogTerm := prevLogTerm
  entries := entries
  commitIndex := min node.commitIndex (prevLogIndex + entries.length)

inductive Effect (size : Nat) (Payload Handle : Type) where
  | wrote (log : Log size Payload)
  | sent (message : Message size Payload)
  | replied (reply : Reply size Handle)

/-- The checks of the source, by what they guard. -/
inductive Check where
  | termOfLogEntryAt
  | getEntries
  | leaderId
  | noGap
  | truncateCommitted
  | appendEntries
  | commitIndex
  | stillLeader
  | matchIndexIncreases
  | matchIndexCovered
  | gapAboveMatchIndex
  | advanceCommitIndex
  | appendNoop
  | stepDownTerm
  | stepDownRole
deriving DecidableEq, Repr

structure Config (Payload : Type) where
  maxBatchSize : Nat
  maxLenInBytes : Nat
  maxDecrStep : Nat
  byteSize : LogEntry Payload → Nat

abbrev Handler (size : Nat) (Payload Handle : Type) : Type → Type :=
  Program (Effect size Payload Handle) Check (Node size Payload Handle)

namespace Handler

open Program

variable {size : Nat} {Payload Handle : Type}

def writeLog (log : Log size Payload) : Handler size Payload Handle Unit := do
  modify fun node => { node with log := log }
  emit (.wrote log)

def setCurrentTerm (term : Nat) : Handler size Payload Handle Unit := do
  let node ← get
  writeLog (node.log.setCurrentTerm term)

def setVoteFor (voteFor : Option (Fin size)) : Handler size Payload Handle Unit := do
  let node ← get
  writeLog (node.log.setVoteFor voteFor)

def truncateSuffix (lastIndexKept : Nat) : Handler size Payload Handle Unit := do
  let node ← get
  writeLog (node.log.truncateSuffix lastIndexKept)

/-- Write the entries one after the other; `false` at the first that does not fit. -/
def appendAll : List (LogEntry Payload) → Handler size Payload Handle Bool
  | [] => pure true
  | entry :: entries => do
      let node ← get
      match node.log.appendEntry entry with
      | none => pure false
      | some log => do
          writeLog log
          appendAll entries

def termOfLogEntryAt (index : Nat) : Handler size Payload Handle Nat := do
  let node ← get
  require .termOfLogEntryAt (node.log.getTerm index)

def setPeer (id : Fin size) (peer : Peer) : Handler size Payload Handle Unit :=
  modify fun node => { node with peers := update node.peers id peer }

def replyAll (code : Nat) (message : String) (leaderId : Option (Fin size))
    (handles : List (Option Handle)) : Handler size Payload Handle Unit :=
  forEach handles.reduceOption fun handle => emit (.replied ⟨handle, code, message, leaderId⟩)

def dropPending (code : Nat) (message : String) : Handler size Payload Handle Unit := do
  let node ← get
  replyAll code message node.leaderId (node.pendingClientRequests.map Prod.snd)
  modify fun node => { node with pendingClientRequests := [] }

def stepDown (newTerm : Nat) : Handler size Payload Handle Unit := do
  let node ← get
  assert .stepDownTerm (node.log.currentTerm ≤ newTerm)
  modify fun node => { node with role := .Follower }
  (if node.log.currentTerm < newTerm then do
    setCurrentTerm newTerm
    setVoteFor none
    modify fun node => { node with leaderId := none }
  else
    assert .stepDownRole (node.role = .Candidate))
  when (node.role = .Leader) (dropPending 301 "LeaderStepDown")

variable (self : Fin size)

def others : List (Fin size) := (List.finRange size).filter (· ≠ self)

def getMajorityNumber (totalNum : Nat) : Nat := totalNum / 2 + 1

def electionTimeout : Handler size Payload Handle Unit := do
  let node ← get
  when (node.role ≠ .Leader ∧ node.role ≠ .Syncer) do
    modify fun node => { node with role := .Candidate }
    setCurrentTerm (node.log.currentTerm + 1)
    setVoteFor (some self)
    modify Node.campaign

/-- A leader without peers always hears a majority, which is itself. -/
def leadershipTimeout : Handler size Payload Handle Unit := do
  let node ← get
  when (node.role = .Leader ∧ 1 < size) (stepDown (node.log.currentTerm + 1))

/-- `noop` is what the first entry of a leader carries: a key version and a time. -/
def becomeLeader (noop : Payload) : Handler size Payload Handle Unit := do
  let node ← get
  let voteNum := 1 + (others self).countP fun id => (node.peers id).haveVote
  when (node.role = .Candidate ∧ getMajorityNumber ((others self).length + 1) ≤ voteNum) do
    modify Node.lead
    let appended ← appendAll [⟨node.log.currentTerm, node.log.lastLogIndex + 1, true, noop⟩]
    assert .appendNoop (appended = true)

variable (config : Config Payload)

def sendAppendEntries (room : Nat) (id : Fin size) : Handler size Payload Handle Unit := do
  let node ← get
  let peer := node.peers id
  let prevLogIndex := peer.nextIndex - 1
  let prevLogTerm ← termOfLogEntryAt prevLogIndex
  let entries ← (if peer.suppressBulkData then pure [] else
    require .getEntries (node.log.getEntries config.byteSize peer.nextIndex
      config.maxLenInBytes config.maxBatchSize room))
  emit (.sent ⟨self, id, node.incarnation, .appendEntriesRequest
    (node.appendEntriesRequest self prevLogIndex prevLogTerm entries)⟩)
  setPeer id { peer with switch := false }

/-- `due` says whose time has come. -/
def appendEntries (due : Fin size → Bool) (room : Fin size → Nat) :
    Handler size Payload Handle Unit := do
  let node ← get
  when (node.role = .Leader) <| forEach (others self) fun id => do
    let node ← get
    when ((node.peers id).switch ∧ due id) (sendAppendEntries self config (room id) id)

def sendRequestVote (id : Fin size) : Handler size Payload Handle Unit := do
  let node ← get
  let lastLogTerm ← termOfLogEntryAt node.log.lastLogIndex
  emit (.sent ⟨self, id, node.incarnation, .requestVoteRequest
    { term := node.log.currentTerm
      candidateId := self
      lastLogIndex := node.log.lastLogIndex
      lastLogTerm := lastLogTerm }⟩)
  setPeer id { node.peers id with switch := false }

def requestVote (due : Fin size → Bool) : Handler size Payload Handle Unit := do
  let node ← get
  when (node.role = .Candidate) <| forEach (others self) fun id => do
    let node ← get
    when ((node.peers id).requestVoteDone = false ∧ (node.peers id).switch ∧ due id)
      (sendRequestVote self id)

def updateLeaderId (leaderId : Fin size) : Handler size Payload Handle Unit := do
  let node ← get
  match node.leaderId with
  | none => modify fun node => { node with leaderId := some leaderId }
  | some known => assert .leaderId (known = leaderId)

def logIsOk (request : AppendEntriesRequest size Payload) : Handler size Payload Handle Bool := do
  let node ← get
  if request.prevLogIndex < node.log.firstIndex then pure true
  else if node.log.lastLogIndex < request.prevLogIndex then pure false
  else do
    let term ← termOfLogEntryAt request.prevLogIndex
    pure (term == request.prevLogTerm)

/-- Skip what the log holds, truncate at the first conflict, return what is left to write. -/
def mergeEntries : Nat → List (LogEntry Payload) →
    Handler size Payload Handle (List (LogEntry Payload))
  | _, [] => pure []
  | index, entry :: entries => do
      assert .noGap (entry.index = index + 1)
      let node ← get
      if entry.index < node.log.firstIndex then mergeEntries (index + 1) entries
      else if entry.index ≤ node.log.lastLogIndex then do
        let term ← termOfLogEntryAt entry.index
        if entry.term = term then mergeEntries (index + 1) entries
        else do
          assert .truncateCommitted (node.commitIndex < entry.index)
          truncateSuffix (entry.index - 1)
          let rest ← mergeEntries (index + 1) entries
          pure (entry :: rest)
      else do
        let rest ← mergeEntries (index + 1) entries
        pure (entry :: rest)

def followCommitIndex (commitIndex : Nat) : Handler size Payload Handle Unit := do
  let node ← get
  when (node.commitIndex < commitIndex) do
    modify fun node => { node with commitIndex := commitIndex }
    assert .commitIndex (commitIndex ≤ node.log.lastLogIndex)

/-- Once the sender is known to be the leader of the current term. -/
def acceptEntries (request : AppendEntriesRequest size Payload)
    (response : AppendEntriesResponse size) :
    Handler size Payload Handle (AppendEntriesResponse size) := do
  updateLeaderId request.leaderId
  if ← logIsOk request then do
    let entries ← mergeEntries request.prevLogIndex request.entries
    let appended ← appendAll entries
    assert .appendEntries (appended = true)
    let node ← get
    followCommitIndex request.commitIndex
    pure { response with
      success := true
      lastLogIndex := node.log.lastLogIndex
      matchIndex := request.prevLogIndex + request.entries.length }
  else pure response

/-- No response stands for a cancelled call. -/
def handleAppendEntriesRequest (request : AppendEntriesRequest size Payload) :
    Handler size Payload Handle (Option (AppendEntriesResponse size)) := do
  let node ← get
  let response : AppendEntriesResponse size :=
    { term := node.log.currentTerm
      success := false
      id := self
      savedTerm := request.term
      savedPrevLogIndex := request.prevLogIndex
      lastLogIndex := node.log.lastLogIndex
      matchIndex := 0 }
  if request.term < node.log.currentTerm then pure (some response)
  else if node.role = .Syncer then pure none
  else do
    when (node.log.currentTerm < request.term ∨
      (request.term = node.log.currentTerm ∧ node.role = .Candidate)) (stepDown request.term)
    let response ← acceptEntries request { response with term := request.term }
    pure (some response)

/-- The next index to try after a rejection. -/
def lowerNextIndex (peer : Peer) (lastLogIndex : Nat) : Nat :=
  if lastLogIndex + 1 < peer.nextIndex then lastLogIndex + 1
  else peer.nextIndex - min ((peer.nextIndex - peer.matchIndex) / 2) config.maxDecrStep

def handleAppendEntriesResponse (response : AppendEntriesResponse size) :
    Handler size Payload Handle Unit := do
  let node ← get
  let peer := node.peers response.id
  when (node.log.currentTerm = response.savedTerm) do
    assert .stillLeader (node.role = .Leader)
    if node.log.currentTerm < response.term then stepDown response.term
    else when (response.savedPrevLogIndex = peer.nextIndex - 1) do
      if response.success then do
        assert .matchIndexIncreases (peer.matchIndex ≤ response.matchIndex)
        setPeer response.id
          { peer with
            matchIndex := response.matchIndex
            nextIndex := response.matchIndex + 1
            suppressBulkData := false }
      else do
        assert .matchIndexCovered (peer.matchIndex ≤ response.lastLogIndex)
        assert .gapAboveMatchIndex (peer.matchIndex + 1 < peer.nextIndex)
        setPeer response.id
          { peer with nextIndex := lowerNextIndex config peer response.lastLogIndex }

def decideVote (request : RequestVoteRequest size) : Handler size Payload Handle Bool := do
  let node ← get
  let lastLogTerm ← termOfLogEntryAt node.log.lastLogIndex
  if (lastLogTerm < request.lastLogTerm ∨
      (request.lastLogTerm = lastLogTerm ∧ node.log.lastLogIndex ≤ request.lastLogIndex)) ∧
      (node.log.voteFor = none ∨ node.log.voteFor = some request.candidateId) then do
    setVoteFor (some request.candidateId)
    pure true
  else pure false

def handleRequestVoteRequest (request : RequestVoteRequest size) :
    Handler size Payload Handle (Option (RequestVoteResponse size)) := do
  let node ← get
  if node.role = .Syncer then pure none
  else if request.term < node.log.currentTerm then
    pure (some ⟨node.log.currentTerm, false, self, request.term⟩)
  else do
    when (node.log.currentTerm < request.term) (stepDown request.term)
    let granted ← decideVote request
    pure (some ⟨request.term, granted, self, request.term⟩)

def handleRequestVoteResponse (response : RequestVoteResponse size) :
    Handler size Payload Handle Unit := do
  let node ← get
  let peer := node.peers response.id
  when (node.log.currentTerm = response.savedTerm ∧ node.role = .Candidate) do
    if node.log.currentTerm < response.term then stepDown response.term
    else
      setPeer response.id
        { peer with requestVoteDone := true, haveVote := peer.haveVote || response.voteGranted }

/-- The requests whose entry is the next one in line, in their order. -/
def acceptable (currentTerm : Nat) :
    Nat → List (ClientRequest Payload Handle) → List (ClientRequest Payload Handle)
  | _, [] => []
  | lastLogIndex, request :: requests =>
    if request.entry.term = currentTerm ∧ request.entry.index = lastLogIndex + 1 then
      request :: acceptable currentTerm (lastLogIndex + 1) requests
    else acceptable currentTerm lastLogIndex requests

/-- A request that does not fit is dropped without an answer. -/
def handleClientRequests (requests : List (ClientRequest Payload Handle)) :
    Handler size Payload Handle Unit := do
  let node ← get
  if node.role = .Leader then do
    let accepted := acceptable node.log.currentTerm node.log.lastLogIndex requests
    modify fun node =>
      { node with
        pendingClientRequests := node.pendingClientRequests ++
          accepted.map fun request => (request.entry.index, request.handle) }
    let _ ← appendAll (accepted.map ClientRequest.entry)
    pure ()
  else replyAll 301 "NotLeaderAnyMore" node.leaderId (requests.map ClientRequest.handle)

/-- The value in the middle of the list, from the largest down. -/
def middle (indices : List Nat) : Nat :=
  (indices.insertionSort (· ≥ ·)).getD (indices.length / 2) 0

/-- The largest index that a majority holds. -/
def majorityIndex (node : Node size Payload Handle) : Nat :=
  middle (node.log.lastLogIndex :: (others self).map fun id => (node.peers id).matchIndex)

def advanceCommitIndex : Handler size Payload Handle Unit := do
  let node ← get
  let index := majorityIndex self node
  when (node.role = .Leader ∧ node.commitIndex < index) do
    let term ← termOfLogEntryAt index
    -- only an entry of the leader's own term commits what is before it
    when (term = node.log.currentTerm) do
      modify fun node => { node with commitIndex := index }
      assert .advanceCommitIndex (index ≤ node.log.lastLogIndex)
      replyAll 200 "Success" node.leaderId
        ((node.pendingClientRequests.takeWhile (·.1 ≤ index)).map Prod.snd)
      modify fun node =>
        { node with
          pendingClientRequests := node.pendingClientRequests.dropWhile (·.1 ≤ index) }

def switchOn (id : Fin size) : Handler size Payload Handle Unit :=
  modify fun node =>
    { node with peers := update node.peers id { node.peers id with switch := true } }

def receive (message : Message size Payload) : Handler size Payload Handle Unit :=
  match message.body with
  | .appendEntriesRequest request => do
      match ← handleAppendEntriesRequest self request with
      | none => pure ()
      | some response =>
        emit (.sent ⟨self, message.source, message.incarnation, .appendEntriesResponse response⟩)
  | .appendEntriesResponse response => do
      switchOn message.source
      handleAppendEntriesResponse config response
  | .requestVoteRequest request => do
      match ← handleRequestVoteRequest self request with
      | none => pure ()
      | some response =>
        emit (.sent ⟨self, message.source, message.incarnation, .requestVoteResponse response⟩)
  | .requestVoteResponse response => do
      switchOn message.source
      handleRequestVoteResponse response

def callFailed (id : Fin size) (isAppendEntries : Bool) : Handler size Payload Handle Unit := do
  switchOn id
  let node ← get
  when isAppendEntries (setPeer id { node.peers id with suppressBulkData := true })

def receiveClientRequests : Handler size Payload Handle Unit := do
  let node ← get
  match node.clientRequestsQueue with
  | [] => pure ()
  | requests :: queue => do
      modify fun node => { node with clientRequestsQueue := queue }
      handleClientRequests requests

end Handler

/-- One turn of the main loop does these in some order, with what time and the network decide. -/
inductive Op (size : Nat) (Payload : Type) where
  | appendEntries (due : Fin size → Bool) (room : Fin size → Nat)
  | requestVote (due : Fin size → Bool)
  | receive (message : Message size Payload)
  | callFailed (id : Fin size) (isAppendEntries : Bool)
  | receiveClientRequests
  | advanceCommitIndex
  | becomeLeader (noop : Payload)
  | electionTimeout
  | leadershipTimeout

def Op.run {size : Nat} {Payload Handle : Type} (config : Config Payload) (self : Fin size) :
    Op size Payload → Handler size Payload Handle Unit
  | .appendEntries due room => Handler.appendEntries self config due room
  | .requestVote due => Handler.requestVote self due
  | .receive message => Handler.receive self config message
  | .callFailed id isAppendEntries => Handler.callFailed id isAppendEntries
  | .receiveClientRequests => Handler.receiveClientRequests
  | .advanceCommitIndex => Handler.advanceCommitIndex self
  | .becomeLeader noop => Handler.becomeLeader self noop
  | .electionTimeout => Handler.electionTimeout self
  | .leadershipTimeout => Handler.leadershipTimeout

end MySuperLedger.Raft
