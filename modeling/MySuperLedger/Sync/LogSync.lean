import Mathlib.Data.List.TakeDrop
import MySuperLedger.Raft.Core
import MySuperLedger.Transition.System

/-! # Copying the log of another cluster

A new cluster that takes over groups of an old one first copies the old log. A
node in the role `Syncer` runs a thread that asks the readers of the old cluster
for entries, cuts each answer behind the split entry of its plan and queues what
is left for the raft thread, which appends it. The two threads share the queue
only: the first goes by its own `lastIndex`, the second by the length of the log.
-/

namespace MySuperLedger.Sync

open Raft Raft.Log Transition List

structure SpecialTag where
  identifier : Nat
  payload : String
deriving DecidableEq, Repr

/-- `ctrl::split::SPILT_COMMAND`. -/
def spiltCommand : Nat := 101

structure Tagged (Body : Type) where
  specialTag : Option SpecialTag
  body : Body
deriving DecidableEq, Repr

abbrev Entry (Body : Type) := LogEntry (Tagged Body)

structure SyncRequest (Body : Type) where
  entries : List (Entry Body)
  startIndex : Nat
  endIndex : Nat
  /-- `mFinishMeta`, with its `mBeginIndex`. -/
  finishMeta : Option Nat
deriving DecidableEq, Repr

structure SyncCore (size : Nat) (Body : Type) where
  role : RaftRole
  log : Log size (Tagged Body)
  commitIndex : Nat
  beginIndex : Nat

/-- The first index is compared with the end of the log, and the segment asserts
that the others follow. -/
def appendEntries {size : Nat} {Body : Type} (log : Log size (Tagged Body)) :
    List (Entry Body) → Option (Log size (Tagged Body))
  | [] => some log
  | entry :: entries => (log.appendEntry entry).bind fun log => appendEntries log entries

/-- `none` is a failed assertion. -/
def SyncCore.handleSyncRequest {size : Nat} {Body : Type} (core : SyncCore size Body)
    (request : SyncRequest Body) : Option (SyncCore size Body) :=
  if core.role ≠ .Syncer then some core
  else
    match request.finishMeta with
    | some beginIndex => some { core with role := .Follower, beginIndex := beginIndex }
    | none =>
      if request.startIndex ≠ core.log.lastLogIndex + 1 then none
      else
        match request.entries.getLast? with
        | none => none
        | some last =>
          (appendEntries core.log request.entries).bind fun log =>
            if log.lastLogIndex ≠ request.endIndex then none
            else some { core with
              log := log.setCurrentTerm last.term, commitIndex := log.lastLogIndex }

inductive Reply (Body : Type) where
  | failed
  | response (firstIndex : Nat) (entries : List (Entry Body))

inductive FetchStatus where
  | ok
  | error
  | noData
deriving DecidableEq, Repr

/-- `LogReaderImpl::fetch`. A first index of 0 comes from a leader that has not finished
its initialization. -/
def fetch {Body : Type} (startIndex : Nat) : Reply Body → Option (FetchStatus × List (Entry Body))
  | .failed => some (.error, [])
  | .response firstIndex entries =>
    if firstIndex = 0 then some (.ok, [])
    else if startIndex < firstIndex then none
    else if entries = [] then some (.noData, [])
    else some (.ok, entries)

structure LogSyncService where
  readers : List String := []
  planId : String := ""
  lastIndex : Nat
  endLogFlag : Bool := false
  clientIdx : Nat := 0
deriving DecidableEq, Repr

def endLog {Body : Type} (planId : String) (entry : Entry Body) : Bool :=
  match entry.payload.specialTag with
  | none => false
  | some tag => tag.identifier == spiltCommand && tag.payload == planId

/-- The loop over an answer: behind the first end entry everything is erased. -/
def truncateLoop {Body : Type} (planId : String) (truncated : Bool) :
    List (Entry Body) → List (Entry Body) × Bool
  | [] => ([], truncated)
  | entry :: entries =>
    if truncated then truncateLoop planId truncated entries
    else
      let (kept, found) := truncateLoop planId (endLog planId entry) entries
      (entry :: kept, found)

namespace LogSyncService

def ofLog {size : Nat} {Body : Type} (log : Log size (Tagged Body)) : LogSyncService where
  lastIndex := log.lastLogIndex

def endLogAt {size : Nat} {Body : Type} (planId : String) (log : Log size (Tagged Body))
    (index : Nat) : Bool :=
  (log.getEntry index).any (endLog planId)

def setTargets {size : Nat} {Body : Type} (service : LogSyncService)
    (log : Log size (Tagged Body)) (endPoints : List String) (planId : String) : LogSyncService :=
  if service.lastIndex ≠ 0 ∧ endLogAt planId log service.lastIndex then
    { service with planId := planId, endLogFlag := true }
  else
    { service with
      planId := planId
      readers := endPoints
      -- The old thread has ended; a new one starts with its first client.
      clientIdx := if service.endLogFlag then 0 else service.clientIdx
      endLogFlag := false }

def truncateLogs {Body : Type} (service : LogSyncService) (logs : List (Entry Body)) :
    List (Entry Body) × Bool :=
  truncateLoop service.planId false logs

/-- One round of `run`: the service after it and the request it queues. Without readers the
thread waits, and after the end entry it has ended. The flag, the queue and `lastIndex` change
together here; the source writes one after the other, and a `terminateSyncMode` in between sees
the flag with the old `lastIndex`. -/
def runOnce {Body : Type} (service : LogSyncService) (reply : Reply Body) :
    Option (LogSyncService × Option (SyncRequest Body)) :=
  if service.endLogFlag ∨ service.readers = [] then none
  else
    let clientIdx := service.clientIdx % service.readers.length
    match fetch (service.lastIndex + 1) reply with
    | none => none
    | some (.ok, logs) =>
      let (kept, truncated) := service.truncateLogs logs
      let service := { service with clientIdx := clientIdx, endLogFlag := truncated }
      if kept = [] then some (service, none)
      else
        let endIndex := service.lastIndex + kept.length
        some ({ service with lastIndex := endIndex },
          some ⟨kept, service.lastIndex + 1, endIndex, none⟩)
    | some (_, _) =>
      some ({ service with clientIdx := (clientIdx + 1) % service.readers.length }, none)

def terminateSyncMode {size : Nat} {Body : Type} (service : LogSyncService)
    (log : Log size (Tagged Body)) (planId : String) (tagCommitIndex : Nat) : Except String Nat :=
  if service.endLogFlag = false then .error "still syncing logs"
  else if tagCommitIndex ≠ 0 ∧ tagCommitIndex ≠ service.lastIndex then
    let lastIndex := service.lastIndex
    .error s!"last index should be {lastIndex}"
  else
    match (log.getEntry service.lastIndex).bind fun entry => entry.payload.specialTag with
    | none => .error "last index log has no split Tag"
    | some tag =>
      let tagged := tag.payload
      if tagged ≠ planId then
        .error s!"split Tag planId is {tagged}, but we want {planId}"
      else .ok (service.lastIndex + 1)

end LogSyncService

structure State (size : Nat) (Body : Type) where
  service : LogSyncService
  queue : List (SyncRequest Body)
  core : SyncCore size Body
  /-- Every request that was ever queued by the sync thread. History: nothing reads it. -/
  enqueued : List (SyncRequest Body)

inductive Action (Body : Type) where
  | fetch (reply : Reply Body)
  | handle
  | terminate (planId : String) (tagCommitIndex : Nat)

namespace State

variable {size : Nat} {Body : Type}

def step (s : State size Body) : Action Body → Option (State size Body)
  | .fetch reply =>
    (s.service.runOnce reply).map fun (service, request) =>
      { s with
        service := service
        queue := s.queue ++ request.toList
        enqueued := s.enqueued ++ request.toList }
  | .handle =>
    match s.queue with
    | [] => none
    | request :: queue =>
      (s.core.handleSyncRequest request).map fun core =>
        { s with core := core, queue := queue }
  | .terminate planId tagCommitIndex =>
    match s.service.terminateSyncMode s.core.log planId tagCommitIndex with
    | .error _ => some s
    | .ok beginIndex => some { s with queue := s.queue ++ [⟨[], 0, 0, some beginIndex⟩] }

end State

/-- A reader answers with committed entries from the index it was asked for on. -/
def Reply.IsFrom {Body : Type} (source : List (Entry Body)) (startIndex : Nat) : Reply Body → Prop
  | .failed => True
  | .response _ entries => entries <+: source.drop (startIndex - 1)

def Action.IsFrom {size : Nat} {Body : Type} (source : List (Entry Body))
    (s : State size Body) : Action Body → Prop
  | .fetch reply => reply.IsFrom source (s.service.lastIndex + 1)
  | _ => True

instance {size : Nat} {Body : Type} [DecidableEq Body] (source : List (Entry Body))
    (s : State size Body) (action : Action Body) : Decidable (action.IsFrom source s) :=
  match action with
  | .fetch .failed => isTrue trivial
  | .fetch (.response _ entries) =>
    inferInstanceAs (Decidable (entries <+: source.drop (s.service.lastIndex + 1 - 1)))
  | .handle => isTrue trivial
  | .terminate .. => isTrue trivial

def State.start {size : Nat} {Body : Type} (log : Log size (Tagged Body)) (commitIndex : Nat)
    (endPoints : List String) (planId : String) : State size Body where
  service := (LogSyncService.ofLog log).setTargets log endPoints planId
  queue := []
  core := { role := .Syncer, log := log, commitIndex := commitIndex, beginIndex := 1 }
  enqueued := []

def syncing {size : Nat} {Body : Type} (source : List (Entry Body)) (start : State size Body) :
    System (State size Body) :=
  System.ofGuardedStep start (Action.IsFrom source) State.step

section Truncation

variable {Body : Type} {planId : String}

theorem truncateLoop_true (logs : List (Entry Body)) :
    truncateLoop planId true logs = ([], true) := by
  induction logs with
  | nil => rfl
  | cons entry logs ih => simpa [truncateLoop] using ih

theorem truncateLoop_false (logs : List (Entry Body)) : truncateLoop planId false logs =
      (logs.take (logs.findIdx (endLog planId) + 1), logs.any (endLog planId)) := by
  induction logs with
  | nil => rfl
  | cons entry logs ih =>
    cases he : endLog planId entry with
    | true => simp [truncateLoop, truncateLoop_true, he, findIdx_cons]
    | false => simp [truncateLoop, ih, he, findIdx_cons]

end Truncation

section Append

variable {size : Nat} {Body : Type} {log : Log size (Tagged Body)}

theorem appendEntries_eq (hl : log.IsWhole) {entries : List (Entry Body)}
    (h : IsNumbered (log.entries ++ entries)) :
    appendEntries log entries = some { log with entries := log.entries ++ entries } := by
  induction entries generalizing log with
  | nil => simp [appendEntries]
  | cons entry entries ih =>
    have hi : entry.index = log.entries.length + 1 :=
      h log.entries.length entry (by simp)
    have hn : IsNumbered ((log.entries ++ [entry]) ++ entries) := by simpa using h
    have hwh : ({ log with entries := log.entries ++ [entry] } :
        Log size (Tagged Body)).IsWhole :=
      ⟨hl.firstIndex_eq, hl.numbered.concat hi⟩
    simp [appendEntries, hl.appendEntry_eq hi, ih hwh hn]

end Append

section Contiguous

variable {Body : Type}

def entriesOf (requests : List (SyncRequest Body)) : List (Entry Body) :=
  requests.flatMap SyncRequest.entries

/-- Each request starts right after the one before it, the first one after `last`, and says
where it ends. -/
def Contiguous (last : Nat) : List (SyncRequest Body) → Prop
  | [] => True
  | request :: requests =>
    request.finishMeta = none ∧ request.entries ≠ [] ∧ request.startIndex = last + 1 ∧
      request.endIndex = last + request.entries.length ∧
      Contiguous request.endIndex requests

theorem contiguous_append (last : Nat) (first second : List (SyncRequest Body)) :
    Contiguous last (first ++ second) ↔
      Contiguous last first ∧ Contiguous (last + (entriesOf first).length) second := by
  induction first generalizing last with
  | nil => simp [Contiguous, entriesOf]
  | cons request requests ih =>
    simp only [cons_append, Contiguous, ih, entriesOf, flatMap_cons, length_append, ← Nat.add_assoc]
    constructor
    · rintro ⟨hs, hne, hst, he, hr, hsnd⟩
      exact ⟨⟨hs, hne, hst, he, hr⟩, he ▸ hsnd⟩
    · rintro ⟨⟨hs, hne, hst, he, hr⟩, hsnd⟩
      exact ⟨hs, hne, hst, he, hr, he ▸ hsnd⟩

end Contiguous

end MySuperLedger.Sync
