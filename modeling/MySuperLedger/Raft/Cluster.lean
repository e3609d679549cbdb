import MySuperLedger.Raft.Core
import MySuperLedger.Transition.System

/-! # The cluster

Nodes that exchange messages. A message that was sent stays available: it may be
delivered late, in any order, more than once or never, except that an answer
reaches only the start of the process that made the call. A process may stop
between any two effects of a step, also because a check fails; it then starts
again on what is on disk.
-/

namespace MySuperLedger.Raft

open Transition

structure Cluster (size : Nat) (Payload Handle : Type) where
  nodes : Fin size → Node size Payload Handle
  /-- Every message sent so far. -/
  network : List (Message size Payload)
  /-- Every answer given to a client so far, with the node that gave it. -/
  replies : List (Fin size × Reply size Handle)

inductive Label (size : Nat) (Payload Handle : Type) where
  | run (id : Fin size) (op : Op size Payload)
  /-- The process stops after `count` effects of the step. -/
  | crash (id : Fin size) (op : Op size Payload) (count : Nat)
  | enqueueClientRequests (id : Fin size) (requests : List (ClientRequest Payload Handle))

namespace Cluster

variable {size : Nat} {Payload Handle : Type}

def initial : Cluster size Payload Handle where
  nodes _ := Node.start Log.empty 0
  network := []
  replies := []

section

variable (cluster : Cluster size Payload Handle) (id : Fin size)

def setNode (node : Node size Payload Handle) : Cluster size Payload Handle :=
  { cluster with nodes := Function.update cluster.nodes id node }

def absorb : Effect size Payload Handle → Cluster size Payload Handle
  | .wrote log => cluster.setNode id { cluster.nodes id with log := log }
  | .sent message => { cluster with network := cluster.network ++ [message] }
  | .replied reply => { cluster with replies := cluster.replies ++ [(id, reply)] }

def absorbAll (effects : List (Effect size Payload Handle)) : Cluster size Payload Handle :=
  effects.foldl (absorb · id) cluster

def restart : Cluster size Payload Handle :=
  cluster.setNode id (Node.start (cluster.nodes id).log ((cluster.nodes id).incarnation + 1))

/-- What a node receives was sent to it, and answers belong to its own calls. -/
def MayRun : Op size Payload → Prop
  | .receive message =>
    message ∈ cluster.network ∧ message.target = id ∧
      (message.caller = id → message.incarnation = (cluster.nodes id).incarnation)
  | _ => True

instance [DecidableEq Payload] (op : Op size Payload) : Decidable (cluster.MayRun id op) :=
  match op with
  | .receive message =>
    inferInstanceAs (Decidable (message ∈ cluster.network ∧ message.target = id ∧
      (message.caller = id → message.incarnation = (cluster.nodes id).incarnation)))
  | .appendEntries _ _ => isTrue trivial
  | .requestVote _ => isTrue trivial
  | .callFailed _ _ => isTrue trivial
  | .receiveClientRequests => isTrue trivial
  | .advanceCommitIndex => isTrue trivial
  | .becomeLeader _ => isTrue trivial
  | .electionTimeout => isTrue trivial
  | .leadershipTimeout => isTrue trivial

end

variable [DecidableEq Payload] (config : Config Payload)

def step (cluster : Cluster size Payload Handle) :
    Label size Payload Handle → Option (Cluster size Payload Handle)
  | .run id op =>
    if cluster.MayRun id op then
      match op.run config id (cluster.nodes id) with
      | ⟨effects, .ok (_, node)⟩ => some ((cluster.absorbAll id effects).setNode id node)
      | ⟨_, .error _⟩ => none
    else none
  | .crash id op count =>
    if cluster.MayRun id op then
      let effects := (op.run config id (cluster.nodes id)).effects
      some ((cluster.absorbAll id (effects.take count)).restart id)
    else none
  | .enqueueClientRequests id requests =>
    some (cluster.setNode id
      { cluster.nodes id with
        clientRequestsQueue := (cluster.nodes id).clientRequestsQueue ++ [requests] })

theorem step_inv {cluster cluster' : Cluster size Payload Handle}
    {label : Label size Payload Handle} (h : cluster.step config label = some cluster') :
    (∃ id op node, label = .run id op ∧ cluster.MayRun id op ∧
      (op.run config id (cluster.nodes id)).result = .ok ((), node) ∧
      cluster' = (cluster.absorbAll id
        (op.run config id (cluster.nodes id)).effects).setNode id node) ∨
    (∃ id op count, label = .crash id op count ∧ cluster.MayRun id op ∧
      cluster' = (cluster.absorbAll id
        ((op.run config id (cluster.nodes id)).effects.take count)).restart id) ∨
    (∃ id requests, label = .enqueueClientRequests id requests ∧ cluster' = cluster.setNode id
        { cluster.nodes id with
          clientRequestsQueue := (cluster.nodes id).clientRequestsQueue ++ [requests] }) := by
  cases label with
  | run id op =>
    simp only [step] at h
    split at h
    · rename_i hmay
      rcases hrun : op.run config id (cluster.nodes id) with ⟨effects, check | ⟨_, node⟩⟩
      · rw [hrun] at h
        cases h
      · rw [hrun] at h
        cases h
        exact .inl ⟨id, op, node, rfl, hmay, by rw [hrun], by rw [hrun]⟩
    · cases h
  | crash id op count =>
    simp only [step] at h
    split at h
    · rename_i hmay
      cases h
      exact .inr (.inl ⟨id, op, count, rfl, hmay, rfl⟩)
    · cases h
  | enqueueClientRequests id requests =>
    cases h
    exact .inr (.inr ⟨id, requests, rfl, rfl⟩)

def system : System (Cluster size Payload Handle) := .ofStep initial (step config)

def run (cluster : Cluster size Payload Handle) :
    List (Label size Payload Handle) → Option (Cluster size Payload Handle) :=
  System.exec (step config) cluster

end Cluster

end MySuperLedger.Raft
