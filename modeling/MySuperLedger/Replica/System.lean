import MySuperLedger.Raft.Cluster
import MySuperLedger.Replica.Process

/-! # Replicas of the ledger

The raft cluster and, around each node, the threads of its process. A process
that stops, wherever its threads are, loses everything but the log and the
database. Clients may send any command at any time.
-/

namespace MySuperLedger.Replica

open Ledger Raft Transition Function

def committedLog {size : Nat} (node : Node size RaftPayload Unit) : List Entry :=
  node.log.entries.take node.commitIndex

structure Replicas (size : Nat) where
  cluster : Cluster size RaftPayload Unit
  processes : Fin size → Process

inductive Action (size : Nat) where
  | raft (id : Fin size) (op : Op size RaftPayload)
  /-- The process stops after `count` effects of a step of its raft node. -/
  | crash (id : Fin size) (op : Op size RaftPayload) (count : Nat)
  | thread (id : Fin size) (threadStep : ThreadStep)
  | sendBatch (id : Fin size)

namespace Replicas

variable {size : Nat}

def initial : Replicas size where
  cluster := Cluster.initial
  processes _ := {}

def setProcess (replicas : Replicas size) (id : Fin size) (process : Process) : Replicas size :=
  { replicas with processes := update replicas.processes id process }

def sendBatch (replicas : Replicas size) (config : Config RaftPayload) (id : Fin size) :
    Option (Replicas size) :=
  let process := replicas.processes id
  let logStore := process.cpl.store.logStore
  if logStore.batch = [] then none
  else
    (replicas.cluster.step config (.enqueueClientRequests id logStore.batch)).map fun cluster =>
      { cluster := cluster
        processes := update replicas.processes id
          { process with
            cpl := { process.cpl with
              store := { process.cpl.store with logStore := { logStore with batch := [] } } } } }

variable (config : Config RaftPayload)

def step (replicas : Replicas size) : Action size → Option (Replicas size)
  | .raft id op =>
    (replicas.cluster.step config (.run id op)).map fun cluster =>
      { replicas with cluster := cluster }
  | .crash id op count =>
    (replicas.cluster.step config (.crash id op count)).map fun cluster =>
      { cluster := cluster
        processes := update replicas.processes id
          (Process.start (replicas.processes id).eal.machine.rocksDB) }
  | .thread id threadStep =>
    ((replicas.processes id).step config (replicas.cluster.nodes id) threadStep).map
      (replicas.setProcess id)
  | .sendBatch id => replicas.sendBatch config id

def system : System (Replicas size) := .ofStep initial (step config)

def run (replicas : Replicas size) : List (Action size) → Option (Replicas size) :=
  System.exec (step config) replicas

end Replicas

end MySuperLedger.Replica
