import MySuperLedger.Raft.Safety
import MySuperLedger.Sync.Prefix

/-! # Copying from a live cluster

The old cluster goes on while its log is copied: leaders change and nodes crash.
Whichever node a reader asks answers with what it has committed itself. What it
answers is committed for good, so all answers are taken from one log, although no
node need hold all of it as committed.
-/

namespace MySuperLedger.Sync

open Raft Raft.Log Raft.Cluster Transition List

structure GetEntriesResponse (Body : Type) where
  code : Nat := 0
  message : String := ""
  commitIndex : Nat := 0
  firstIndex : Nat := 0
  lastIndex : Nat := 0
  entries : List (Entry Body) := []

/-- What a call of `GetEntries` finds: the commit index, which it reads first, what is left of
the segment it reads from, and the calls under way. -/
structure Call where
  commitIndex : Nat
  room : Nat
  currentConcurrency : Nat

namespace StreamingService

section Service

variable {size : Nat} {Body Handle : Type} (config : Config (Tagged Body))
  (node : Node size (Tagged Body) Handle) (call : Call) (startIndex : Nat)

def getEntries : Option (GetEntriesResponse Body) :=
  let response : GetEntriesResponse Body := {
    commitIndex := call.commitIndex
    firstIndex := node.log.firstIndex
    lastIndex := node.log.lastLogIndex }
  if call.commitIndex < startIndex then
    some { response with code := 1, message := "Reject. StartIndex > CommitIndex" }
  else if node.commitIndex < call.commitIndex then none
  else
    (node.log.getEntries config.byteSize startIndex config.maxLenInBytes
      (call.commitIndex - startIndex + 1) call.room).map fun entries =>
        { response with entries := entries, message := "Success" }

/-- A code that `getEntries` has set is overwritten. -/
def GetEntries (maxConcurrency : Nat) : Option (GetEntriesResponse Body) :=
  if call.currentConcurrency ≤ maxConcurrency then
    (getEntries config node call startIndex).map fun response => { response with code := 0 }
  else some { code := 1, message := "TooManyConnections" }

end Service

variable {size : Nat} {Body Handle : Type} {config : Config (Tagged Body)}
  {node : Node size (Tagged Body) Handle} {call : Call} {last maxConcurrency : Nat}
  (hw : node.log.IsWhole) (hcall : call.commitIndex ≤ node.commitIndex)
include hw hcall

theorem entries_isPrefix {response : GetEntriesResponse Body}
    (hr : GetEntries config node call (last + 1) maxConcurrency = some response) :
    response.firstIndex ≤ 1 ∧
      response.entries <+: (node.log.entries.take node.commitIndex).drop last := by
  unfold GetEntries getEntries at hr
  split_ifs at hr with hfew hlate hahead
  · cases hr
    exact ⟨hw.firstIndex_eq.le, nil_prefix⟩
  · omega
  · rcases Option.map_eq_some_iff.mp hr with ⟨_, hread, rfl⟩
    rcases Option.map_eq_some_iff.mp hread with ⟨batch, hbatch, rfl⟩
    have hlen := getEntries_length_le hbatch
    have hfit : batch.length ≤ node.commitIndex - last := by omega
    rw [drop_take]
    exact ⟨hw.firstIndex_eq.le, prefix_take_iff.mpr ⟨(hw.getEntries_inv hbatch).2, hfit⟩⟩
  · cases hr
    exact ⟨Nat.zero_le _, nil_prefix⟩

theorem exists_response (hle : node.commitIndex ≤ node.log.entries.length) :
    ∃ response, GetEntries config node call (last + 1) maxConcurrency = some response := by
  unfold GetEntries getEntries
  split_ifs with hfew hlate hahead
  · exact ⟨_, rfl⟩
  · omega
  · have hstart : last + 1 ≤ node.log.entries.length + 1 := by omega
    rcases Option.ne_none_iff_exists'.mp (hw.getEntries_ne_none hstart) with ⟨batch, hbatch⟩
    rw [hbatch]
    exact ⟨_, rfl⟩
  · exact ⟨_, rfl⟩

end StreamingService

/-! ## Both clusters -/

structure Copying (size count : Nat) (Body Handle : Type) where
  source : Cluster size (Tagged Body) Handle
  target : State count Body

namespace Copying

inductive Label (size : Nat) (Body Handle : Type) where
  | source (label : Raft.Label size (Tagged Body) Handle)
  | fetch (id : Fin size) (call : Call)
  | fetchFailed
  | handle
  | terminate (planId : String) (tagCommitIndex : Nat)

variable {size count : Nat} {Body Handle : Type} [DecidableEq Body]
  (config : Config (Tagged Body)) (maxConcurrency : Nat)

def act (s : Copying size count Body Handle) (action : Action Body) :
    Option (Copying size count Body Handle) :=
  (s.target.step action).map fun target => { s with target := target }

/-- While a call lasts the commit index only grows. -/
def step (s : Copying size count Body Handle) :
    Label size Body Handle → Option (Copying size count Body Handle)
  | .source label => (s.source.step config label).map fun source => { s with source := source }
  | .fetch id call =>
    if (s.source.nodes id).commitIndex < call.commitIndex then none
    else
      (StreamingService.GetEntries config (s.source.nodes id) call
        (s.target.service.lastIndex + 1) maxConcurrency).bind fun response =>
          s.act (.fetch (.response response.firstIndex response.entries))
  | .fetchFailed => s.act (.fetch .failed)
  | .handle => s.act .handle
  | .terminate planId tagCommitIndex => s.act (.terminate planId tagCommitIndex)

def system (start : Copying size count Body Handle) : System (Copying size count Body Handle) :=
  .ofStep start (step config maxConcurrency)

/-- All that was answered so far is taken from one log, and that log is committed. -/
def IsFed (start : State count Body) (s : Copying size count Body Handle) : Prop :=
  ∃ a bound known, ClusterRel s.source a ∧ IsCommitted a bound known ∧ IsNumbered known ∧
    start.core.log.entries <+: known ∧ (syncing known start).Reachable s.target

omit [DecidableEq Body] in
theorem syncing_mono {known longer : List (Entry Body)} (hp : known <+: longer)
    {start s : State count Body} (hs : (syncing known start).Reachable s) :
    (syncing longer start).Reachable s := by
  refine hs.invariant (syncing longer start).Reachable ?_ ?_
  · rintro s rfl
    exact .init rfl
  · rintro s after hs ⟨action, hfrom, hstep⟩
    refine hs.step ⟨action, ?_, hstep⟩
    rcases action with (_ | _) | _ | _
    · trivial
    · exact IsPrefix.trans hfrom (hp.drop _)
    all_goals trivial

variable {config maxConcurrency} {start : State count Body}
  {s after : Copying size count Body Handle}

omit [DecidableEq Body] in
theorem IsFed.act (h : IsFed start s) {action : Action Body} (hact : s.act action = some after)
    (hfrom : ∀ known, action.IsFrom known s.target) : IsFed start after := by
  rcases Option.map_eq_some_iff.mp hact with ⟨target, hstep, rfl⟩
  rcases h with ⟨a, bound, known, hrel, hc, hn, hin, hs⟩
  exact ⟨a, bound, known, hrel, hc, hn, hin, hs.step ⟨action, hfrom known, hstep⟩⟩

/-- Of two committed logs one begins with the other, so the longer one takes over. -/
theorem IsFed.step (h : IsFed start s) {label : Label size Body Handle}
    (hstep : step config maxConcurrency s label = some after) : IsFed start after := by
  cases label with
  | source label =>
    rcases Option.map_eq_some_iff.mp hstep with ⟨source, hsrc, rfl⟩
    rcases h with ⟨a, bound, known, hrel, hc, hn, hin, hs⟩
    rcases (cluster_simulation config).runs hrel (System.Runs.step ⟨label, hsrc⟩) with
      ⟨a', hr, hrel'⟩
    have hgrow := Consensus.grows_of_runs hr hrel.inv
    exact ⟨a', bound, known, hrel', hc.mono hgrow le_rfl, hn, hin, hs⟩
  | fetch id call =>
    simp only [Copying.step] at hstep
    split at hstep
    · cases hstep
    · rename_i hcall
      rcases Option.bind_eq_some_iff.mp hstep with ⟨response, hresp, hact⟩
      rcases Option.map_eq_some_iff.mp hact with ⟨target, htarget, rfl⟩
      rcases h with ⟨a, bound, known, hrel, hc, hn, hin, hs⟩
      have hpre := (StreamingService.entries_isPrefix (hrel.log id).whole (Nat.not_lt.mp hcall)
        hresp).2
      have hq := (hrel.volatile id).committed
      rcases hrel.inv.committed_total majorities_meet hc hq with hp | hp
      · exact ⟨a, _, _, hrel, hq, (hrel.log id).whole.numbered.of_isPrefix (List.take_prefix _ _),
          hin.trans hp, (syncing_mono hp hs).step ⟨.fetch (.response _ _), hpre, htarget⟩⟩
      · exact ⟨a, bound, known, hrel, hc, hn, hin,
          hs.step ⟨.fetch (.response _ _), hpre.trans (hp.drop _), htarget⟩⟩
  | fetchFailed => exact h.act hstep fun _ => trivial
  | handle => exact h.act hstep fun _ => trivial
  | terminate planId tagCommitIndex => exact h.act hstep fun _ => trivial

end Copying

def liveConfig : Config (Tagged Unit) where
  maxBatchSize := 10
  maxLenInBytes := 100
  maxDecrStep := 1
  byteSize _ := 1

def liveStart : Copying 1 1 Unit Unit := ⟨initial, .start empty 0 ["old"] "move"⟩

def liveLabels : List (Copying.Label 1 Unit Unit) :=
  [ .source (.run 0 .electionTimeout), .source (.run 0 (.becomeLeader ⟨none, ()⟩)),
    .source (.enqueueClientRequests 0
      [⟨⟨1, 2, false, ⟨some ⟨spiltCommand, "move"⟩, ()⟩⟩, none⟩]),
    .source (.run 0 .receiveClientRequests), .source (.run 0 .advanceCommitIndex),
    .fetch 0 ⟨2, 10, 1⟩, .handle, .terminate "move" 0, .handle ]

def liveEnd : Copying 1 1 Unit Unit :=
  (System.exec (Copying.step liveConfig 10) liveStart liveLabels).getD liveStart

end MySuperLedger.Sync
