import MySuperLedger.Raft.Advance
import MySuperLedger.Raft.Votes
import MySuperLedger.Sync.LogSync

/-! # Terms of a node that copies a log

A whole raft node that may be started, and started again, as a syncer. Between
two starts it takes the steps of the main loop and the requests of the sync
thread, with any messages and any entries. A sync request sets the term to that
of its last entry, whatever the node's own term and vote are.
-/

namespace MySuperLedger.Sync

open Raft Transition Option

structure SyncNode (size : Nat) (Body Handle : Type) where
  node : Node size (Tagged Body) Handle
  beginIndex : Nat

inductive NodeStep (size : Nat) (Body Handle : Type) where
  | run (op : Op size (Tagged Body))
  | sync (request : SyncRequest Body)
  | enqueueClientRequests (requests : List (ClientRequest (Tagged Body) Handle))
  | restart (asSyncer : Bool)

namespace SyncNode

variable {size : Nat} {Body Handle : Type}

def start (log : Log size (Tagged Body)) (incarnation : Nat) (asSyncer : Bool) :
    SyncNode size Body Handle where
  node := { Node.start log incarnation with role := if asSyncer then .Syncer else .Follower }
  beginIndex := 1

def core (s : SyncNode size Body Handle) : SyncCore size Body where
  role := s.node.role
  log := s.node.log
  commitIndex := s.node.commitIndex
  beginIndex := s.beginIndex

def setCore (s : SyncNode size Body Handle) (core : SyncCore size Body) :
    SyncNode size Body Handle where
  node := { s.node with role := core.role, log := core.log, commitIndex := core.commitIndex }
  beginIndex := core.beginIndex

variable (config : Config (Tagged Body)) (self : Fin size)

def step (s : SyncNode size Body Handle) :
    NodeStep size Body Handle → Option (SyncNode size Body Handle)
  | .run op =>
    match (op.run config self s.node).result with
    | .ok (_, node) => some { s with node := node }
    | .error _ => none
  | .sync request => (s.core.handleSyncRequest request).map s.setCore
  | .enqueueClientRequests requests =>
    some { s with node :=
      { s.node with clientRequestsQueue := s.node.clientRequestsQueue ++ [requests] } }
  | .restart asSyncer => some (start s.node.log (s.node.incarnation + 1) asSyncer)

def term (s : SyncNode size Body Handle) : Nat := s.node.log.currentTerm

/-- What is copied is not older than the node's own term. -/
def IsForward (s : SyncNode size Body Handle) : NodeStep size Body Handle → Prop
  | .sync request =>
    s.node.role = .Syncer → request.finishMeta = none →
      ∀ last ∈ request.entries.getLast?, s.term ≤ last.term
  | _ => True

def forwardRuns (start : SyncNode size Body Handle) : System (SyncNode size Body Handle) :=
  .ofGuardedStep start IsForward (step config self)

def VotesApart (s : SyncNode size Body Handle) : Prop :=
  ∀ term candidate other, (term, candidate) ∈ s.node.log.votes →
    (term, other) ∈ s.node.log.votes → candidate = other

end SyncNode

def foundLog {size : Nat} {Body : Type} (firstIndex : Nat) (entries : List (Entry Body))
    (currentTerm : Nat) (voteFor : Option (Fin size)) : Log size (Tagged Body) where
  firstIndex := firstIndex
  entries := entries
  currentTerm := currentTerm
  voteFor := voteFor
  votes := (voteFor.map (currentTerm, ·)).toList

section

variable {size : Nat} {Body Handle : Type}

theorem votesOnce_foundLog (firstIndex : Nat) (entries : List (Entry Body)) (currentTerm : Nat)
    (voteFor : Option (Fin size)) :
    (foundLog firstIndex entries currentTerm voteFor).VotesOnce := by
  cases voteFor with
  | none => constructor <;> simp [foundLog]
  | some vote => constructor <;> simp +contextual [foundLog]

theorem appendEntries_keeps {log after : Log size (Tagged Body)} {entries : List (Entry Body)}
    (h : appendEntries log entries = some after) :
    after.currentTerm = log.currentTerm ∧ after.voteFor = log.voteFor ∧
      after.votes = log.votes := by
  induction entries generalizing log with
  | nil =>
    cases h
    exact ⟨rfl, rfl, rfl⟩
  | cons entry entries ih =>
    obtain ⟨middle, ha, hr⟩ := bind_eq_some_iff.mp h
    unfold Log.appendEntry at ha
    split at ha
    · cases ha
      have hk := ih hr
      exact hk
    · cases ha

/-- A request that passes the assertions copies entries into the log of a syncer, or leaves
the log alone. -/
theorem handleSyncRequest_inv {core after : SyncCore size Body} {request : SyncRequest Body}
    (h : core.handleSyncRequest request = some after) :
    (core.role = .Syncer ∧ request.finishMeta = none ∧ ∃ last log,
      request.entries.getLast? = some last ∧ appendEntries core.log request.entries = some log ∧
      after.log = log.setCurrentTerm last.term) ∨
    ((core.role = .Syncer → request.finishMeta ≠ none) ∧ after.log = core.log) := by
  unfold SyncCore.handleSyncRequest at h
  split at h
  · rename_i hrole
    cases h
    exact .inr ⟨fun hsyncer => absurd hsyncer hrole, rfl⟩
  · rename_i hrole
    split at h
    · rename_i hfin
      cases h
      exact .inr ⟨fun _ => by simp [hfin], rfl⟩
    · rename_i hfin
      split at h
      · cases h
      · split at h
        · cases h
        · rename_i last hlast
          obtain ⟨log, happ, hend⟩ := bind_eq_some_iff.mp h
          split at hend
          · cases hend
          · cases hend
            exact .inl ⟨not_not.mp hrole, hfin, last, log, hlast, happ, rfl⟩

namespace SyncNode

variable {config : Config (Tagged Body)} {self : Fin size}
  {s after start : SyncNode size Body Handle} {label : NodeStep size Body Handle}

/-- A step that copies nothing older keeps what is known of the votes. -/
theorem forward_step (hstep : s.step config self label = some after) (hok : s.IsForward label) :
    s.term ≤ after.term ∧ (s.node.log.VotesOnce → after.node.log.VotesOnce) := by
  cases label with
  | run op =>
    simp only [step] at hstep
    split at hstep
    · rename_i node hres
      cases hstep
      have hrun := Effects.Program.RunsTo.of_result hres
      exact ⟨((Handler.advancing_op config self op).run hrun).term_le,
        (Handler.votesOnce_op config self op).run hrun⟩
    · cases hstep
  | sync request =>
    obtain ⟨core, hcore, rfl⟩ := map_eq_some_iff.mp hstep
    rcases handleSyncRequest_inv hcore with
      ⟨hrole, hfin, last, log, hlast, happ, hlog⟩ | ⟨-, hlog⟩
    · obtain ⟨hterm, hvote, hvot⟩ := appendEntries_keeps happ
      have hle : s.core.log.currentTerm ≤ last.term := hok hrole hfin last hlast
      have hlate : s.term ≤ (s.setCore core).term := by
        simp only [term, setCore, hlog]
        exact hle
      refine ⟨hlate, fun hs => ?_⟩
      have hcop : log.VotesOnce := hs.congr hterm hvote hvot
      simp only [setCore, hlog]
      exact hcop.setCurrentTerm (hterm.trans_le hle)
    · simp only [term, setCore, hlog]
      exact ⟨le_rfl, id⟩
  | enqueueClientRequests requests | restart asSyncer =>
    cases hstep
    exact ⟨le_rfl, id⟩

/-- The only steps that can lower the term are those of a syncer. -/
theorem isForward_of_term_le (hs : s.step config self label = some after)
    (hle : s.term ≤ after.term) : s.IsForward label := by
  cases label with
  | sync request =>
    intro hr hf last hl
    obtain ⟨core, hc, rfl⟩ := map_eq_some_iff.mp hs
    rcases handleSyncRequest_inv hc with ⟨-, -, last', log, hl', -, hlog⟩ | ⟨hn, -⟩
    · rw [mem_def, hl'] at hl
      obtain rfl := some.inj hl
      simp only [term, setCore, hlog] at hle
      exact hle
    · exact absurd hf (hn hr)
  | run op | enqueueClientRequests requests | restart asSyncer => trivial

theorem forward_runs (hr : (forwardRuns config self start).Runs s after)
    (hs : s.node.log.VotesOnce) : s.term ≤ after.term ∧ after.node.log.VotesOnce := by
  refine hr.invariant (fun later => s.term ≤ later.term ∧ later.node.log.VotesOnce) ?_ ⟨le_rfl, hs⟩
  rintro middle later hm ⟨label, hok, hstep⟩
  have hf := forward_step hstep hok
  exact ⟨hm.1.trans hf.1, hf.2 hm.2⟩

/-- Along runs that copy nothing older the term never goes back and every term has one vote,
and one more step leaves it at that exactly if it copies nothing older either. -/
theorem term_never_goes_back_iff {firstIndex currentTerm incarnation : Nat}
    {entries : List (Entry Body)} {voteFor : Option (Fin size)} {asSyncer : Bool}
    (hs : (forwardRuns config self (SyncNode.start
      (foundLog firstIndex entries currentTerm voteFor) incarnation asSyncer)).Reachable s)
    (hstep : s.step config self label = some after) :
    currentTerm ≤ s.term ∧ s.VotesApart ∧
      ((s.term ≤ after.term ∧ ∀ later, (forwardRuns config self (SyncNode.start (foundLog
          firstIndex entries currentTerm voteFor) incarnation asSyncer)).Runs after later →
          after.term ≤ later.term ∧ later.VotesApart) ↔
        s.IsForward label) := by
  obtain ⟨first, rfl, hr⟩ := hs
  obtain ⟨ht, hv⟩ := forward_runs hr (votesOnce_foundLog firstIndex entries currentTerm voteFor)
  refine ⟨ht, fun _ _ _ => hv.unique, fun h => isForward_of_term_le hstep h.1, fun hok => ?_⟩
  have hf := forward_step hstep hok
  refine ⟨hf.1, fun later hl => ?_⟩
  obtain ⟨hle, ho⟩ := forward_runs hl (hf.2 hv)
  exact ⟨hle, fun _ _ _ => ho.unique⟩

end SyncNode

def sampleConfig : Config (Tagged Unit) where
  maxBatchSize := 10
  maxLenInBytes := 10
  maxDecrStep := 10
  byteSize _ := 1

theorem other_lt : 1 < 3 := by decide

def votedSyncer : SyncNode 3 Unit Unit :=
  .start (foundLog 1 [] 5 (some ⟨1, other_lt⟩)) 1 true

def copyOf (term : Nat) : NodeStep 3 Unit Unit :=
  .sync ⟨[⟨term, 1, false, ⟨none, ()⟩⟩], 1, 1, none⟩

theorem term_never_goes_back_copy :
    ∃ after, votedSyncer.step sampleConfig 0 (copyOf 6) = some after ∧
      votedSyncer.term ≤ after.term ∧ ∀ later,
        (SyncNode.forwardRuns sampleConfig 0 votedSyncer).Runs after later →
          after.term ≤ later.term ∧ later.VotesApart := by
  have hok : votedSyncer.IsForward (copyOf 6) := by
    intro _ _ last hl
    obtain rfl := some.inj hl
    decide
  exact ⟨_, rfl, (SyncNode.term_never_goes_back_iff (System.Reachable.init rfl) rfl).2.2.mpr hok⟩

/-- An entry of term 3 is copied, the node becomes a follower, and another candidate of
term 5 gets its vote. -/
theorem syncer_votes_twice : votedSyncer.term = 5 ∧
      (votedSyncer.step sampleConfig 0 (copyOf 3)).map SyncNode.term = some 3 ∧
      (System.exec (SyncNode.step sampleConfig 0) votedSyncer
        [copyOf 3, .sync ⟨[], 0, 0, some 2⟩,
          .run (.receive ⟨2, 0, 0, .requestVoteRequest ⟨5, 2, 1, 3⟩⟩)]).map
        (fun s => s.node.log.votes) = some [(5, 1), (5, 2)] := by
  decide +kernel

end

end MySuperLedger.Sync
