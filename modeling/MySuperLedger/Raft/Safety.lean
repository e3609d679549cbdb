import MySuperLedger.Raft.Simulation

/-! # Safety of the cluster

Election safety, log matching and state machine safety, for every run of the
cluster. Each is read off the abstract protocol through the simulation; the two
that compare different times relate the earlier state to the same abstract run.
-/

namespace MySuperLedger.Raft

open Consensus Transition List Handler Cluster

variable {size : Nat} {Payload Handle : Type}

namespace Cluster

variable (cluster : Cluster size Payload Handle)

def IsLeader (id : Fin size) (term : Nat) : Prop :=
  (cluster.nodes id).role = .Leader ∧ (cluster.nodes id).log.currentTerm = term

/-- `voter` has voted for `candidate`: the vote was written, or a response grants it. -/
def Voted (term : Nat) (voter candidate : Fin size) : Prop :=
  (term, candidate) ∈ (cluster.nodes voter).log.votes ∨
    ∃ message ∈ cluster.network, ∃ response, message.body = .requestVoteResponse response ∧
      response.voteGranted = true ∧ response.savedTerm = term ∧ message.source = voter ∧
      message.target = candidate

/-- Both logs hold the same entry at the index. -/
def SameEntry (id : Fin size) (cluster' : Cluster size Payload Handle) (id' : Fin size)
    (index : Nat) : Prop :=
  ∃ entry, (cluster.nodes id).log.getEntry index = some entry ∧
    (cluster'.nodes id').log.getEntry index = some entry

end Cluster

variable {cluster : Cluster size Payload Handle} {a : Ghost size Payload} {id : Fin size}
  {term index : Nat} {earlier later : Cluster size Payload Handle}

section

variable (h : ClusterRel cluster a)
include h

theorem ClusterRel.granted_of_voted {voter candidate : Fin size}
    (hv : cluster.Voted term voter candidate) : a.granted term voter = some candidate := by
  rcases hv with hm | ⟨message, hm, response, hb, hg, rfl, rfl, rfl⟩
  · exact (h.log voter).votes term candidate hm
  · have hr := (h.network message hm).body
    rw [hb] at hr
    exact hr.2 hg

theorem ClusterRel.elected_of_isLeader (hlead : cluster.IsLeader id term) :
    ∃ base, a.elected term = some (id, base) ∧ base <+: (cluster.nodes id).log.entries ∧
      a.leaderLog term = (cluster.nodes id).log.entries := by
  rcases hlead with ⟨hr, rfl⟩
  have hl := (h.volatile id).leader hr
  rcases hl.elected with ⟨base, hel⟩
  exact ⟨base, hel, hl.log ▸ h.inv.leader_base _ id base hel, hl.log⟩

theorem ClusterRel.matches_log (id : Fin size) :
    Matches LogEntry.term a (cluster.nodes id).log.entries := by
  rw [← (h.log id).entries]
  exact h.inv.log_matches id

theorem ClusterRel.committed (hle : index ≤ (cluster.nodes id).commitIndex) :
    ∃ log, IsCommitted a (cluster.nodes id).log.currentTerm log ∧
      log <+: (cluster.nodes id).log.entries ∧ index ≤ log.length := by
  have hv := h.volatile id
  refine ⟨_, hv.committed, take_prefix _ _, ?_⟩
  rw [length_take_of_le hv.commit_le]
  exact hle

end

/-- Committed entries are the same at any two nodes and at any two times. -/
theorem ClusterRel.sameEntry_of_committed {a' : Ghost size Payload} (hr : ClusterRel earlier a)
    (hr' : ClusterRel later a') (hg : Grows a a') {id' : Fin size} (hpos : 1 ≤ index)
    (hle : index ≤ (earlier.nodes id).commitIndex) (hle' : index ≤ (later.nodes id').commitIndex) :
    earlier.SameEntry id later id' index := by
  rcases hr.committed hle with ⟨log, hc, hl, hlen⟩
  rcases hr'.committed hle' with ⟨log', hc', hl', hlen'⟩
  have hw := (hr.log id).whole
  have hw' := (hr'.log id').whole
  rcases hr'.inv.committed_total majorities_meet (hc.mono hg le_rfl) hc' with hp | hp
  · exact hw.exists_getEntry hw' hl (hp.trans hl') hpos hlen
  · exact hw.exists_getEntry hw' (hp.trans hl) hl' hpos hlen'

variable [DecidableEq Payload] {config : Config Payload}

theorem exists_rel_of_runs (hr : (system config).Reachable earlier)
    (hruns : (system config).Runs earlier later) :
    ∃ a a', ClusterRel earlier a ∧ ClusterRel later a' ∧ Grows a a' := by
  rcases (cluster_simulation config).reachable hr with ⟨a, _, hrel⟩
  rcases (cluster_simulation config).runs hrel hruns with ⟨a', hr', hrel'⟩
  exact ⟨a, a', hrel, hrel', grows_of_runs hr' hrel.inv⟩

def sampleConfig : Config Unit where
  maxBatchSize := 10
  maxLenInBytes := 100
  maxDecrStep := 1
  byteSize _ := 1

/-- Node 0 is elected, replicates its first entry to node 1 and commits it. -/
def leaderCommits : List (Label 2 Unit Unit) :=
  [ .run 0 .electionTimeout, .run 0 (.requestVote fun _ => true),
    .run 1 (.receive ⟨0, 1, 0, .requestVoteRequest ⟨1, 0, 0, 0⟩⟩),
    .run 0 (.receive ⟨1, 0, 0, .requestVoteResponse ⟨1, true, 1, 1⟩⟩),
    .run 0 (.becomeLeader ()),
    .run 0 (.appendEntries (fun _ => true) fun _ => 10),
    .run 1 (.receive ⟨0, 1, 0, .appendEntriesRequest ⟨1, 0, 0, 0, [], 0⟩⟩),
    .run 0 (.receive ⟨1, 0, 0, .appendEntriesResponse ⟨1, true, 1, 1, 0, 0, 0⟩⟩),
    .run 0 (.appendEntries (fun _ => true) fun _ => 10),
    .run 1 (.receive ⟨0, 1, 0, .appendEntriesRequest ⟨1, 0, 0, 0, [⟨1, 1, true, ()⟩], 0⟩⟩),
    .run 0 (.receive ⟨1, 0, 0, .appendEntriesResponse ⟨1, true, 1, 1, 0, 1, 1⟩⟩),
    .run 0 .advanceCommitIndex ]

/-- Node 1 learns that the entry is committed, stops, and is elected itself. -/
def followerTakesOver : List (Label 2 Unit Unit) :=
  [ .run 0 (.appendEntries (fun _ => true) fun _ => 10),
    .run 1 (.receive ⟨0, 1, 0, .appendEntriesRequest ⟨1, 0, 1, 1, [], 1⟩⟩),
    .crash 1 .electionTimeout 1,
    .run 1 .electionTimeout,
    .run 1 (.requestVote fun _ => true),
    .run 0 (.receive ⟨1, 0, 1, .requestVoteRequest ⟨3, 1, 1, 1⟩⟩),
    .run 1 (.receive ⟨0, 1, 1, .requestVoteResponse ⟨3, true, 0, 3⟩⟩),
    .run 1 (.becomeLeader ()) ]

def afterCommit : Cluster 2 Unit Unit :=
  (initial.run sampleConfig leaderCommits).getD initial

def afterTakeover : Cluster 2 Unit Unit :=
  (afterCommit.run sampleConfig followerTakesOver).getD initial

/-- A late copy of the request that brought the entry. -/
def lateRequest : Message 2 Unit :=
  ⟨0, 1, 0, .appendEntriesRequest ⟨1, 0, 0, 0, [⟨1, 1, true, ()⟩], 0⟩⟩

theorem run_leaderCommits : (initial.run sampleConfig leaderCommits).isSome = true ∧
      ((afterCommit.nodes 0).role = .Leader ∧ (afterCommit.nodes 0).log.currentTerm = 1) ∧
      (1, 0) ∈ (afterCommit.nodes 1).log.votes ∧
      (afterCommit.nodes 0).log.getEntry 1 = some ⟨1, 1, true, ()⟩ ∧
      (afterCommit.nodes 1).log.getEntry 1 = some ⟨1, 1, true, ()⟩ ∧
      1 ≤ (afterCommit.nodes 0).commitIndex ∧
      (afterCommit.nodes 1).log.currentTerm ≤ (afterCommit.nodes 0).log.currentTerm ∧
      1 ≤ ((afterCommit.nodes 0).peers 1).matchIndex := by
  decide +kernel

theorem run_followerTakesOver : (afterCommit.run sampleConfig followerTakesOver).isSome = true ∧
      ((afterTakeover.nodes 1).role = .Leader ∧ (afterTakeover.nodes 1).log.currentTerm = 3) ∧
      afterTakeover.MayRun 1 (.receive lateRequest) := by
  decide +kernel

theorem reachable_afterCommit : (system sampleConfig).Reachable afterCommit :=
  ⟨initial, rfl, System.runs_of_isSome _ run_leaderCommits.1⟩

theorem runs_afterTakeover : (system sampleConfig).Runs afterCommit afterTakeover :=
  System.runs_of_isSome _ run_followerTakesOver.1

/-- One leader a term and one vote a term, whatever two times are compared. -/
theorem election_safety {earlier later : Cluster size Payload Handle}
    (hreachable : (system config).Reachable earlier) (hruns : (system config).Runs earlier later) :
    (∀ term id id', earlier.IsLeader id term → later.IsLeader id' term → id = id') ∧
      ∀ term voter candidate candidate', earlier.Voted term voter candidate →
        later.Voted term voter candidate' → candidate = candidate' := by
  rcases exists_rel_of_runs hreachable hruns with ⟨a, a', hr, hr', hgrow⟩
  constructor
  · intro term id id' hl hl'
    rcases hr.elected_of_isLeader hl with ⟨base, hel, _⟩
    rcases hr'.elected_of_isLeader hl' with ⟨base', hel', _⟩
    have heq := (hgrow.elected _ _ hel).symm.trans hel'
    cases heq
    rfl
  · intro term voter candidate candidate' hv hv'
    have hg := hgrow.granted _ _ _ (hr.granted_of_voted hv)
    have heq := hg.symm.trans (hr'.granted_of_voted hv')
    exact Option.some.inj heq

theorem election_safety_afterTakeover :
    (afterCommit.IsLeader 0 1 ∧ ∀ id, afterTakeover.IsLeader id 1 → 0 = id) ∧
      (afterCommit.Voted 1 1 0 ∧ ∀ candidate, afterTakeover.Voted 1 1 candidate →
        0 = candidate) := by
  have hs := election_safety reachable_afterCommit runs_afterTakeover
  obtain ⟨-, hl, hvote, -⟩ := run_leaderCommits
  have hv : afterCommit.Voted 1 1 0 := Or.inl hvote
  exact ⟨⟨hl, fun id => hs.1 1 0 id hl⟩, ⟨hv, fun candidate => hs.2 1 1 0 candidate hv⟩⟩

/-- Logs that agree on a term agree up to there; terms do not decrease along a log and never
exceed the node's own. -/
theorem log_matching {cluster : Cluster size Payload Handle}
    (hreachable : (system config).Reachable cluster) :
    (∀ id id' index entry entry', (cluster.nodes id).log.getEntry index = some entry →
      (cluster.nodes id').log.getEntry index = some entry' → entry.term = entry'.term →
      ∀ index', 1 ≤ index' → index' ≤ index → cluster.SameEntry id cluster id' index') ∧
    (∀ id index index' entry entry', index ≤ index' →
      (cluster.nodes id).log.getEntry index = some entry →
      (cluster.nodes id).log.getEntry index' = some entry' → entry.term ≤ entry'.term) ∧
    ∀ id index entry, (cluster.nodes id).log.getEntry index = some entry →
      entry.term ≤ (cluster.nodes id).log.currentTerm := by
  rcases exists_rel_of_runs hreachable (System.Runs.refl _ _) with ⟨a, _, hrel, _, _⟩
  refine ⟨?_, ?_, ?_⟩
  · intro id id' index entry entry' hent hent' hterm index' hpos hle
    have hwh := (hrel.log id).whole
    have hwh' := (hrel.log id').whole
    rcases hwh.exists_concat_of_getEntry hent with ⟨before, hlen, hpre⟩
    rcases hwh'.exists_concat_of_getEntry hent' with ⟨before', hlen', hpre'⟩
    have heq := Matches.eq_of_term_eq (hrel.matches_log id) (hrel.matches_log id') hpre hpre'
      hterm (by omega)
    rw [← heq] at hpre'
    exact hwh.exists_getEntry hwh' hpre hpre' hpos (by simp; omega)
  · intro id index index' entry entry' hle hent hent'
    have hwh := (hrel.log id).whole
    rcases hwh.exists_concat_of_getEntry hent with ⟨before, hlen, hpre⟩
    rcases hwh.exists_concat_of_getEntry hent' with ⟨before', hlen', hpre'⟩
    rcases concat_prefix_concat (prefix_of_prefix_length_le hpre hpre' (by simp; omega)) with
      hbefore | ⟨_, rfl⟩
    · exact hrel.inv.term_le_of_isPrefix (hrel.matches_log id) hpre' (hbefore.subset (by simp))
    · exact le_rfl
  · intro id index entry hent
    rcases (hrel.log id).whole.exists_concat_of_getEntry hent with ⟨before, _, hpre⟩
    rw [← (hrel.log id).term]
    refine hrel.inv.log_term id entry ?_
    rw [(hrel.log id).entries]
    exact hpre.subset (by simp)

theorem log_matching_afterCommit : (afterCommit.nodes 0).log.getEntry 1 = some ⟨1, 1, true, ()⟩ ∧
      (afterCommit.nodes 1).log.getEntry 1 = some ⟨1, 1, true, ()⟩ ∧
      afterCommit.SameEntry 0 afterCommit 1 1 := by
  obtain ⟨-, -, -, he, he', -⟩ := run_leaderCommits
  exact ⟨he, he', (log_matching reachable_afterCommit).1 0 1 1 _ _ he he' rfl 1 le_rfl le_rfl⟩

/-- Committed entries never differ, whatever two nodes and two times are compared, and the
leaders of later terms have them all, at any time before or after. -/
theorem state_machine_safety {earlier later : Cluster size Payload Handle}
    (hreachable : (system config).Reachable earlier) (hruns : (system config).Runs earlier later) :
    (∀ id id' index, 1 ≤ index → index ≤ (earlier.nodes id).commitIndex →
      index ≤ (later.nodes id').commitIndex → earlier.SameEntry id later id' index) ∧
    (∀ id id' index term, 1 ≤ index → index ≤ (earlier.nodes id).commitIndex →
      (earlier.nodes id).log.currentTerm ≤ term → later.IsLeader id' term →
      earlier.SameEntry id later id' index) ∧
    ∀ id id' index term, 1 ≤ index → index ≤ (later.nodes id).commitIndex →
      (later.nodes id).log.currentTerm < term → earlier.IsLeader id' term →
      later.SameEntry id earlier id' index := by
  rcases exists_rel_of_runs hreachable hruns with ⟨a, a', hrel, hrel', hgrow⟩
  refine ⟨?_, ?_, ?_⟩
  · intro id id' index hpos hle hle'
    exact hrel.sameEntry_of_committed hrel' hgrow hpos hle hle'
  · intro id id' index term hpos hle hterm hlead
    rcases hrel.committed hle with ⟨log, hc, hlog, hlen⟩
    rcases hrel'.elected_of_isLeader hlead with ⟨base, hel, _, hleaderLog⟩
    have hpre := hrel'.inv.committed_prefix_leaderLog majorities_meet (hc.mono hgrow le_rfl)
      hterm (by rw [hel]; exact Option.some_ne_none _)
    rw [hleaderLog] at hpre
    exact (hrel.log id).whole.exists_getEntry (hrel'.log id').whole hlog hpre hpos hlen
  · intro id id' index term hpos hle hterm hlead
    rcases hrel'.committed hle with ⟨log, hc, hlog, hlen⟩
    rcases hrel.elected_of_isLeader hlead with ⟨base, hel, hbase, _⟩
    -- the entry was already in the log the leader was elected with
    have hpre : log <+: base := by
      rcases hc with rfl | ⟨t, p, ht, hcho, hp⟩
      · exact nil_prefix
      · exact hp.trans (hrel'.inv.chosen_prefix_base majorities_meet hcho term id' base
          (lt_of_le_of_lt ht hterm) (hgrow.elected _ _ hel))
    exact (hrel'.log id).whole.exists_getEntry (hrel.log id').whole hlog (hpre.trans hbase) hpos
      hlen

theorem state_machine_safety_afterTakeover :
    (1 ≤ (afterCommit.nodes 0).commitIndex ∧ afterTakeover.IsLeader 1 3) ∧
      afterCommit.SameEntry 0 afterTakeover 1 1 := by
  obtain ⟨-, ⟨-, hf⟩, -, -, -, hc, -⟩ := run_leaderCommits
  have ht : (afterCommit.nodes 0).log.currentTerm ≤ 3 := by omega
  have hl : afterTakeover.IsLeader 1 3 := run_followerTakesOver.2.1
  have hs := state_machine_safety reachable_afterCommit runs_afterTakeover
  exact ⟨⟨hc, hl⟩, hs.2.1 0 1 1 3 le_rfl hc ht hl⟩

/-- What a leader counts on for a peer, the peer has, for as long as it has not gone on to
a later term. -/
theorem matchIndex_truthful {cluster : Cluster size Payload Handle}
    (hreachable : (system config).Reachable cluster) {leader peer : Fin size}
    (hne : peer ≠ leader) (hrole : (cluster.nodes leader).role = .Leader)
    (hterm : (cluster.nodes peer).log.currentTerm ≤ (cluster.nodes leader).log.currentTerm)
    {index : Nat} (hpos : 1 ≤ index)
    (hle : index ≤ ((cluster.nodes leader).peers peer).matchIndex) :
    cluster.SameEntry leader cluster peer index := by
  rcases (cluster_simulation config).reachable hreachable with ⟨a, hr', hr⟩
  have hlead := (hr.volatile leader).leader hrole
  have hl := hr.log peer
  have ha := hr.inv.acked_leader (cluster.nodes leader).log.currentTerm peer
  rw [hlead.log] at ha
  have hh := (ackedHeld_of_reachable hr').isPrefix hr.inv (hl.term.trans_le hterm)
  rw [hl.entries] at hh
  exact (hr.log leader).whole.exists_getEntry hl.whole ha hh hpos
    (hle.trans (hlead.match_le peer hne))

theorem matchIndex_truthful_afterCommit : (afterCommit.nodes 0).role = .Leader ∧
      1 ≤ ((afterCommit.nodes 0).peers 1).matchIndex ∧
      afterCommit.SameEntry 0 afterCommit 1 1 := by
  obtain ⟨-, ⟨hr, -⟩, -, -, -, -, ht, hm⟩ := run_leaderCommits
  exact ⟨hr, hm, matchIndex_truthful reachable_afterCommit (by decide) hr ht le_rfl
    hm⟩

omit [DecidableEq Payload] in
theorem ClusterRel.exists_holders {bound : Nat} {log : List (LogEntry Payload)}
    (h : ClusterRel cluster a) (hc : IsCommitted a bound log) (hpos : 1 ≤ log.length) :
    ∃ holders, IsMajority holders ∧
      ∀ holder ∈ holders, log <+: (cluster.nodes holder).log.entries := by
  rcases hc with rfl | ⟨t, p, _, hcho, hp⟩
  · cases hpos
  · rcases h.inv.chosen_prefix_log majorities_meet hcho with ⟨holders, hmaj, hheld⟩
    refine ⟨holders, hmaj, fun holder hm => ?_⟩
    rw [← (h.log holder).entries]
    exact hp.trans (hheld holder hm)

/-- What a node has committed a majority has on disk from then on, whoever crashes. -/
theorem committed_on_majority {earlier later : Cluster size Payload Handle}
    (hreachable : (system config).Reachable earlier)
    (hruns : (system config).Runs earlier later) {id : Fin size} {index : Nat} (hpos : 1 ≤ index)
    (hle : index ≤ (earlier.nodes id).commitIndex) :
    ∃ holders, IsMajority holders ∧
      ∀ holder ∈ holders, earlier.SameEntry id later holder index := by
  rcases exists_rel_of_runs hreachable hruns with ⟨a, a', hrel, hrel', hgrow⟩
  rcases hrel.committed hle with ⟨log, hc, hlog, hlen⟩
  rcases hrel'.exists_holders (hc.mono hgrow le_rfl) (hpos.trans hlen) with
    ⟨holders, hmaj, hheld⟩
  exact ⟨holders, hmaj, fun holder hm => (hrel.log id).whole.exists_getEntry
    (hrel'.log holder).whole hlog (hheld holder hm) hpos hlen⟩

theorem committed_on_majority_afterTakeover : 1 ≤ (afterCommit.nodes 0).commitIndex ∧
      ∃ holders, IsMajority holders ∧
        ∀ holder ∈ holders, afterCommit.SameEntry 0 afterTakeover holder 1 := by
  obtain ⟨-, -, -, -, -, hc, -⟩ := run_leaderCommits
  exact ⟨hc, committed_on_majority reachable_afterCommit runs_afterTakeover le_rfl hc⟩

/-- A leader only appends, from the first moment of its term to the last. -/
theorem leader_append_only {earlier later : Cluster size Payload Handle}
    (hreachable : (system config).Reachable earlier)
    (hruns : (system config).Runs earlier later) {id : Fin size} {term : Nat}
    (hlead : earlier.IsLeader id term) (hstill : later.IsLeader id term) :
    (earlier.nodes id).log.entries <+: (later.nodes id).log.entries := by
  rcases exists_rel_of_runs hreachable hruns with ⟨a, a', hrel, hrel', hgrow⟩
  rcases hrel.elected_of_isLeader hlead with ⟨_, _, _, hlog⟩
  rcases hrel'.elected_of_isLeader hstill with ⟨_, _, _, hlog'⟩
  rw [← hlog, ← hlog']
  exact hgrow.leaderLog term

/-- The leader takes a request of a client. -/
def takesRequest : List (Label 2 Unit Unit) :=
  [ .enqueueClientRequests 0 [⟨⟨1, 2, false, ()⟩, none⟩], .run 0 .receiveClientRequests ]

def afterRequest : Cluster 2 Unit Unit := (afterCommit.run sampleConfig takesRequest).getD initial

theorem leader_append_only_afterRequest : (afterRequest.nodes 0).log.entries.length = 2 ∧
      (afterCommit.nodes 0).log.entries <+: (afterRequest.nodes 0).log.entries := by
  have hrun : (afterCommit.run sampleConfig takesRequest).isSome = true := by decide +kernel
  have hruns : (system sampleConfig).Runs afterCommit afterRequest :=
    System.runs_of_isSome _ hrun
  have hstill : (afterRequest.nodes 0).role = .Leader ∧
      (afterRequest.nodes 0).log.currentTerm = 1 := by decide +kernel
  exact ⟨by decide +kernel,
    leader_append_only reachable_afterCommit hruns run_leaderCommits.2.1 hstill⟩

omit [DecidableEq Payload] in
/-- The index that `advanceCommitIndex` takes is the largest one that a majority has, and whatever
majority has it meets every majority of voters, the voters of any candidate that becomes leader in
particular. -/
theorem commit_quorum_meets_vote_quorum (indices : List Nat) (hpos : 1 ≤ indices.length) :
    IsGreatest {v | getMajorityNumber indices.length ≤
        indices.countP fun index => decide (v ≤ index)} (middle indices) ∧
    ∀ holders : Finset (Fin indices.length), getMajorityNumber indices.length ≤ holders.card →
      (∀ id ∈ holders, middle indices ≤ indices.get id) →
      (∀ voters : Finset (Fin indices.length),
        getMajorityNumber indices.length ≤ voters.card → ∃ id, id ∈ holders ∧ id ∈ voters) ∧
      ∀ (candidate : Fin indices.length) (noop : Payload)
        (node after : Node indices.length Payload Handle)
        (es : List (Effect indices.length Payload Handle)), node.role = .Candidate →
        (becomeLeader candidate noop).RunsTo node es () after → after.role = .Leader →
        ∃ id ∈ holders, id = candidate ∨ (node.peers id).haveVote = true := by
  refine ⟨isGreatest_middle hpos, fun holders hh _ => ⟨?_, ?_⟩⟩
  · intro voters hv
    exact majorities_meet holders voters hh hv
  · intro candidate noop node after es hc hr hl
    obtain ⟨voters, hv, hvote⟩ := exists_voters_of_becomeLeader hc hr hl
    obtain ⟨id, hhold, hvotes⟩ := majorities_meet holders voters hh hv
    exact ⟨id, hhold, hvote id hvotes⟩

theorem commit_quorum_meets_vote_quorum_four :
    IsGreatest {v | 3 ≤ [3, 1, 2, 5].countP fun index => decide (v ≤ index)} 2 ∧
      ∃ id : Fin 4, id ∈ ({0, 2, 3} : Finset (Fin 4)) ∧ id ∈ ({0, 1, 2} : Finset (Fin 4)) := by
  obtain ⟨hg, hm⟩ := @commit_quorum_meets_vote_quorum Unit Unit [3, 1, 2, 5] (by decide)
  exact ⟨hg, (hm {0, 2, 3} (by decide) (by decide)).1 {0, 1, 2} (by decide)⟩

/-- The checks of the handlers, but for the three that a leader makes on how far the answers
of its calls have come. -/
def Check.ofHandlers : List Check :=
  [.leaderId, .noGap, .truncateCommitted, .appendEntries, .commitIndex, .stillLeader,
    .advanceCommitIndex, .appendNoop, .stepDownTerm, .stepDownRole, .termOfLogEntryAt, .getEntries]

/-- No step of a node can fail one of these checks. -/
theorem handler_checks_hold {cluster : Cluster size Payload Handle}
    (hreachable : (system config).Reachable cluster) {id : Fin size}
    {op : Op size Payload} (hmay : cluster.MayRun id op) :
    ∀ check ∈ Check.ofHandlers, (op.run config id (cluster.nodes id)).result ≠ .error check := by
  rcases (cluster_simulation config).reachable hreachable with ⟨a, _, hr⟩
  intro check hm hf
  rcases (hr.wp config hmay).fail check hf with rfl | rfl | rfl
  all_goals exact absurd hm (by decide)

/-- A late copy of a request that the follower has answered before its restart. -/
theorem handler_checks_hold_late : afterTakeover.MayRun 1
      (.receive ⟨0, 1, 0, .appendEntriesRequest ⟨1, 0, 0, 0, [⟨1, 1, true, ()⟩], 0⟩⟩) ∧
    ∀ check ∈ Check.ofHandlers,
      ((Op.receive ⟨0, 1, 0, .appendEntriesRequest ⟨1, 0, 0, 0, [⟨1, 1, true, ()⟩], 0⟩⟩).run
        sampleConfig 1 (afterTakeover.nodes 1)).result ≠ .error check := by
  have hm := run_followerTakesOver.2.2
  exact ⟨hm, handler_checks_hold (reachable_afterCommit.runs runs_afterTakeover) hm⟩

end MySuperLedger.Raft
