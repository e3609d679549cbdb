import MySuperLedger.Replica.System
import MySuperLedger.Replica.Takeover

/-! # The invariant of the replicas

Every step of a thread, of raft or of a crash keeps the cluster within the
protocol, every plan genuine, every command process loop within its plan, and
every event apply loop on the committed log.
-/

namespace MySuperLedger.Replica

open Consensus Ledger Raft Transition List Function NodeRun

variable {size : Nat} {a a' : Ghost size RaftPayload} {planned planned' : Nat → List Entry}
  {replicas replicas' : Replicas size} {id : Fin size} {config : Config RaftPayload}

/-- The event apply loop has read committed entries only. -/
def FollowerInv (a : Ghost size RaftPayload) (node : Node size RaftPayload Unit)
    (eal : EventApplyLoop) : Prop :=
  ∃ popped delivered, eal.Inv (IsCommitted a node.log.currentTerm) popped delivered

structure ReplicasInv (replicas : Replicas size) (a : Ghost size RaftPayload)
    (planned : Nat → List Entry) : Prop where
  cluster : ClusterRel replicas.cluster a
  plan : Plan a planned
  leader : ∀ id, LeaderInv a planned id (replicas.cluster.nodes id) (replicas.processes id).eal
    (replicas.processes id).cpl
  follower : ∀ id, FollowerInv a (replicas.cluster.nodes id) (replicas.processes id).eal

theorem ReplicasInv.initial :
    ReplicasInv (Replicas.initial : Replicas size) State.initial fun _ => [] where
  cluster := ClusterRel.initial
  plan := Plan.initial
  leader _ := by
    refine LeaderInv.start ?_ _ _ _
    intro term base hel
    cases hel
  follower _ := ⟨[], [], EventApplyLoop.inv_initial (.inl rfl)⟩

variable {eal : EventApplyLoop} {cluster' : Cluster size RaftPayload Unit} {process : Process}
  {node node' : Node size RaftPayload Unit} {op : Op size RaftPayload}

theorem FollowerInv.mono (h : FollowerInv a node eal) (hg : Grows a a')
    (ht : node.log.currentTerm ≤ node'.log.currentTerm) : FollowerInv a' node' eal := by
  rcases h with ⟨popped, delivered, he⟩
  exact ⟨popped, delivered, he.mono fun log hl => hl.mono hg ht⟩

theorem currentTerm_le {cluster : Cluster size RaftPayload Unit} (hr : ClusterRel cluster a)
    (hr' : ClusterRel cluster' a') (hg : Grows a a') (id : Fin size) :
    (cluster.nodes id).log.currentTerm ≤ (cluster'.nodes id).log.currentTerm := by
  rw [← (hr.log id).term, ← (hr'.log id).term]
  exact hg.term id

section

variable (h : ReplicasInv replicas a planned)
include h

theorem ReplicasInv.moves {supply : Supply RaftPayload}
    {dropped : Nat → Prop} (hmov : Moves id supply a a') (hrel : ClusterRel cluster' a')
    (hnod : cluster'.nodes = update replicas.cluster.nodes id node')
    (hdrop : ∀ term, dropped term → ∃ base, a'.elected term = some (id, base))
    (hsup : Supplies a planned id supply)
    (hlead : LeaderInv a' (replan planned a a' dropped) id node' process.eal process.cpl)
    (hfol : FollowerInv a' node' process.eal) :
    ReplicasInv
      { cluster := cluster', processes := update replicas.processes id process } a'
      (replan planned a a' dropped) where
  cluster := hrel
  plan := h.plan.moves h.cluster.inv hmov hsup (replan_cases planned a a' dropped)
  leader j := by
    by_cases hj : j = id
    · subst hj
      simp only [hnod, update_self]
      exact hlead
    · have hsame := SameFor.of_frame (frame hmov h.cluster.inv) hj
      simp only [hnod, update_of_ne hj]
      refine (h.leader j).other hsame fun term base hel => ?_
      refine replan_of_other (fun hd => ?_) (hsame.leaderLog term base hel)
      rcases hdrop term hd with ⟨base', hel'⟩
      rw [hsame.grows.elected _ _ hel] at hel'
      cases hel'
      exact hj rfl
  follower j := by
    by_cases hj : j = id
    · subst hj
      simp only [hnod, update_self]
      exact hfol
    · have hgrow := (frame hmov h.cluster.inv).toGrows
      simp only [hnod, update_of_ne hj]
      exact (h.follower j).mono hgrow le_rfl

theorem ReplicasInv.supplies (id : Fin size) :
    Supplies a planned id (replicas.cluster.nodes id).supply :=
  (h.leader id).supplies (h.cluster.log id).term

theorem ReplicasInv.raft (hs : replicas.cluster.step config (.run id op) = some cluster') :
    ∃ a' node', Moves id (replicas.cluster.nodes id).supply a a' ∧
      Kept (replicas.cluster.nodes id) node' ∧
      cluster'.nodes = update replicas.cluster.nodes id node' ∧
      ReplicasInv { replicas with cluster := cluster' } a'
        (replan planned a a' fun _ => False) := by
  rcases Cluster.step_inv config hs with ⟨id', op', node', hl, hmay, hres, rfl⟩ |
    ⟨_, _, _, hl, _⟩ | ⟨_, _, hl, _⟩
  · cases hl
    rcases h.cluster.run config hmay hres with ⟨a', hm, hk, hr⟩
    have hg := (frame hm h.cluster.inv).toGrows
    have hn := Cluster.nodes_absorbAll_setNode replicas.cluster id
      (op.run config id (replicas.cluster.nodes id)).effects node'
    have hv' := hr.volatile id
    rw [hn, update_self] at hv'
    have hlead := (h.leader id).run h.plan h.cluster.inv hm (h.supplies id)
      (h.cluster.log id).term (h.cluster.volatile id) hv' hk
    have hnext := h.moves hm hr hn (fun _ hd => hd.elim) (h.supplies id) hlead
      ((h.follower id).mono hg hk.term_le)
    rw [update_eq_self] at hnext
    exact ⟨a', node', hm, hk, hn, hnext⟩
  · cases hl
  · cases hl

theorem ReplicasInv.crash {count : Nat}
    (hs : replicas.cluster.step config (.crash id op count) = some cluster') :
    ∃ a' node', Moves id (replicas.cluster.nodes id).supply a a' ∧
      cluster'.nodes = update replicas.cluster.nodes id node' ∧
      ReplicasInv
        { cluster := cluster'
          processes := update replicas.processes id
            (Process.start (replicas.processes id).eal.machine.rocksDB) } a'
        (replan planned a a' fun term => ∃ base, a'.elected term = some (id, base)) := by
  rcases Cluster.step_inv config hs with ⟨_, _, _, hl, _⟩ |
    ⟨id', op', count', hl, hmay, rfl⟩ | ⟨_, _, hl, _⟩
  · cases hl
  · cases hl
    rcases h.cluster.crash config hmay count with ⟨a', hm, hr⟩
    have hg := (frame hm h.cluster.inv).toGrows
    have hn := Cluster.nodes_absorbAll_restart replicas.cluster id
      ((op.run config id (replicas.cluster.nodes id)).effects.take count)
    have ht := currentTerm_le h.cluster hr hg id
    rw [hn, update_self] at ht
    rcases (h.follower id).mono hg ht with ⟨popped, delivered, he⟩
    refine ⟨a', _, hm, hn, h.moves hm hr hn (fun _ hd => hd) (h.supplies id)
      (LeaderInv.start (fun term base hel => ?_) _ _ _)
      ⟨popped, _, he.start fun _ _ hc hp => hc.of_isPrefix hp⟩⟩
    exact if_pos (.inr ⟨base, hel⟩)
  · cases hl

/-- Process `id` took a step that may extend the plans of the terms it leads. -/
theorem ReplicasInv.setProcess (hp : Plan a planned')
    (ho : ∀ term c base, c ≠ id → a.elected term = some (c, base) → planned' term = planned term)
    (hl : LeaderInv a planned' id (replicas.cluster.nodes id) process.eal process.cpl)
    (hf : FollowerInv a (replicas.cluster.nodes id) process.eal) :
    ReplicasInv (replicas.setProcess id process) a planned' where
  cluster := h.cluster
  plan := hp
  leader j := by
    by_cases hj : j = id
    · subst hj
      simp only [Replicas.setProcess, update_self]
      exact hl
    · simp only [Replicas.setProcess, update_of_ne hj]
      exact (h.leader j).other ⟨Grows.refl a, fun _ _ hel => hel, fun _ _ _ => rfl⟩
        fun term base hel => ho term j base hj hel
  follower j := by
    by_cases hj : j = id
    · subst hj
      simp only [Replicas.setProcess, update_self]
      exact hf
    · simp only [Replicas.setProcess, update_of_ne hj]
      exact h.follower j

theorem ReplicasInv.setEal (ha : (replicas.processes id).eal.Advances eal)
    (hf : FollowerInv a (replicas.cluster.nodes id) eal) :
    ReplicasInv (replicas.setProcess id { replicas.processes id with eal := eal }) a planned :=
  h.setProcess h.plan (fun _ _ _ _ _ => rfl) ((h.leader id).of_advances ha) hf

/-- What the load thread reads continues what the event apply loop has read. -/
theorem ReplicasInv.loadEntries {commitIndex room : Nat} {store : ReadonlyRaftCommandEventStore}
    (hrun : (replicas.processes id).eal.store.loadEntries config (replicas.cluster.nodes id)
      commitIndex room = some store) :
    (replicas.processes id).eal.Advances { (replicas.processes id).eal with store := store } ∧
      FollowerInv a (replicas.cluster.nodes id)
        { (replicas.processes id).eal with store := store } := by
  unfold ReadonlyRaftCommandEventStore.loadEntries at hrun
  split at hrun
  · rename_i hload
    rcases hload with ⟨hrunning, _, hlt, hcom⟩
    rcases Option.map_eq_some_iff.mp hrun with ⟨entries, hents, rfl⟩
    refine ⟨EventApplyLoop.advances_of_same rfl (Nat.le_add_right _ _) le_rfl, ?_⟩
    rcases h.follower id with ⟨popped, delivered, he⟩
    refine ⟨popped, delivered, he.load hrunning ?_⟩
    have hrec : (replicas.processes id).eal.shouldRecover = false := by
      cases hr : (replicas.processes id).eal.shouldRecover with
      | false => rfl
      | true =>
        rw [he.recovering hr] at hrunning
        cases hrunning
    have hloaded := he.loaded hrec
    have hv := h.cluster.volatile id
    have hlen := length_take_of_le hv.commit_le
    -- the node has committed what was read and more
    have hread : popped ++ (replicas.processes id).eal.store.waiting <+:
        (replicas.cluster.nodes id).log.entries.take (replicas.cluster.nodes id).commitIndex := by
      rcases h.cluster.inv.committed_total majorities_meet he.read hv.committed with hpre | hpre
      · exact hpre
      · have hle := hpre.length_le
        omega
    have hbat := ((h.cluster.log id).whole.getEntries_inv hents).2
    have hsize := Log.getEntries_length_le hents
    have hlog := hread.trans (List.take_prefix _ _)
    have hmore : popped ++ (replicas.processes id).eal.store.waiting ++ entries <+:
        (replicas.cluster.nodes id).log.entries := by
      rcases hlog with ⟨rest, hrest⟩
      rw [← hrest, Nat.add_sub_cancel, hloaded, drop_left] at hbat
      rw [← hrest]
      exact (prefix_append_right_inj _).mpr hbat
    refine hv.committed.of_isPrefix (prefix_of_prefix_length_le hmore (List.take_prefix _ _) ?_)
    rw [hlen, length_append]
    omega
  · cases hrun

theorem ReplicasInv.thread {threadStep : ThreadStep}
    (hrun : (replicas.processes id).step config (replicas.cluster.nodes id)
      threadStep = some process) :
    ∃ planned', Replans a id (replicas.cluster.nodes id) (replicas.processes id).cpl process.cpl
        planned planned' ∧
      ReplicasInv (replicas.setProcess id process) a planned' := by
  cases threadStep with
  | dequeueCommand command =>
    simp only [Process.step, Process.dequeueCommand] at hrun
    split at hrun
    · rename_i hpc
      cases hrun
      have hlead := (h.leader id).setPc_same
        (show Knows a planned id _ _ _ (.readTerm command) from trivial) (by rw [hpc]; rfl)
      exact ⟨planned, Replans.refl le_rfl,
        h.setProcess h.plan (fun _ _ _ _ _ => rfl) hlead (h.follower id)⟩
    · cases hrun
  | processCommands reading now =>
    simp only [Process.step] at hrun
    split at hrun
    · rename_i hread
      rcases Option.map_eq_some_iff.mp hrun with ⟨⟨cpl, eal⟩, hcpl, rfl⟩
      rcases h.follower id with ⟨popped, delivered, he⟩
      rcases (h.leader id).cplRun h.plan h.cluster.inv (h.cluster.log id)
        (h.cluster.volatile id) he hcpl hread with
        ⟨planned', hplan, hlead, hfol, hrepl⟩
      exact ⟨planned', hrepl, h.setProcess hplan hrepl.other hlead hfol⟩
    · cases hrun
  | applyEvents =>
    rcases Option.map_eq_some_iff.mp hrun with ⟨eal, heal, rfl⟩
    rcases h.follower id with ⟨popped, delivered, he⟩
    have hfol := he.run (fun _ _ hc hpre => hc.of_isPrefix hpre)
      (fun _ hc => h.plan.sound_of_committed h.cluster.inv hc) heal
    exact ⟨planned, Replans.refl le_rfl, h.setEal (EventApplyLoop.run_advances heal) hfol⟩
  | loadEntries commitIndex room =>
    rcases Option.map_eq_some_iff.mp hrun with ⟨store, hsto, rfl⟩
    rcases h.loadEntries hsto with ⟨hadv, hfol⟩
    exact ⟨planned, Replans.refl le_rfl, h.setEal hadv hfol⟩
  | decryptEntries position =>
    rcases Option.map_eq_some_iff.mp hrun with ⟨store, hsto, rfl⟩
    rcases h.follower id with ⟨popped, delivered, he⟩
    exact ⟨planned, Replans.refl le_rfl, h.setEal (EventApplyLoop.decrypt_advances hsto)
      ⟨popped, delivered, he.decrypt hsto⟩⟩
  | persist =>
    rcases Option.map_eq_some_iff.mp hrun with ⟨logStore, hlog, rfl⟩
    exact ⟨planned, Replans.refl (dequeue_length_le hlog),
      h.setProcess h.plan (fun _ _ _ _ _ => rfl) ((h.leader id).dequeue hlog)
        (h.follower id)⟩

end

theorem LeaderInv.sendBatch {cpl : CommandProcessLoop} (h : LeaderInv a planned id node eal cpl) :
    LeaderInv a planned id
      { node with
        clientRequestsQueue := node.clientRequestsQueue ++ [cpl.store.logStore.batch] }
      eal
      { cpl with
        store := { cpl.store with logStore := { cpl.store.logStore with batch := [] } } } := by
  refine ⟨h.logStoreTerm, h.logStoreRole, h.elected, h.knows, h.waiting, ?_, h.ahead, h.leads,
    h.speculates⟩
  intro entry he
  exact h.requests entry (by simpa [inFlight, or_assoc] using he)

theorem ReplicasInv.sendBatch (h : ReplicasInv replicas a planned)
    (hr : replicas.sendBatch config id = some replicas') : ReplicasInv replicas' a planned := by
  unfold Replicas.sendBatch at hr
  simp only at hr
  split at hr
  · cases hr
  · cases hr
    refine ⟨h.cluster.enqueue _, h.plan, fun j => ?_, fun j => ?_⟩
    · by_cases hj : j = id
      · subst hj
        simp only [Cluster.setNode, update_self]
        exact (h.leader j).sendBatch
      · simp only [Cluster.setNode, update_of_ne hj]
        exact h.leader j
    · by_cases hj : j = id
      · subst hj
        simp only [Cluster.setNode, update_self]
        exact h.follower j
      · simp only [Cluster.setNode, update_of_ne hj]
        exact h.follower j

theorem ReplicasInv.step (h : ReplicasInv replicas a planned) {action : Action size}
    (hs : replicas.step config action = some replicas') :
    ∃ a' planned', Grows a a' ∧ ReplicasInv replicas' a' planned' := by
  cases action with
  | raft id op =>
    rcases Option.map_eq_some_iff.mp hs with ⟨cluster', hc, rfl⟩
    rcases h.raft hc with ⟨a', _, hm, _, _, h'⟩
    exact ⟨a', _, (frame hm h.cluster.inv).toGrows, h'⟩
  | crash id op count =>
    rcases Option.map_eq_some_iff.mp hs with ⟨cluster', hc, rfl⟩
    rcases h.crash hc with ⟨a', _, hm, _, h'⟩
    exact ⟨a', _, (frame hm h.cluster.inv).toGrows, h'⟩
  | thread id threadStep =>
    rcases Option.map_eq_some_iff.mp hs with ⟨process, hp, rfl⟩
    rcases h.thread hp with ⟨planned', _, h'⟩
    exact ⟨a, planned', Grows.refl a, h'⟩
  | sendBatch id => exact ⟨a, planned, Grows.refl a, h.sendBatch hs⟩

theorem ReplicasInv.runs (h : ReplicasInv replicas a planned)
    (hr : (Replicas.system config).Runs replicas replicas') :
    ∃ a' planned', Grows a a' ∧ ReplicasInv replicas' a' planned' := by
  induction hr with
  | refl => exact ⟨a, planned, Grows.refl a, h⟩
  | tail _ hs ih =>
    rcases ih with ⟨a', planned', hg, h'⟩
    rcases hs with ⟨action, hs⟩
    rcases h'.step hs with ⟨a'', planned'', hg', h''⟩
    exact ⟨a'', planned'', hg.trans hg', h''⟩

theorem replicasInv_of_reachable (hr : (Replicas.system config).Reachable replicas) :
    ∃ a planned, ReplicasInv replicas a planned := by
  rcases hr with ⟨start, hi, hruns⟩
  have hs : start = Replicas.initial := hi
  subst hs
  rcases ReplicasInv.initial.runs hruns with ⟨a, planned, _, h⟩
  exact ⟨a, planned, h⟩

end MySuperLedger.Replica
