import Mathlib.Order.Bounds.Defs
import MySuperLedger.Raft.Election

/-! # Replication follows the protocol

The handlers that move entries from a leader to its followers and advance the
commit index, each in the program logic of the abstraction.
-/

namespace MySuperLedger.Raft

open Consensus Effects Effects.Logic List Log Handler LogEntry Handled

variable {size : Nat} {Payload Handle : Type} {me : Fin size} {start : Start size Payload}
  {node : Node size Payload Handle} {es : List (Effect size Payload Handle)}
  {a : Ghost size Payload} (h : Working me start node.log es a) (hv : VolatileRel me node a)

/-! ## Sending a batch -/

theorem LeaderRel.batch (hl : LeaderRel me node a) (hr : LogRel me node.log a)
    (hv : VolatileRel me node a) {prev : Nat} {batch : List (LogEntry Payload)}
    (hprev : prev ≤ node.log.entries.length) (hb : batch <+: node.log.entries.drop prev) :
    BatchRel (node.appendEntriesRequest me prev
        (lastTerm term (node.log.entries.take prev)) batch)
      (node.log.entries.take prev) a := by
  have hp : node.log.entries.take prev ++ batch <+: node.log.entries := by
    conv_rhs => rw [← take_append_drop prev node.log.entries]
    exact (prefix_append_right_inj _).mpr hb
  have hlen : (node.log.entries.take prev ++ batch).length = prev + batch.length := by
    rw [length_append, length_take]
    omega
  refine ⟨length_take_of_le hprev, rfl, hr.whole.numbered.of_isPrefix hp, hl.log.symm ▸ hp, ?_, ?_⟩
  · exact (Nat.min_le_right _ _).trans hlen.ge
  · refine hv.committed.of_isPrefix ?_
    refine (hp.take _).trans ?_
    exact take_prefix_take_left (Nat.min_le_left _ _)

include h hv in
theorem wp_appendEntries (config : Config Payload) (due : Fin size → Bool) (room : Fin size → Nat)
    (hmay : ∀ message, IsCall me node message → start.maySend message) :
    (raftLogic me start).Wp (appendEntries me config due room)
      (fun _ => Calling me start node) node es a := by
  have hst := Calling.refl h hv
  apply Wp.get_bind
  apply Wp.when
  · intro hrole
    apply Wp.forEach (Calling me start node) ?_ hst
    intro id hid node' es' a' hcall
    have hne := mem_others.mp hid
    have hl := hcall.volatile.leader (hcall.role_eq.trans hrole)
    have hrel := hcall.working.rel
    have hnext := hl.next_le id hne
    have hprev : (node'.peers id).nextIndex - 1 ≤ node'.log.entries.length := by omega
    apply Wp.get_bind
    apply Wp.when
    · intro _
      have hsend : ∀ batch, batch <+: node'.log.entries.drop ((node'.peers id).nextIndex - 1) →
          (raftLogic me start).Wp
            (do Program.emit (.sent ⟨me, id, node'.incarnation, .appendEntriesRequest
                  (node'.appendEntriesRequest me ((node'.peers id).nextIndex - 1)
                    (lastTerm term
                      (node'.log.entries.take ((node'.peers id).nextIndex - 1))) batch)⟩)
                setPeer id { node'.peers id with switch := false } :
              Handler size Payload Handle Unit)
            (fun _ => Calling me start node) node' es' a' := by
        intro batch hbat
        refine hcall.send ⟨hne.symm, rfl, hl.elected, _, hl.batch hrel hcall.volatile hprev hbat⟩
          (hmay _ ⟨rfl, hcall.incarnation_eq, ?_⟩) rfl rfl rfl
        intro term hterm
        cases hterm
        exact ⟨congrArg currentTerm hcall.log_eq, hrole⟩
      apply Wp.get_bind
      apply Wp.bind
      apply wp_termOfLogEntryAt hrel hprev
      apply Wp.bind
      apply Wp.ite
      · intro _
        apply Wp.pure
        exact hsend [] nil_prefix
      · intro _
        apply Wp.require
        · intro hnone
          exact absurd hnone (hrel.whole.getEntries_ne_none hnext)
        · intro batch hbat
          exact hsend batch (hrel.whole.getEntries_inv hbat).2
    · exact fun _ => hcall
  · exact fun _ => hst

/-! ## Client requests -/

variable {lastLogIndex : Nat} {request : AppendEntriesRequest size Payload}
  {entries : List (LogEntry Payload)} {a' : Ghost size Payload} {source : Fin size}
  {before full : List (LogEntry Payload)}

theorem term_of_mem_acceptable {currentTerm : Nat} {requests : List (ClientRequest Payload Handle)}
    {request : ClientRequest Payload Handle}
    (h : request ∈ acceptable currentTerm lastLogIndex requests) :
    request.entry.term = currentTerm := by
  induction requests generalizing lastLogIndex with
  | nil => cases h
  | cons r requests ih =>
    unfold acceptable at h
    split at h
    · rename_i hc
      rcases mem_cons.mp h with rfl | hm
      · exact hc.1
      · exact ih hm
    · exact ih h

theorem acceptable_sublist (currentTerm lastLogIndex : Nat)
    (requests : List (ClientRequest Payload Handle)) :
    (acceptable currentTerm lastLogIndex requests).Sublist requests := by
  induction requests generalizing lastLogIndex with
  | nil => exact List.Sublist.slnil
  | cons r requests ih =>
    unfold acceptable
    split
    · exact (ih _).cons_cons r
    · exact (ih _).cons r

theorem numbered_acceptable (currentTerm : Nat) (requests : List (ClientRequest Payload Handle))
    (h : IsNumbered entries) :
    IsNumbered (entries ++
      (acceptable currentTerm entries.length requests).map ClientRequest.entry) := by
  induction requests generalizing entries with
  | nil => simpa [acceptable] using h
  | cons r requests ih =>
    unfold acceptable
    split
    · rename_i hc
      have hn := ih (h.concat hc.2)
      simpa using hn
    · exact ih h

theorem VolatileRel.withEntries (hv : VolatileRel me node a) (hr : node.role = .Leader)
    (h : Leads me a (node.withEntries entries).log a') :
    VolatileRel me (node.withEntries entries) a' := by
  have hl := hv.leader hr
  have hlen : node.log.entries.length ≤ (node.withEntries entries).log.entries.length := by
    simp [Node.withEntries]
  refine ⟨hv.commit_le.trans hlen, ?_, ?_, ?_, ?_⟩
  · refine (hv.committed.mono h.grows le_rfl).of_isPrefix ?_
    show (node.log.entries ++ entries).take node.commitIndex <+: _
    rw [take_append_of_le_length hv.commit_le]
  · intro id hid
    rcases hv.leaderId id hid with ⟨base, hel⟩
    exact ⟨base, h.grows.elected _ _ hel⟩
  · intro hc
    cases hr.symm.trans hc
  · intro _
    refine ⟨h.elected, h.leaderLog, ?_, hl.next_pos, ?_⟩
    · exact fun id hne => (hl.match_le id hne).trans (h.grows.acked _ _).length_le
    · exact fun id hne => (hl.next_le id hne).trans (Nat.add_le_add_right hlen 1)

theorem wp_handleClientRequests (requests : List (ClientRequest Payload Handle))
    (hv : VolatileRel me node a) (h : Working me start node.log es a)
    (hsup : ∀ base own, ∀ request ∈ requests,
      request.entry.index = (base ++ own).length + 1 → start.supply base own request.entry) :
    (raftLogic me start).Wp (handleClientRequests requests)
      (fun _ => Handled me start node es a) node es a := by
  apply Wp.get_bind
  apply Wp.ite
  · intro hrole
    have hl := hv.leader hrole
    rcases hl.elected with ⟨base, hel⟩
    rcases h.inv.leader_base _ _ _ hel with ⟨own, hown⟩
    rw [hl.log] at hown
    have hnum := numbered_acceptable node.log.currentTerm requests h.rel.whole.numbered
    rw [← h.rel.whole.lastLogIndex_eq] at hnum
    apply Wp.bind
    apply Wp.modify
    apply Wp.bind
    apply Wp.mono
    · apply wp_appendAll_leader
      · exact hnum
      · intro e he
        rcases mem_map.mp he with ⟨request, hmem, rfl⟩
        exact term_of_mem_acceptable hmem
      · exact h
      · exact hel
      · exact hl.log
      · exact hown.symm
      · intro p e hp
        rcases mem_map.mp (hp.subset (by simp : e ∈ p ++ [e])) with ⟨request, hmem, rfl⟩
        refine hsup _ _ request ((acceptable_sublist _ _ requests).subset hmem) ?_
        have hpre : node.log.entries ++ p ++ [request.entry] <+: _ :=
          (append_assoc _ _ _).symm ▸ (prefix_append_right_inj node.log.entries).mpr hp
        rw [← append_assoc, hown]
        exact (hnum.of_isPrefix hpre) (node.log.entries ++ p).length request.entry (by simp)
    · intro ok node' es' a' hpost
      rcases hpost with ⟨_, rfl, hw, hlead⟩
      apply Wp.pure
      have hv' : VolatileRel me
          { node with
            pendingClientRequests := node.pendingClientRequests ++
              (acceptable node.log.currentTerm node.log.lastLogIndex requests).map
                fun request => (request.entry.index, request.handle) } a :=
        ⟨hv.commit_le, hv.committed, hv.leaderId, (fun hc => nomatch hrole.symm.trans hc),
          fun _ => { hl with }⟩
      exact ⟨hw, hv'.withEntries hrole hlead, .of_role rfl rfl rfl le_rfl rfl, hlead.grows⟩
  · intro _
    apply wp_replyAll h
    intro es' hw
    exact ⟨hw, hv, Kept.refl node, Grows.refl a⟩

include h hv in
theorem wp_receiveClientRequests
    (hsup : ∀ base own, ∀ requests ∈ node.clientRequestsQueue, ∀ request ∈ requests,
      request.entry.index = (base ++ own).length + 1 → start.supply base own request.entry) :
    (raftLogic me start).Wp receiveClientRequests
      (fun _ => Handled me start node es a) node es a := by
  apply Wp.get_bind
  rcases hque : node.clientRequestsQueue with _ | ⟨requests, queue⟩
  · apply Wp.pure
    exact refl h hv
  · apply Wp.bind
    apply Wp.modify
    have hfst := fun base own => hsup base own requests (by simp [hque])
    apply Wp.mono (wp_handleClientRequests requests (hv.setQueue queue) h hfst)
    intro _ node' es' a' hh
    refine ⟨hh.working, hh.volatile, { hh.kept with queue := ?_ }, hh.grows⟩
    intro later hlate
    rw [hque]
    exact mem_cons_of_mem _ (hh.kept.queue later hlate)

include h hv in
theorem wp_callFailed (id : Fin size) (isAppendEntries : Bool) :
    (raftLogic me start).Wp (callFailed id isAppendEntries)
      (fun _ => Handled me start node es a) node es a := by
  apply Wp.bind
  apply (wp_switchOn h hv).mono
  intro _ node' es' a' hp
  rcases hp with ⟨_, _, _, hh⟩
  apply Wp.get_bind
  apply Wp.when
  · intro _
    apply Wp.modify
    exact hh.trans ⟨hh.working, hh.volatile.touchPeer rfl rfl rfl, .of_role rfl rfl rfl le_rfl rfl,
      Grows.refl _⟩
  · exact fun _ => hh

/-! ## Answers to batches -/

variable {peer : Peer} {response : AppendEntriesResponse size} {index : Nat} {e : LogEntry Payload}
  {log : Log size Payload}

theorem one_le_lowerNextIndex (config : Config Payload)
    (hg : peer.matchIndex + 1 < peer.nextIndex) : 1 ≤ lowerNextIndex config peer lastLogIndex := by
  unfold lowerNextIndex
  split
  · omega
  · have := Nat.min_le_left ((peer.nextIndex - peer.matchIndex) / 2) config.maxDecrStep
    omega

theorem lowerNextIndex_le (config : Config Payload) :
    lowerNextIndex config peer lastLogIndex ≤ peer.nextIndex := by
  unfold lowerNextIndex
  split
  · omega
  · omega

include h hv in
theorem wp_handleAppendEntriesResponse (config : Config Payload)
    (hbody : BodyRel source me a (.appendEntriesResponse response))
    (hlead : node.log.currentTerm = response.savedTerm → node.role = .Leader) :
    (raftLogic me start).Wp (handleAppendEntriesResponse config response)
      (fun _ => Handled me start node es a) node es a := by
  rcases hbody with ⟨hid, _, hmat⟩
  apply Wp.get_bind
  apply Wp.when
  · intro hterm
    have hl := hv.leader (hlead hterm)
    apply Wp.bind
    apply Wp.assert (fun hn => absurd (hlead hterm) hn)
    intro hrole
    have hset : ∀ peer : Peer, peer.haveVote = (node.peers response.id).haveVote →
        1 ≤ peer.nextIndex → (response.id ≠ me →
          peer.matchIndex ≤ (a.acked node.log.currentTerm response.id).length ∧
          peer.nextIndex ≤ node.log.entries.length + 1) →
        (raftLogic me start).Wp (setPeer response.id peer)
          (fun _ => Handled me start node es a) node es a := by
      intro peer _ hpos hle
      apply Wp.modify
      refine ⟨h, hv.setPeer ?_ (fun _ => ⟨hpos, hle⟩), .of_role rfl rfl rfl le_rfl rfl,
        Grows.refl a⟩
      exact fun hc => nomatch hrole.symm.trans hc
    apply Wp.ite
    · intro hlt
      apply (wp_stepDown h hv hlt.le (fun heq => absurd heq (Nat.ne_of_lt hlt))).mono
      exact fun _ _ _ _ hpost => hpost.1
    · intro _
      apply Wp.when
      · intro _
        apply Wp.ite
        · intro hsuc
          -- the follower's own count is right whatever the leader remembers
          have hack := hmat hsuc
          rw [← hterm, ← hid] at hack
          have hlen := (h.inv.acked_leader node.log.currentTerm response.id).length_le
          rw [hl.log] at hlen
          apply Wp.bind
          apply Wp.assert (fun _ => Or.inl rfl)
          intro _
          exact hset _ rfl (Nat.le_add_left 1 _)
            (fun _ => ⟨hack, Nat.succ_le_succ (hack.trans hlen)⟩)
        · intro _
          apply Wp.bind
          apply Wp.assert (fun _ => Or.inr (Or.inl rfl))
          intro _
          apply Wp.bind
          apply Wp.assert (fun _ => Or.inr (Or.inr rfl))
          intro hgap
          exact hset _ rfl (one_le_lowerNextIndex config hgap) (fun hne =>
            ⟨hl.match_le _ hne, (lowerNextIndex_le config).trans (hl.next_le _ hne)⟩)
      · exact fun _ => refl h hv
  · exact fun _ => refl h hv

/-! ## Committing -/

section Majority

open Handler

variable {indices : List Nat} (hpos : 0 < indices.length)
include hpos

theorem middle_eq : ∃ h : indices.length / 2 < (indices.insertionSort (· ≥ ·)).length,
    middle indices = (indices.insertionSort (· ≥ ·))[indices.length / 2] := by
  have hlt : indices.length / 2 < (indices.insertionSort (· ≥ ·)).length := by
    rw [length_insertionSort]
    omega
  refine ⟨hlt, ?_⟩
  unfold middle
  rw [getD_eq_getElem?_getD, getElem?_eq_getElem hlt]
  rfl

theorem middle_mem : middle indices ∈ indices := by
  rcases middle_eq hpos with ⟨hlt, heq⟩
  rw [heq]
  exact (mem_insertionSort _).mp (getElem_mem hlt)

theorem half_lt_countP_middle :
    indices.length / 2 + 1 ≤ indices.countP fun x => decide (middle indices ≤ x) := by
  rcases middle_eq hpos with ⟨hlt, heq⟩
  have hs := pairwise_insertionSort (· ≥ ·) indices
  rw [← (perm_insertionSort (· ≥ ·) indices).countP_eq]
  -- everything up to the middle of the sorted list counts
  have ha : ∀ x ∈ (indices.insertionSort (· ≥ ·)).take (indices.length / 2 + 1),
      decide (middle indices ≤ x) = true := by
    intro x hx
    rcases mem_take_iff_getElem.mp hx with ⟨i, hi, rfl⟩
    have hi' : i ≤ indices.length / 2 := by omega
    rw [decide_eq_true_eq, heq]
    rcases Nat.eq_or_lt_of_le hi' with rfl | hlt'
    · exact le_rfl
    · exact pairwise_iff_getElem.mp hs i (indices.length / 2) (by omega) hlt hlt'
  have hc := countP_eq_length.mpr ha
  rw [length_take, Nat.min_eq_left hlt] at hc
  exact hc.ge.trans (take_sublist _ _).countP_le

theorem countP_le_half_of_middle_lt {v : Nat} (hlt : middle indices < v) :
    indices.countP (fun x => decide (v ≤ x)) ≤ indices.length / 2 := by
  rcases middle_eq hpos with ⟨hm, heq⟩
  have hs := pairwise_insertionSort (· ≥ ·) indices
  rw [← (perm_insertionSort (· ≥ ·) indices).countP_eq,
    ← take_append_drop (indices.length / 2) (indices.insertionSort (· ≥ ·)), countP_append]
  -- nothing from the middle of the sorted list on counts
  have hn : ((indices.insertionSort (· ≥ ·)).drop (indices.length / 2)).countP
      (fun x => decide (v ≤ x)) = 0 := by
    rw [countP_eq_zero]
    intro x hx
    rcases mem_drop_iff_getElem.mp hx with ⟨i, hi, rfl⟩
    have hle : (indices.insertionSort (· ≥ ·))[indices.length / 2 + i] ≤ middle indices := by
      rw [heq]
      rcases Nat.eq_zero_or_pos i with rfl | hi'
      · exact le_rfl
      · exact pairwise_iff_getElem.mp hs (indices.length / 2) (indices.length / 2 + i)
          hm (by omega) (by omega)
    simp only [decide_eq_true_eq]
    omega
  have ht := countP_le_length (p := fun x => decide (v ≤ x))
    (l := (indices.insertionSort (· ≥ ·)).take (indices.length / 2))
  have hl := length_take_le (indices.length / 2) (indices.insertionSort (· ≥ ·))
  omega

theorem isGreatest_middle :
    IsGreatest {v | getMajorityNumber indices.length ≤ indices.countP fun x => decide (v ≤ x)}
      (middle indices) := by
  constructor
  · exact half_lt_countP_middle hpos
  · intro v hv
    by_contra hlt
    have hle := countP_le_half_of_middle_lt hpos (Nat.lt_of_not_le hlt)
    have hm : indices.length / 2 + 1 ≤ indices.countP fun x => decide (v ≤ x) := hv
    omega

end Majority

/-- The nodes known to hold the majority index, the leader among them. -/
theorem exists_majority_of_majorityIndex (hle : majorityIndex me node ≤ node.log.lastLogIndex) :
    ∃ voters : Finset (Fin size), IsMajority voters ∧ ∀ id ∈ voters, id = me ∨
      (id ≠ me ∧ majorityIndex me node ≤ (node.peers id).matchIndex) := by
  rcases exists_finset_others me
    (fun id => decide (majorityIndex me node ≤ (node.peers id).matchIndex)) with
    ⟨voters, hcard, hm⟩
  refine ⟨voters, ?_, fun id hid => by simpa using hm id hid⟩
  have hc : (node.log.lastLogIndex ::
        (others me).map fun id => (node.peers id).matchIndex).length / 2 + 1 ≤
      (node.log.lastLogIndex :: (others me).map fun id => (node.peers id).matchIndex).countP
        fun x => decide (majorityIndex me node ≤ x) :=
    half_lt_countP_middle (Nat.succ_pos _)
  rw [countP_cons_of_pos (by simpa using hle), countP_map, length_cons,
    length_map, length_others] at hc
  have hcomp : (others me).countP ((fun x => decide (majorityIndex me node ≤ x)) ∘
      fun id => (node.peers id).matchIndex) = (others me).countP
      fun id => decide (majorityIndex me node ≤ (node.peers id).matchIndex) := rfl
  unfold IsMajority getMajorityNumber
  omega

/-- What a leader may commit: a prefix that ends in its own term and that a majority holds. -/
theorem LeaderRel.committed (hl : LeaderRel me node a) (hrel : LogRel me node.log a)
    (hinv : GhostInv a) (hpos : 0 < index) (hle : index ≤ node.log.entries.length)
    (hterm : lastTerm term (node.log.entries.take index) = node.log.currentTerm)
    {voters : Finset (Fin size)} (hvot : IsMajority voters)
    (hmat : ∀ id ∈ voters, id = me ∨ (id ≠ me ∧ index ≤ (node.peers id).matchIndex)) :
    ∃ a', Moves me start.supply a a' ∧ LogRel me node.log a' ∧ SameFor me a a' ∧
      IsCommitted a' node.log.currentTerm (node.log.entries.take index) := by
  have hlog : node.log.entries <+: a.log me := by rw [hrel.entries]
  have hlead : node.log.entries <+: a.leaderLog (a.term me) := by rw [hrel.term, hl.log]
  have hack : a.acked (a.term me) me <+: node.log.entries := by
    rw [← hl.log, ← hrel.term]
    exact hinv.acked_leader _ me
  have hstep : Step term IsMajority start.supply me a (a.ack me node.log.entries) :=
    .ack hlog hlead hack
  have hgrow := Step.grows hinv hstep
  refine ⟨_, .one hstep, { hrel with },
    ⟨hgrow, fun _ _ hel => hel, fun _ _ _ => rfl⟩, ?_⟩
  have hne : node.log.entries.take index ≠ [] := by
    intro hnil
    have hlen := congrArg List.length hnil
    rw [length_take, length_nil] at hlen
    omega
  rcases eq_nil_or_concat' (node.log.entries.take index) with hnil | ⟨q, e, hqe⟩
  · exact absurd hnil hne
  have hlast : e.term = node.log.currentTerm := by
    rw [hqe, lastTerm_concat] at hterm
    exact hterm
  refine .inr ⟨node.log.currentTerm, _, le_rfl, ⟨voters, hvot, ?_⟩, prefix_refl _⟩
  intro id hid
  refine ⟨?_, q, e, hqe, hlast⟩
  rcases hmat id hid with rfl | ⟨hne', hm⟩
  · have hself := a.ack_acked id node.log.entries
    rw [hrel.term] at hself
    rw [hself]
    exact take_prefix _ _
  · refine List.IsPrefix.trans ?_ (hgrow.acked node.log.currentTerm id)
    have hpre := hinv.acked_leader node.log.currentTerm id
    rw [hl.log] at hpre
    refine prefix_of_prefix_length_le (List.take_prefix _ _) hpre ?_
    rw [length_take]
    exact (Nat.min_le_left _ _).trans (hm.trans (hl.match_le id hne'))

include h hv in
theorem wp_advanceCommitIndex :
    (raftLogic me start).Wp (advanceCommitIndex me)
      (fun _ => Handled me start node es a) node es a := by
  apply Wp.get_bind
  apply Wp.when
  · intro hcond
    have hl := hv.leader hcond.1
    have hlast := h.rel.whole.lastLogIndex_eq
    have hle : majorityIndex me node ≤ node.log.lastLogIndex := by
      have hmem : majorityIndex me node ∈ node.log.lastLogIndex ::
          (others me).map fun id => (node.peers id).matchIndex :=
        middle_mem (Nat.succ_pos _)
      rcases mem_cons.mp hmem with heq | hmem
      · exact heq.le
      · rcases mem_map.mp hmem with ⟨id, hid, heq⟩
        have hlen := (h.inv.acked_leader node.log.currentTerm id).length_le
        have hmat := hl.match_le id (mem_others.mp hid)
        rw [hl.log] at hlen
        omega
    rcases exists_majority_of_majorityIndex hle with ⟨voters, hvot, hmat⟩
    rw [hlast] at hle
    apply Wp.bind
    apply wp_termOfLogEntryAt h.rel hle
    apply Wp.when
    · intro hterm
      rcases hl.committed h.rel h.inv (by omega) hle hterm hvot hmat with
        ⟨a', hmov, hrel, hsame, hcomm⟩
      have hv' := hv.mono hsame
      apply Wp.bind
      apply Wp.modify
      apply Wp.bind
      apply Wp.assert (fun hn => absurd (hle.trans hlast.ge) hn)
      intro _
      apply Wp.bind
      apply Wp.ghost a' hmov
      apply wp_replyAll (h.moves hmov hrel)
      intro es' hw
      apply Wp.modify
      have hl' := hv'.leader hcond.1
      refine ⟨hw, ⟨hle, hcomm, hv'.leaderId, ?_, ?_⟩, .of_role rfl rfl rfl hcond.2.le rfl,
        hsame.grows⟩
      · exact fun hc => nomatch hcond.1.symm.trans hc
      · exact fun _ => { hl' with }
    · exact fun _ => refl h hv
  · exact fun _ => refl h hv

/-! ## Merging a batch -/

theorem IsNumbered.index_of_append {todo : List (LogEntry Payload)}
    (h : IsNumbered (before ++ e :: todo)) : e.index = before.length + 1 :=
  h before.length e (by simp)

theorem wp_mergeEntries_past {post : List (LogEntry Payload) → Node size Payload Handle →
      List (Effect size Payload Handle) → Ghost size Payload → Prop}
    (todo : List (LogEntry Payload)) (before : List (LogEntry Payload))
    (hlen : before.length = index) (hrel : LogRel me node.log a)
    (hnum : IsNumbered (before ++ todo)) (hpast : node.log.entries.length ≤ index)
    (hpost : post todo node es a) :
    (raftLogic me start).Wp (mergeEntries index todo) post node es a := by
  induction todo generalizing before index post with
  | nil => exact Wp.pure hpost
  | cons e todo ih =>
    have hidx := IsNumbered.index_of_append hnum
    have hnum' : IsNumbered (before ++ [e] ++ todo) := by simpa using hnum
    have hlast := hrel.whole.lastLogIndex_eq
    have hfst := hrel.whole.firstIndex_eq
    unfold mergeEntries
    apply Wp.bind
    apply Wp.assert (fun hn => absurd (by omega) hn)
    intro _
    apply Wp.get_bind
    apply Wp.ite
    · intro hlt
      omega
    · intro _
      apply Wp.ite
      · intro hle
        omega
      · intro _
        apply Wp.bind
        apply ih (before ++ [e]) (by simpa using hlen) hnum' (by omega)
        exact Wp.pure hpost

theorem LogRel.setLog (h : LogRel me log a) (hn : IsNumbered entries) :
    LogRel me { log with entries := entries } (a.setLog me entries) :=
  { h with whole := ⟨h.whole.firstIndex_eq, hn⟩, entries := Function.update_self .. }

/-- The batch is in the log, up to the entries that are left to write. -/
structure Merged (node : Node size Payload Handle) (full rest : List (LogEntry Payload))
    (node' : Node size Payload Handle) : Prop where
  term : node'.log.currentTerm = node.log.currentTerm
  role : node'.role = node.role
  batch : (rest = [] ∧ full <+: node'.log.entries) ∨ node'.log.entries ++ rest = full

/-- The conflict: the leader has another entry behind `before`, and none of this is committed. -/
theorem LogRel.conflict (supply : Supply Payload) (hinv : GhostInv a) (hrel : LogRel me node.log a)
    (hv : VolatileRel me node a) {x : LogEntry Payload} (hx : before ++ [x] <+: node.log.entries)
    (he : before ++ [e] <+: a.leaderLog node.log.currentTerm) (hterm : e.term ≠ x.term) :
    node.commitIndex ≤ before.length ∧
      Step LogEntry.term IsMajority supply me a (a.setLog me before) := by
  constructor
  · by_contra hlt
    have hcomm : before ++ [x] <+: node.log.entries.take node.commitIndex := by
      refine prefix_of_prefix_length_le hx (List.take_prefix _ _) ?_
      have := hv.commit_le
      simp
      omega
    have hel : a.elected node.log.currentTerm ≠ none := by
      intro hnone
      rw [hinv.leader_none _ hnone] at he
      simp at he
    have hx' := hcomm.trans
      (hinv.committed_prefix_leaderLog majorities_meet hv.committed le_rfl hel)
    have heq := (prefix_of_prefix_length_le hx' he (by simp)).eq_of_length (by simp)
    rw [append_cancel_left_eq, singleton_inj] at heq
    exact hterm (by rw [heq])
  · refine Step.truncate ?_ ?_ (Ne.symm hterm)
    · rw [hrel.entries]
      exact hx
    · rw [hrel.term]
      exact he

theorem VolatileRel.truncated (hv : VolatileRel me node a) (hg : Grows a a')
    (hr : node.role ≠ .Leader ∧ node.role ≠ .Candidate) (hb : before <+: node.log.entries)
    (hcom : node.commitIndex ≤ before.length) :
    VolatileRel me { node with log := { node.log with entries := before } } a' where
  commit_le := hcom
  committed := (hv.committed.mono hg le_rfl).of_isPrefix (hb.take _)
  leaderId id hid := by
    rcases hv.leaderId id hid with ⟨base, hel⟩
    exact ⟨base, hg.elected _ _ hel⟩
  candidate hc := absurd hc hr.2
  leader hl := absurd hl hr.1

include h hv in
theorem wp_mergeEntries (todo : List (LogEntry Payload)) (hfull : full = before ++ todo)
    (hnum : IsNumbered full) (hrole : node.role ≠ .Leader ∧ node.role ≠ .Candidate)
    (hlead : full <+: a.leaderLog node.log.currentTerm) (hpre : before <+: node.log.entries) :
    (raftLogic me start).Wp (mergeEntries before.length todo)
      (fun rest node' es' a' => Handled me start node es a node' es' a' ∧
        Merged node full rest node') node es a := by
  induction todo generalizing before with
  | nil =>
    rw [append_nil] at hfull
    exact Wp.pure ⟨refl h hv, rfl, rfl, .inl ⟨rfl, hfull ▸ hpre⟩⟩
  | cons e todo ih =>
    have hidx := IsNumbered.index_of_append (hfull ▸ hnum)
    have hasc : before ++ [e] ++ todo = before ++ e :: todo := by simp
    have hlen : (before ++ [e]).length = before.length + 1 := by simp
    have hlast := h.rel.whole.lastLogIndex_eq
    have hfst := h.rel.whole.firstIndex_eq
    have he : before ++ [e] <+: a.leaderLog node.log.currentTerm :=
      List.IsPrefix.trans ⟨todo, by rw [hasc, hfull]⟩ hlead
    have hnum' : IsNumbered (before ++ [e] ++ todo) := by rwa [hasc, ← hfull]
    unfold mergeEntries
    apply Wp.bind
    apply Wp.assert (absurd hidx)
    intro _
    apply Wp.get_bind
    apply Wp.ite
    · intro hlt
      omega
    · intro _
      apply Wp.ite
      · intro hle
        have hlt : before.length < node.log.entries.length := by omega
        rcases exists_concat_isPrefix_of_length_lt hpre hlt with ⟨x, hx⟩
        have htake : node.log.entries.take e.index = before ++ [x] := by
          rw [hidx, ← show (before ++ [x]).length = before.length + 1 by simp]
          exact (prefix_iff_eq_take.mp hx).symm
        apply Wp.bind
        apply wp_termOfLogEntryAt h.rel (by omega)
        rw [htake, lastTerm_concat]
        apply Wp.ite
        · intro hterm
          -- the same term at the same place: the entry is already here
          have hlog : Matches LogEntry.term a node.log.entries := by
            rw [← h.rel.entries]
            exact h.inv.log_matches me
          have heq := Matches.eq_of_term_eq (h.inv.leader_matches _) hlog he hx hterm rfl
          have hrest := ih (hfull.trans hasc.symm) (heq ▸ hx)
          rwa [hlen] at hrest
        · intro hterm
          have hconf := h.rel.conflict start.supply h.inv hv hx he hterm
          have htrun : node.log.truncateSuffix (e.index - 1) =
              { node.log with entries := before } := by
            rw [hidx, Nat.add_sub_cancel, h.rel.whole.truncateSuffix_eq hlt,
              (prefix_iff_eq_take.mp hpre).symm]
          apply Wp.bind
          apply Wp.assert (fun hn => absurd (by omega) hn)
          intro _
          apply Wp.bind
          apply Wp.get_bind
          rw [htrun]
          apply wp_writeLog h _ (.one hconf.2)
            (h.rel.setLog (h.rel.whole.numbered.of_isPrefix hpre))
          intro es' hw
          apply Wp.bind
          apply wp_mergeEntries_past todo (before ++ [e]) hlen ?_ hnum' (Nat.le_succ _)
          · apply Wp.pure
            have hgrow := Step.grows h.inv hconf.2
            refine ⟨⟨hw, hv.truncated hgrow hrole hpre hconf.1, ?_, hgrow⟩,
              rfl, rfl, .inr hfull.symm⟩
            exact .of_role rfl rfl rfl le_rfl rfl
          · exact hw.rel
      · intro hgt
        have heq : node.log.entries = before := by
          refine (hpre.eq_of_length_le ?_).symm
          omega
        apply Wp.bind
        apply wp_mergeEntries_past todo (before ++ [e]) hlen h.rel hnum' (by rw [heq]; omega)
        apply Wp.pure
        refine ⟨refl h hv, rfl, rfl, .inr ?_⟩
        rw [heq, hfull]

/-! ## Following a leader -/

/-- A log that has the term the leader has at the same place has all that is before it. -/
theorem BatchRel.before_isPrefix (hb : BatchRel request before a) (hi : GhostInv a)
    (hr : LogRel me node.log a) (hle : request.prevLogIndex ≤ node.log.entries.length)
    (hterm : lastTerm LogEntry.term (node.log.entries.take request.prevLogIndex) =
      request.prevLogTerm) : before <+: node.log.entries := by
  have hl : before.length = (node.log.entries.take request.prevLogIndex).length := by
    rw [hb.length, length_take_of_le hle]
  rcases eq_nil_or_concat' before with rfl | ⟨q, e, rfl⟩
  · exact nil_prefix
  rcases eq_nil_or_concat' (node.log.entries.take request.prevLogIndex) with hn | ⟨q', e', ht⟩
  · rw [hn] at hl
    simp at hl
  have hp : q' ++ [e'] <+: node.log.entries := ht ▸ take_prefix _ _
  have hlead : q ++ [e] <+: a.leaderLog request.term :=
    (prefix_append _ _).trans hb.leader
  have hlog : Matches LogEntry.term a node.log.entries := by
    rw [← hr.entries]
    exact hi.log_matches me
  have heq : e.term = e'.term := by
    rw [← lastTerm_concat LogEntry.term q e, hb.term, ← hterm, ht, lastTerm_concat]
  rw [ht] at hl
  rw [Matches.eq_of_term_eq (hi.leader_matches _) hlog hlead hp heq (by simpa using hl)]
  exact hp

theorem wp_logIsOk {post : Bool → Node size Payload Handle →
      List (Effect size Payload Handle) → Ghost size Payload → Prop} (hinv : GhostInv a)
    (hrel : LogRel me node.log a) (hbat : BatchRel request before a)
    (hpost : ∀ ok, (ok = true → before <+: node.log.entries) → post ok node es a) :
    (raftLogic me start).Wp (logIsOk request) post node es a := by
  have hlast := hrel.whole.lastLogIndex_eq
  apply Wp.get_bind
  apply Wp.ite
  · intro hlt
    apply Wp.pure
    apply hpost
    intro _
    rw [hrel.whole.firstIndex_eq] at hlt
    have hnil : before = [] := eq_nil_of_length_eq_zero (by rw [hbat.length]; omega)
    rw [hnil]
    exact nil_prefix
  · intro _
    apply Wp.ite
    · intro _
      apply Wp.pure
      exact hpost false (fun hfls => nomatch hfls)
    · intro hnlt
      have hle : request.prevLogIndex ≤ node.log.entries.length := by omega
      apply Wp.bind
      apply wp_termOfLogEntryAt hrel hle
      apply Wp.pure
      apply hpost
      intro hterm
      exact hbat.before_isPrefix hinv hrel hle (beq_iff_eq.mp hterm)

theorem VolatileRel.extended {rest : List (LogEntry Payload)} (hv : VolatileRel me node a)
    (hg : Grows a a') (hr : node.role ≠ .Leader ∧ node.role ≠ .Candidate) :
    VolatileRel me (node.withEntries rest) a' where
  commit_le := by
    have := hv.commit_le
    simp [Node.withEntries]
    omega
  committed := by
    refine (hv.committed.mono hg le_rfl).of_isPrefix ?_
    show (node.log.entries ++ rest).take node.commitIndex <+: _
    rw [take_append_of_le_length hv.commit_le]
  leaderId id hid := by
    rcases hv.leaderId id hid with ⟨base, hel⟩
    exact ⟨base, hg.elected _ _ hel⟩
  candidate hc := absurd hc hr.2
  leader hl := absurd hl hr.1

include h hv in
theorem wp_appendAll_follower (rest : List (LogEntry Payload))
    (hrole : node.role ≠ .Leader ∧ node.role ≠ .Candidate)
    (hnum : IsNumbered full) (hleader : full <+: a.leaderLog node.log.currentTerm)
    (hrest : (rest = [] ∧ full <+: node.log.entries) ∨ node.log.entries ++ rest = full) :
    (raftLogic me start).Wp (appendAll rest)
      (fun ok node' es' a' => ok = true ∧ Handled me start node es a node' es' a' ∧
        node'.log.currentTerm = node.log.currentTerm ∧ node'.role = node.role ∧
        full <+: node'.log.entries) node es a := by
  have hnum' : IsNumbered (node.log.entries ++ rest) := by
    rcases hrest with ⟨rfl, _⟩ | heq
    · simpa using h.rel.whole.numbered
    · rwa [heq]
  refine (wp_appendAll (P := fun log a' => Grows a a' ∧
    log.currentTerm = node.log.currentTerm) rest hnum' h ⟨Grows.refl a, rfl⟩ ?_).mono ?_
  · intro log b e he hinv hrel hP hpre
    have hfull : node.log.entries ++ rest = full := by
      rcases hrest with ⟨rfl, _⟩ | heq
      · cases he
      · exact heq
    have hlog : b.log me <+: log.entries ++ [e] := by
      rw [hrel.entries]
      exact prefix_append _ _
    have hlead : log.entries ++ [e] <+: b.leaderLog (b.term me) := by
      rw [hrel.term, hP.2]
      exact (hfull ▸ hpre).trans (hleader.trans (hP.1.leaderLog _))
    have hstep : Step term IsMajority start.supply me b
      (b.setLog me (log.entries ++ [e])) :=
      .extend hlog hlead
    exact ⟨_, .one hstep, hrel.setLog (hnum'.of_isPrefix hpre),
      hP.1.trans (Step.grows hinv hstep), hP.2⟩
  · intro ok node' es' a' hpost
    rcases hpost with ⟨hok, rfl, hw, hP⟩
    refine ⟨hok, ⟨hw, hv.extended hP.1 hrole, .of_role rfl rfl rfl le_rfl rfl, hP.1⟩, rfl, rfl, ?_⟩
    rcases hrest with ⟨rfl, hpre⟩ | heq
    · exact hpre.trans (prefix_append _ _)
    · show full <+: node.log.entries ++ rest
      rw [heq]

include h hv in
theorem wp_followCommitIndex {commitIndex : Nat} (hr : node.role ≠ .Leader ∧ node.role ≠ .Candidate)
    (hf : full <+: node.log.entries) (hle : commitIndex ≤ full.length)
    (hcomm : IsCommitted a node.log.currentTerm (full.take commitIndex)) :
    (raftLogic me start).Wp (followCommitIndex commitIndex)
      (fun _ node' es' a' => Handled me start node es a node' es' a' ∧ a' = a) node es a := by
  have hle' : commitIndex ≤ node.log.entries.length := hle.trans hf.length_le
  apply Wp.get_bind
  apply Wp.when
  · intro hlt
    apply Wp.bind
    apply Wp.modify
    apply Wp.assert (fun hn => absurd (hle'.trans h.rel.whole.lastLogIndex_eq.ge) hn)
    intro _
    have ht : node.log.entries.take commitIndex <+: full.take commitIndex := by
      rcases hf with ⟨rest, heq⟩
      rw [← heq, take_append_of_le_length hle]
    exact ⟨⟨h, ⟨hle', hcomm.of_isPrefix ht, hv.leaderId, fun hc => absurd hc hr.2,
      fun hl => absurd hl hr.1⟩, .of_role rfl rfl rfl hlt.le rfl, Grows.refl a⟩, rfl⟩
  · exact fun _ => ⟨refl h hv, rfl⟩

theorem LogRel.exists_ack (hi : GhostInv a) (hr : LogRel me log a) (hlog : full <+: log.entries)
    (hl : full <+: a.leaderLog log.currentTerm) :
    ∃ a', Moves me start.supply a a' ∧ LogRel me log a' ∧ SameFor me a a' ∧
      full.length ≤ (a'.acked log.currentTerm me).length := by
  by_cases hlen : full.length ≤ (a.acked log.currentTerm me).length
  · exact ⟨a, Moves.refl me a, hr, ⟨Grows.refl a, fun _ _ hel => hel, fun _ _ _ => rfl⟩, hlen⟩
  · have hlog' : full <+: a.log me := by rwa [hr.entries]
    have hl' : full <+: a.leaderLog (a.term me) := by rwa [hr.term]
    have ha : a.acked (a.term me) me <+: full := by
      rw [hr.term]
      exact prefix_of_prefix_length_le (hi.acked_leader _ me) hl (by omega)
    have hs : Step LogEntry.term IsMajority start.supply me a (a.ack me full) :=
      .ack hlog' hl' ha
    refine ⟨_, .one hs, { hr with },
      ⟨Step.grows hi hs, fun _ _ hel => hel, fun _ _ _ => rfl⟩, ?_⟩
    have hself := a.ack_acked me full
    rw [hr.term] at hself
    rw [hself]

section

include h hv

theorem wp_updateLeaderId {base : List (LogEntry Payload)}
    (hr : node.role ≠ .Leader ∧ node.role ≠ .Candidate)
    (hel : a.elected node.log.currentTerm = some (source, base)) :
    (raftLogic me start).Wp (updateLeaderId source)
      (fun _ node' es' a' => Handled me start node es a node' es' a' ∧ node'.log = node.log ∧
        node'.role = node.role ∧ es' = es ∧ a' = a) node es a := by
  apply Wp.get_bind
  rcases hid : node.leaderId with _ | known
  · apply Wp.modify
    refine ⟨⟨h, ⟨hv.commit_le, hv.committed, ?_, fun hc => absurd hc hr.2,
      fun hl => absurd hl hr.1⟩, .of_role rfl rfl rfl le_rfl rfl, Grows.refl a⟩,
      rfl, rfl, rfl, rfl⟩
    intro id hid'
    cases hid'
    exact ⟨base, hel⟩
  · have heq : known = source := by
      rcases hv.leaderId known hid with ⟨base', hel'⟩
      rw [hel] at hel'
      cases hel'
      rfl
    apply Wp.assert (absurd heq)
    exact fun _ => ⟨refl h hv, rfl, rfl, rfl, rfl⟩

theorem wp_acceptEntries (hrole : node.role ≠ .Leader ∧ node.role ≠ .Candidate)
    (hterm : node.log.currentTerm = request.term)
    (hbody : BodyRel source me a (.appendEntriesRequest request)) (hid : response.id = me)
    (hsav : response.savedTerm = request.term) (hfail : response.success = false) :
    (raftLogic me start).Wp (acceptEntries request response)
      (fun r node' es' a' => Handled me start node es a node' es' a' ∧ r.savedTerm = request.term ∧
        BodyRel me source a' (.appendEntriesResponse r)) node es a := by
  rcases hbody with ⟨hsrc, ⟨base, hel⟩, before, hbat⟩
  apply Wp.bind
  rw [hsrc]
  apply (wp_updateLeaderId h hv hrole (hterm ▸ hel)).mono
  intro _ node₁ es₁ a₁ hpost₁
  rcases hpost₁ with ⟨hh₁, hlog₁, hrol, rfl, rfl⟩
  rw [← hlog₁] at hterm
  rw [← hrol] at hrole
  apply Wp.bind
  apply wp_logIsOk hh₁.working.inv hh₁.working.rel hbat
  intro ok hok
  apply Wp.ite
  · intro htrue
    have hleader : before ++ request.entries <+: a₁.leaderLog node₁.log.currentTerm :=
      hterm ▸ hbat.leader
    apply Wp.bind
    rw [← hbat.length]
    apply (wp_mergeEntries hh₁.working hh₁.volatile request.entries rfl hbat.numbered hrole
      hleader (hok htrue)).mono
    intro rest node₂ es₂ a₂ hpost₂
    rcases hpost₂ with ⟨hh₂, hmer⟩
    have hlead : before ++ request.entries <+: a₂.leaderLog node₂.log.currentTerm := by
      rw [hmer.term]
      exact hleader.trans (hh₂.grows.leaderLog _)
    rw [← hmer.role] at hrole
    apply Wp.bind
    apply (wp_appendAll_follower hh₂.working hh₂.volatile rest hrole hbat.numbered hlead
      hmer.batch).mono
    intro appended node₃ es₃ a₃ hpost₃
    rcases hpost₃ with ⟨happ, hh₃, hter, hrole₃, hfull⟩
    have hleader₃ : before ++ request.entries <+: a₃.leaderLog node₃.log.currentTerm := by
      rw [hter]
      exact hlead.trans (hh₃.grows.leaderLog _)
    rw [← hrole₃] at hrole
    apply Wp.bind
    apply Wp.assert (absurd happ)
    intro _
    apply Wp.get_bind
    -- the log has the whole batch now, so the node may acknowledge it before it answers
    rcases hh₃.working.rel.exists_ack hh₃.working.inv hfull hleader₃ with
      ⟨a₄, hmov, hrel₄, hsame, hack⟩
    have hw₄ := hh₃.working.moves hmov hrel₄
    have hgrow := (hh₂.grows.trans hh₃.grows).trans hsame.grows
    have hcur : node₃.log.currentTerm = request.term := by
      rw [hter, hmer.term, hterm]
    have hbatch₄ := hbat.mono hgrow
    apply Wp.bind
    apply Wp.ghost a₄ hmov
    apply (wp_followCommitIndex hw₄ (hh₃.volatile.mono hsame) hrole hfull hbatch₄.commit_le
      (hcur ▸ hbatch₄.committed)).mono
    intro _ node₄ es₄ a₅ hpost₄
    rcases hpost₄ with ⟨hh₄, rfl⟩
    apply Wp.pure
    have hh := (hh₁.trans hh₂).trans hh₃
    refine ⟨⟨hh₄.working, hh₄.volatile, hh.kept.trans hh₄.kept, hgrow⟩, hsav, hid, ⟨base, ?_⟩, ?_⟩
    · show a₅.elected response.savedTerm = some (source, base)
      rw [hsav]
      exact hgrow.elected _ _ hel
    · intro _
      show before.length + request.entries.length ≤ (a₅.acked response.savedTerm me).length
      rw [hsav, ← hcur]
      simpa using hack
  · intro _
    apply Wp.pure
    refine ⟨hh₁, hsav, hid, ⟨base, by rw [hsav, hel]⟩, ?_⟩
    intro hsuc
    rw [hfail] at hsuc
    cases hsuc

theorem wp_handleAppendEntriesRequest (hne : source ≠ me)
    (hbody : BodyRel source me a (.appendEntriesRequest request)) :
    (raftLogic me start).Wp (handleAppendEntriesRequest me request)
      (fun response node' es' a' => Handled me start node es a node' es' a' ∧
        ∀ r, response = some r → r.savedTerm = request.term ∧
          BodyRel me source a' (.appendEntriesResponse r)) node es a := by
  have hbody' := hbody
  rcases hbody' with ⟨_, ⟨base, hel⟩, _⟩
  apply Wp.get_bind
  apply Wp.ite
  · intro _
    apply Wp.pure
    refine ⟨refl h hv, ?_⟩
    intro r hr
    cases hr
    exact ⟨rfl, rfl, ⟨base, hel⟩, fun hsuc => nomatch hsuc⟩
  · intro hnlt
    apply Wp.ite
    · intro _
      apply Wp.pure
      exact ⟨refl h hv, fun _ hr => nomatch hr⟩
    · intro _
      have hacc : ∀ {node' : Node size Payload Handle} {es' a'},
          Handled me start node es a node' es' a' → node'.log.currentTerm = request.term →
          (node'.role ≠ .Leader ∧ node'.role ≠ .Candidate) →
          (raftLogic me start).Wp
            (do let response ← acceptEntries request
                  ⟨request.term, false, me, request.term, request.prevLogIndex,
                    node.log.lastLogIndex, 0⟩
                pure (some response) : Handler size Payload Handle _)
            (fun response node' es' a' => Handled me start node es a node' es' a' ∧
              ∀ r, response = some r → r.savedTerm = request.term ∧
                BodyRel me source a' (.appendEntriesResponse r)) node' es' a' := by
        intro node' es' a' hh hterm hrole
        have hmsg : BodyRel source me a' (.appendEntriesRequest request) := by
          rcases hbody with ⟨hid, ⟨base', hel'⟩, before, hbat⟩
          exact ⟨hid, ⟨base', hh.grows.elected _ _ hel'⟩, before, hbat.mono hh.grows⟩
        apply Wp.bind
        apply (wp_acceptEntries hh.working hh.volatile hrole hterm hmsg rfl rfl rfl).mono
        intro response node'' es'' a'' hpost
        apply Wp.pure
        refine ⟨hh.trans hpost.1, ?_⟩
        intro r hr
        cases hr
        exact hpost.2
      apply Wp.bind
      apply Wp.when
      · intro hcond
        have hle : node.log.currentTerm ≤ request.term := by omega
        apply (wp_stepDown h hv hle ?_).mono
        · intro _ node' es' a' hpost
          refine hacc hpost.1 hpost.2.2.1 ?_
          rw [hpost.2.1]
          exact ⟨nofun, nofun⟩
        · intro heq
          rcases hcond with hlt | hcand
          · omega
          · exact hcand.2
      · intro hcond
        have hterm : node.log.currentTerm = request.term := by
          by_contra hne'
          exact hcond (.inl (by omega))
        refine hacc (refl h hv) hterm ⟨?_, ?_⟩
        · -- the term has one leader, and it is the sender
          intro hrole
          rcases (hv.leader hrole).elected with ⟨base', hel'⟩
          rw [hterm, hel] at hel'
          cases hel'
          exact hne rfl
        · exact fun hrole => hcond (.inr ⟨hterm.symm, hrole⟩)

end

end MySuperLedger.Raft
