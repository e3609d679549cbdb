import MySuperLedger.Raft.Frame

/-! # What raft never takes back

Whatever a node receives, its term and its commit index only grow, its log keeps
its first index, and the log reaches to the commit index. The checks of the
handlers see to that, so nothing is assumed of the log or of the messages; in
particular the log may have lost its first entries.
-/

namespace MySuperLedger.Raft

open Effects List

variable {size : Nat} {Payload Handle : Type}

/-- The log begins behind index 0 and reaches to the commit index. -/
structure Node.Covered (node : Node size Payload Handle) : Prop where
  pos : 1 ≤ node.log.firstIndex
  le : node.commitIndex ≤ node.log.lastLogIndex

structure Advances (node node' : Node size Payload Handle) : Prop where
  term_le : node.log.currentTerm ≤ node'.log.currentTerm
  commit_le : node.commitIndex ≤ node'.commitIndex
  firstIndex_eq : node'.log.firstIndex = node.log.firstIndex
  covered : node.Covered → node'.Covered
  role : node.role ≠ .Syncer → node'.role ≠ .Syncer

namespace Advances

variable {node node' node'' : Node size Payload Handle}

theorem trans (h : Advances node node') (h' : Advances node' node'') : Advances node node'' where
  term_le := h.term_le.trans h'.term_le
  commit_le := h.commit_le.trans h'.commit_le
  firstIndex_eq := h'.firstIndex_eq.trans h.firstIndex_eq
  covered hc := h'.covered (h.covered hc)
  role hr := h'.role (h.role hr)

theorem of_entries (ht : node.log.currentTerm ≤ node'.log.currentTerm)
    (hc : node'.commitIndex = node.commitIndex) (hf : node'.log.firstIndex = node.log.firstIndex)
    (he : node'.log.entries = node.log.entries)
    (hr : node.role ≠ .Syncer → node'.role ≠ .Syncer) : Advances node node' where
  term_le := ht
  commit_le := hc.ge
  firstIndex_eq := hf
  covered h := by
    refine ⟨hf ▸ h.pos, ?_⟩
    have hle := h.le
    unfold Log.lastLogIndex at hle ⊢
    rw [hc, hf, he]
    exact hle
  role := hr

theorem refl (node : Node size Payload Handle) : Advances node node :=
  of_entries le_rfl rfl rfl rfl id

theorem of_own (h : node'.own = node.own) : Advances node node' := by
  simp only [Node.own, Prod.mk.injEq] at h
  obtain ⟨hl, hr, hc, -⟩ := h
  exact of_entries (by rw [hl]) hc (by rw [hl]) (by rw [hl]) (by rw [hr]; exact id)

theorem appendEntry {entry : LogEntry Payload} {log : Log size Payload}
    (h : node.log.appendEntry entry = some log) : Advances node { node with log := log } := by
  unfold Log.appendEntry at h
  split at h
  · cases h
    refine ⟨le_rfl, le_rfl, rfl, fun hc => ⟨hc.pos, ?_⟩, id⟩
    have hle := hc.le
    unfold Log.lastLogIndex at hle ⊢
    simp only [length_append, length_singleton]
    omega
  · cases h

theorem truncateSuffix {index : Nat} (hf : node.log.firstIndex ≤ index)
    (hcom : node.commitIndex < index) :
    Advances node { node with log := node.log.truncateSuffix (index - 1) } := by
  unfold Log.truncateSuffix
  split
  · exact refl node
  · rename_i hl
    have hk : (if index - 1 < node.log.firstIndex then index - 1 + 1
        else node.log.firstIndex) = node.log.firstIndex := by
      split
      · omega
      · rfl
    refine ⟨le_rfl, le_rfl, hk, fun hc => ⟨hk.symm ▸ hc.pos, ?_⟩, id⟩
    have hp := hc.pos
    unfold Log.lastLogIndex at hl ⊢
    simp only [hk, length_take]
    omega

end Advances

namespace Handler

open Program

instance composes_advances :
    Composes (fun (node : Node size Payload Handle) (_ : List (Effect size Payload Handle))
      (node' : Node size Payload Handle) => Advances node node') where
  refl := Advances.refl
  trans := Advances.trans

abbrev Advancing {α : Type} (m : Handler size Payload Handle α) : Prop :=
  Ensures (fun node _ node' => Advances node node') m

theorem advancing_own {α : Type} {m : Handler size Payload Handle α} (h : KeepsOwn m) :
    Advancing m :=
  .of_keeps h fun _ _ _ _ ho => .of_own ho

theorem advancing_setVoteFor (voteFor : Option (Fin size)) :
    Advancing (setVoteFor voteFor : Handler size Payload Handle Unit) where
  run hr := by
    cases hr
    exact .of_entries le_rfl rfl rfl rfl id

theorem advancing_replyAll (code : Nat) (message : String) (leaderId : Option (Fin size))
    (handles : List (Option Handle)) :
    Advancing (replyAll code message leaderId handles : Handler size Payload Handle Unit) where
  run hr := by
    obtain ⟨-, -, rfl⟩ := (runsTo_replyAll _ _ _ _ _).unique hr
    exact .refl _

theorem advancing_stepDown (newTerm : Nat) :
    Advancing (stepDown newTerm : Handler size Payload Handle Unit) where
  run hr := by
    have hd := of_stepDown hr
    exact .of_entries (hd.term ▸ hd.le) hd.commitIndex hd.firstIndex hd.entries
      fun _ => by simp [hd.role]

theorem advancing_decideVote (request : RequestVoteRequest size) :
    Advancing (decideVote request : Handler size Payload Handle Bool) :=
  .bind .get fun _ => .bind (advancing_own (keepsOwn_termOfLogEntryAt _)) fun _ =>
    .ite (.bind (advancing_setVoteFor _) fun _ => .pure _) (.pure _)

theorem basis_advances :
    Basis (fun (node : Node size Payload Handle) (_ : List (Effect size Payload Handle))
      (node' : Node size Payload Handle) => Advances node node') where
  own := advancing_own
  stepDown := advancing_stepDown
  appendEntry := .appendEntry
  truncateSuffix := .truncateSuffix
  followCommitIndex hlt hle := ⟨le_rfl, hlt.le, rfl, fun hc => ⟨hc.pos, hle⟩, id⟩
  decideVote := advancing_decideVote

theorem advancing_electionTimeout (self : Fin size) :
    Advancing (electionTimeout self : Handler size Payload Handle Unit) where
  run hr := by
    have hb := hr.of_get
    unfold Program.when at hb
    split at hb
    · cases hb
      exact .of_entries (Nat.le_succ _) rfl rfl rfl fun _ => by simp [Node.campaign]
    · cases hb
      exact .refl _

theorem advancing_becomeLeader (self : Fin size) (noop : Payload) :
    Advancing (becomeLeader self noop : Handler size Payload Handle Unit) := by
  have hl : Advancing (modify Node.lead : Handler size Payload Handle Unit) :=
    ⟨fun hr => by
      cases hr
      exact .of_entries le_rfl rfl rfl rfl fun _ => by simp [Node.lead]⟩
  exact .bind .get fun _ => .when (.bind hl fun _ =>
    .bind (ensures_appendAll .appendEntry _) fun _ => .assert _ _)

theorem advancing_advanceCommitIndex (self : Fin size) :
    Advancing (advanceCommitIndex self : Handler size Payload Handle Unit) where
  run {node es _ node'} hrun := by
    have hb := hrun.of_get
    simp only [Program.when] at hb
    split at hb
    · rename_i hm
      obtain ⟨_, term, node, _, ht, hc, rfl⟩ := hb.of_bind
      obtain ⟨rfl, rfl⟩ := of_termOfLogEntryAt ht
      split at hc
      · have ha := hc.of_modify
        obtain ⟨_, _, _, _, hchk, hrep, rfl⟩ := ha.of_bind
        obtain ⟨hle, rfl, rfl⟩ := hchk.of_assert
        obtain ⟨_, _, _, _, hr, hf, rfl⟩ := hrep.of_bind
        obtain ⟨rfl, -, rfl⟩ := (runsTo_replyAll _ _ _ _ _).unique hr
        cases hf
        exact ⟨le_rfl, hm.2.le, rfl, fun hcov => ⟨hcov.pos, hle⟩, id⟩
      · cases hc
        exact .refl _
    · cases hb
      exact .refl _

theorem advancing_receiveClientRequests :
    Advancing (receiveClientRequests : Handler size Payload Handle Unit) := by
  have hm : ∀ f : Node size Payload Handle → Node size Payload Handle,
      (∀ node, Advances node (f node)) →
      Advancing (modify f : Handler size Payload Handle Unit) := fun f hf =>
    ⟨fun hr => by
      cases hr
      exact hf _⟩
  refine .bind .get fun node => ?_
  cases node.clientRequestsQueue with
  | nil => exact .pure ()
  | cons requests queue =>
    refine .bind (hm _ fun _ => .of_entries le_rfl rfl rfl rfl id) fun _ =>
      .bind .get fun _ => .ite ?_ (advancing_replyAll _ _ _ _)
    exact .bind (hm _ fun _ => .of_entries le_rfl rfl rfl rfl id) fun _ =>
      .bind (ensures_appendAll .appendEntry _) fun _ => .pure ()

theorem advancing_op (config : Config Payload) (self : Fin size) (op : Op size Payload) :
    Advancing (op.run config self : Handler size Payload Handle Unit) := by
  cases op with
  | appendEntries due room => exact advancing_own (keepsOwn_appendEntries self config due room)
  | requestVote due => exact advancing_own (keepsOwn_requestVote self due)
  | receive message => exact basis_advances.receive self config message
  | callFailed id isAppendEntries => exact advancing_own (keepsOwn_callFailed id isAppendEntries)
  | receiveClientRequests => exact advancing_receiveClientRequests
  | advanceCommitIndex => exact advancing_advanceCommitIndex self
  | becomeLeader noop => exact advancing_becomeLeader self noop
  | electionTimeout => exact advancing_electionTimeout self
  | leadershipTimeout => exact basis_advances.leadershipTimeout

variable {node : Node size Payload Handle}

theorem exists_stepDown {newTerm : Nat} (hlt : node.log.currentTerm < newTerm) :
    ∃ es node', (stepDown newTerm).RunsTo node es () node' ∧ node'.leaderId = none := by
  have hwr : (if node.log.currentTerm < newTerm then do
        setCurrentTerm newTerm
        setVoteFor none
        modify fun node => { node with leaderId := none }
      else assert .stepDownRole (node.role = .Candidate)).RunsTo
        { node with role := .Follower }
        [.wrote (node.log.setCurrentTerm newTerm),
          .wrote ((node.log.setCurrentTerm newTerm).setVoteFor none)] ()
        { node with
          role := .Follower
          log := (node.log.setCurrentTerm newTerm).setVoteFor none
          leaderId := none } := by
    rw [if_pos hlt]
    rfl
  have hdrop : ∃ es node', (when (node.role = .Leader) (dropPending 301 "LeaderStepDown")).RunsTo
      { node with
        role := .Follower
        log := (node.log.setCurrentTerm newTerm).setVoteFor none
        leaderId := none } es () node' ∧ node'.leaderId = none := by
    unfold Program.when
    split
    · exact ⟨_, _, runsTo_dropPending _ _ _, rfl⟩
    · exact ⟨_, _, RunsTo.pure () _, rfl⟩
  obtain ⟨es, node', hdrop, hnone⟩ := hdrop
  exact ⟨_, node', (RunsTo.get node).bind ((RunsTo.assert hlt.le node).bind
    ((RunsTo.modify _ node).bind (hwr.bind hdrop))), hnone⟩

/-- A request of a later term that says all of the log is committed. -/
def commitAll (node : Node size Payload Handle) (leaderId : Fin size) :
    AppendEntriesRequest size Payload where
  term := node.log.currentTerm + 1
  leaderId := leaderId
  prevLogIndex := 0
  prevLogTerm := 0
  entries := []
  commitIndex := node.log.lastLogIndex

theorem runsTo_followCommitIndex (node : Node size Payload Handle)
    (h : node.commitIndex ≤ node.log.lastLogIndex) :
    (followCommitIndex node.log.lastLogIndex).RunsTo node [] ()
      { node with commitIndex := node.log.lastLogIndex } := by
  refine (RunsTo.get node).bind_nil ?_
  unfold Program.when
  split
  · exact (RunsTo.modify _ node).bind (RunsTo.assert le_rfl _)
  · rename_i hn
    have heq : node.commitIndex = node.log.lastLogIndex := le_antisymm h (Nat.not_lt.mp hn)
    have hs : { node with commitIndex := node.log.lastLogIndex } = node := by rw [← heq]
    rw [hs]
    exact RunsTo.pure () node

theorem runsTo_acceptEntries {request : AppendEntriesRequest size Payload}
    (hcov : node.Covered) (hlead : node.leaderId = none) (hprev : request.prevLogIndex = 0)
    (hents : request.entries = []) (hcom : request.commitIndex = node.log.lastLogIndex)
    (response : AppendEntriesResponse size) :
    (acceptEntries request response).RunsTo node []
      { response with
        success := true
        lastLogIndex := node.log.lastLogIndex
        matchIndex := request.prevLogIndex + request.entries.length }
      { node with leaderId := some request.leaderId, commitIndex := node.log.lastLogIndex } := by
  have hupd : (updateLeaderId request.leaderId).RunsTo node [] ()
      { node with leaderId := some request.leaderId } := by
    refine (RunsTo.get node).bind_nil ?_
    rw [hlead]
    rfl
  have hok : (logIsOk request).RunsTo { node with leaderId := some request.leaderId } [] true
      { node with leaderId := some request.leaderId } := by
    refine (RunsTo.get _).bind_nil ?_
    rw [if_pos (by rw [hprev]; exact hcov.pos)]
    exact RunsTo.pure true _
  have hmer : (mergeEntries request.prevLogIndex request.entries).RunsTo
      { node with leaderId := some request.leaderId } [] []
      { node with leaderId := some request.leaderId } := by
    rw [hents]
    exact RunsTo.pure [] _
  have hfol : (followCommitIndex request.commitIndex).RunsTo
      { node with leaderId := some request.leaderId } [] ()
      { node with leaderId := some request.leaderId, commitIndex := node.log.lastLogIndex } := by
    rw [hcom]
    exact runsTo_followCommitIndex { node with leaderId := some request.leaderId } hcov.le
  exact hupd.bind (hok.bind (hmer.bind ((RunsTo.pure true _).bind
    ((RunsTo.assert rfl _).bind ((RunsTo.get _).bind (hfol.bind (RunsTo.pure _ _)))))))

/-- There is always a message that makes the node commit all it has, in a later term. -/
theorem exists_commitAll (config : Config Payload) (self leaderId : Fin size)
    (hrole : node.role ≠ .Syncer) (hcov : node.Covered) :
    ∃ op node', (Op.run config self op node).result = .ok ((), node') ∧
      node'.log.currentTerm = node.log.currentTerm + 1 ∧
      node'.log.lastLogIndex = node.log.lastLogIndex ∧
      node'.commitIndex = node.log.lastLogIndex := by
  have hlate : node.log.currentTerm < (commitAll node leaderId).term := Nat.lt_succ_self _
  obtain ⟨es, middle, hdown, hnone⟩ := exists_stepDown hlate
  have hstep := of_stepDown hdown
  have hlast : middle.log.lastLogIndex = node.log.lastLogIndex := by
    unfold Log.lastLogIndex
    rw [hstep.firstIndex, hstep.entries]
  have hcov' : middle.Covered := ((advancing_stepDown _).run hdown).covered hcov
  have hwp : Logic.total.Wp (handleAppendEntriesRequest self (commitAll node leaderId))
      (fun response node' _ _ => response.isSome = true ∧
        node'.log.currentTerm = node.log.currentTerm + 1 ∧
        node'.log.lastLogIndex = node.log.lastLogIndex ∧
        node'.commitIndex = node.log.lastLogIndex) node [] () := by
    refine .bind (.get (.ite (fun hearl => absurd hearl hlate.le.not_gt) fun _ =>
      .ite (fun hsyncer => absurd hsyncer hrole) fun _ => .bind (.when (fun _ => ?_) ?_)))
    · refine .of_runsTo_total hdown (.bind (.of_runsTo_total (runsTo_acceptEntries hcov' hnone
        rfl rfl hlast.symm _) (.pure ?_)))
      exact ⟨rfl, hstep.term, hlast, hlast⟩
    · intro hnot
      exact absurd (Or.inl hlate) hnot
  have hrcv : Logic.total.Wp (receive self config
        ⟨leaderId, self, 0, .appendEntriesRequest (commitAll node leaderId)⟩)
      (fun _ node' _ _ => node'.log.currentTerm = node.log.currentTerm + 1 ∧
        node'.log.lastLogIndex = node.log.lastLogIndex ∧
        node'.commitIndex = node.log.lastLogIndex) node [] () := by
    refine .bind (hwp.mono ?_)
    intro response node' _ _ hpost
    cases response with
    | none => simp at hpost
    | some response => exact .emit_total hpost.2
  obtain ⟨_, node', hres, hfct⟩ := hrcv.exists_result
  exact ⟨.receive _, node', hres, hfct⟩

end Handler

end MySuperLedger.Raft
