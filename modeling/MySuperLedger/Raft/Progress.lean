import MySuperLedger.Raft.Core

/-! # What a handler does to the other nodes' progress

Of all handlers only those for a won election and for an answer to a leader's
call change what a node believes of the logs of the others. The rest is shown to
leave it alone, and most of it to send nothing.
-/

namespace MySuperLedger.Raft

open Effects Program Check

variable {size : Nat} {Payload Handle : Type}

/-- How far another node's log matches, and where the next request to it begins. -/
def Node.progress (node : Node size Payload Handle) (id : Fin size) : Nat × Nat :=
  ((node.peers id).matchIndex, (node.peers id).nextIndex)

/-- What neither an answer nor a change of role touches. -/
def Node.settled (node : Node size Payload Handle) :
    (Fin size → Peer) × Nat × List (LogEntry Payload) :=
  (node.peers, node.log.firstIndex, node.log.entries)

def Node.withPeer (node : Node size Payload Handle) (id : Fin size) (peer : Peer) :
    Node size Payload Handle :=
  { node with peers := Function.update node.peers id peer }

theorem Node.withPeer_peers (node : Node size Payload Handle) (id : Fin size) (peer : Peer) :
    (node.withPeer id peer).peers id = peer :=
  Function.update_self ..

def Effect.IsLocal : Effect size Payload Handle → Prop
  | .sent _ => False
  | .wrote _ => True
  | .replied _ => True

/-- The checks of a leader on how far the answers of its calls have come. -/
def Check.ofAnswers : List Check := [.matchIndexIncreases, .matchIndexCovered, .gapAboveMatchIndex]

namespace Handler

open Program

/-- Nothing is sent, and the other nodes are not looked at. -/
abbrev Quiet {α : Type} (m : Handler size Payload Handle α) : Prop :=
  Keeps Effect.IsLocal (· ∉ ofAnswers) Node.peers m

theorem quiet_writeLog (log : Log size Payload) :
    Quiet (writeLog log : Handler size Payload Handle Unit) :=
  .bind (.modify fun _ => rfl) fun _ => .emit trivial

theorem quiet_truncateSuffix (lastIndexKept : Nat) :
    Quiet (truncateSuffix lastIndexKept : Handler size Payload Handle Unit) :=
  .bind .get fun _ => quiet_writeLog _

theorem quiet_setCurrentTerm (term : Nat) :
    Quiet (setCurrentTerm term : Handler size Payload Handle Unit) :=
  .bind .get fun _ => quiet_writeLog _

theorem quiet_setVoteFor (voteFor : Option (Fin size)) :
    Quiet (setVoteFor voteFor : Handler size Payload Handle Unit) :=
  .bind .get fun _ => quiet_writeLog _

variable {γ : Type} {view : Node size Payload Handle → γ} {m : Handler size Payload Handle α}
  {peer : Peer} {request : AppendEntriesRequest size Payload}

theorem keeps_termOfLogEntryAt {P : Effect size Payload Handle → Prop} (index : Nat) :
    Keeps P (· ∉ ofAnswers) view (termOfLogEntryAt index : Handler size Payload Handle Nat) :=
  .bind .get fun _ => .require (by decide) _

theorem result_termOfLogEntryAt {index term : Nat} {node node' : Node size Payload Handle}
    (h : (termOfLogEntryAt index node).result = .ok (term, node')) : node' = node :=
  have hk : Keeps (fun _ => True) _ id _ := keeps_termOfLogEntryAt index
  hk.result _ _ _ h

theorem quiet_appendAll (entries : List (LogEntry Payload)) :
    Quiet (appendAll entries : Handler size Payload Handle Bool) := by
  induction entries with
  | nil => exact .pure true
  | cons entry entries ih =>
    refine .bind .get fun node => ?_
    cases node.log.appendEntry entry with
    | none => exact .pure false
    | some log => exact .bind (quiet_writeLog log) fun _ => ih

theorem keeps_replyAll (code : Nat) (message : String) (leaderId : Option (Fin size))
    (handles : List (Option Handle)) :
    Keeps Effect.IsLocal (· ∉ ofAnswers) view (replyAll code message leaderId handles) :=
  .forEach (fun _ => .emit trivial) _

theorem keeps_setCurrentTerm (term : Nat) :
    Keeps Effect.IsLocal (· ∉ ofAnswers) Node.settled
        (setCurrentTerm term : Handler size Payload Handle Unit) where
  effects _ _ hm := by
    rw [List.mem_singleton.mp hm]
    trivial
  checks _ _ h := nomatch h
  result _ _ _ h := by
    cases h
    rfl

theorem keeps_setVoteFor (voteFor : Option (Fin size)) :
    Keeps Effect.IsLocal (· ∉ ofAnswers) Node.settled
        (setVoteFor voteFor : Handler size Payload Handle Unit) where
  effects _ _ hm := by
    rw [List.mem_singleton.mp hm]
    trivial
  checks _ _ h := nomatch h
  result _ _ _ h := by
    cases h
    rfl

theorem keeps_stepDown (newTerm : Nat) :
    Keeps Effect.IsLocal (· ∉ ofAnswers) Node.settled
        (stepDown newTerm : Handler size Payload Handle Unit) := by
  refine .bind .get fun node => .bind (.assert (by decide) _) fun _ =>
    .bind (.modify fun _ => rfl) fun _ =>
    .bind (.ite ?_ (.assert (by decide) _)) fun _ => .when ?_
  · exact .bind (keeps_setCurrentTerm newTerm) fun _ => .bind (keeps_setVoteFor none) fun _ =>
      .modify fun _ => rfl
  · exact .bind .get fun _ => .bind (keeps_replyAll ..) fun _ => .modify fun _ => rfl

theorem keeps_updateLeaderId (leaderId : Fin size) :
    Keeps Effect.IsLocal (· ∉ ofAnswers) Node.settled
      (updateLeaderId leaderId : Handler size Payload Handle Unit) := by
  refine .bind .get fun node => ?_
  cases node.leaderId with
  | none => exact .modify fun _ => rfl
  | some known => exact .assert (by decide) _

theorem quiet_stepDown (newTerm : Nat) :
    Quiet (stepDown newTerm : Handler size Payload Handle Unit) :=
  (keeps_stepDown newTerm).map Prod.fst

theorem quiet_logIsOk (request : AppendEntriesRequest size Payload) :
    Quiet (logIsOk request : Handler size Payload Handle Bool) :=
  .bind .get fun _ => .ite (.pure _) (.ite (.pure _)
    (.bind (keeps_termOfLogEntryAt _) fun _ => .pure _))

theorem quiet_mergeEntries (index : Nat) (entries : List (LogEntry Payload)) :
    Quiet (mergeEntries index entries :
      Handler size Payload Handle (List (LogEntry Payload))) := by
  induction entries generalizing index with
  | nil => exact .pure []
  | cons entry entries ih =>
    have hr : Quiet (do
        let rest ← mergeEntries (index + 1) entries
        pure (entry :: rest) : Handler size Payload Handle (List (LogEntry Payload))) :=
      .bind (ih _) fun _ => .pure _
    refine .bind (.assert (by decide) _) fun _ => .bind .get fun node => .ite (ih _) (.ite ?_ hr)
    refine .bind (keeps_termOfLogEntryAt _) fun term => .ite (ih _) ?_
    exact .bind (.assert (by decide) _) fun _ => .bind (quiet_truncateSuffix _) fun _ => hr

theorem quiet_followCommitIndex (commitIndex : Nat) :
    Quiet (followCommitIndex commitIndex : Handler size Payload Handle Unit) :=
  .bind .get fun _ => .when (.bind (.modify fun _ => rfl) fun _ => .assert (by decide) _)

theorem quiet_acceptEntries (request : AppendEntriesRequest size Payload)
    (response : AppendEntriesResponse size) :
    Quiet (acceptEntries request response :
      Handler size Payload Handle (AppendEntriesResponse size)) := by
  refine .bind ((keeps_updateLeaderId _).map Prod.fst) fun _ => .bind (quiet_logIsOk request)
    fun ok => .ite ?_ (.pure _)
  exact .bind (quiet_mergeEntries _ _) fun _ => .bind (quiet_appendAll _) fun _ =>
    .bind (.assert (by decide) _) fun _ => .bind .get fun _ =>
    .bind (quiet_followCommitIndex _) fun _ => .pure _

theorem quiet_handleAppendEntriesRequest (self : Fin size)
    (request : AppendEntriesRequest size Payload) :
    Quiet (handleAppendEntriesRequest self request :
      Handler size Payload Handle (Option (AppendEntriesResponse size))) := by
  refine .bind .get fun node => .ite (.pure _) (.ite (.pure _) ?_)
  exact .bind (.when (quiet_stepDown _)) fun _ => .bind (quiet_acceptEntries _ _) fun _ => .pure _

theorem quiet_handleRequestVoteRequest (self : Fin size) (request : RequestVoteRequest size) :
    Quiet (handleRequestVoteRequest self request :
      Handler size Payload Handle (Option (RequestVoteResponse size))) := by
  refine .bind .get fun node => .ite (.pure _) (.ite (.pure _) ?_)
  refine .bind (.when (quiet_stepDown _)) fun _ => .bind ?_ fun _ => .pure _
  exact .bind .get fun _ => .bind (keeps_termOfLogEntryAt _) fun _ =>
    .ite (.bind (quiet_setVoteFor _) fun _ => .pure _) (.pure _)

theorem quiet_receiveClientRequests :
    Quiet (receiveClientRequests : Handler size Payload Handle Unit) := by
  refine .bind .get fun node => ?_
  cases node.clientRequestsQueue with
  | nil => exact .pure ()
  | cons requests queue =>
    refine .bind (.modify fun _ => rfl) fun _ => .bind .get fun _ => .ite ?_ (keeps_replyAll ..)
    exact .bind (.modify fun _ => rfl) fun _ => .bind (quiet_appendAll _) fun _ => .pure ()

theorem quiet_advanceCommitIndex (self : Fin size) :
    Quiet (advanceCommitIndex self : Handler size Payload Handle Unit) := by
  refine .bind .get fun node => .when ?_
  refine .bind (keeps_termOfLogEntryAt _) fun term => .when ?_
  exact .bind (.modify fun _ => rfl) fun _ => .bind (.assert (by decide) _) fun _ =>
    .bind (keeps_replyAll ..) fun _ => .modify fun _ => rfl

theorem quiet_leadershipTimeout : Quiet (leadershipTimeout : Handler size Payload Handle Unit) :=
  .bind .get fun _ => .when (quiet_stepDown _)

/-- The progress of the others is not touched. -/
abbrev Holds {α : Type} (m : Handler size Payload Handle α) : Prop :=
  Keeps (fun _ => True) (· ∉ ofAnswers) Node.progress m

/-- None of the checks on answers is made. -/
abbrev Spares {α : Type} (m : Handler size Payload Handle α) : Prop :=
  Keeps (fun _ => True) (· ∉ ofAnswers) (fun _ => ()) m

variable {α : Type} {response : AppendEntriesResponse size} {node node' : Node size Payload Handle}

theorem Quiet.spares (h : Quiet m) : Spares m :=
  (h.map fun _ => ()).mono (fun _ _ => trivial) fun _ hc => hc

theorem Quiet.holds (h : Quiet m) : Holds m :=
  (h.map fun peers id => ((peers id).matchIndex, (peers id).nextIndex)).mono
    (fun _ _ => trivial) fun _ hc => hc

theorem progress_withPeer (node : Node size Payload Handle) {id : Fin size}
    (hm : peer.matchIndex = (node.peers id).matchIndex)
    (hn : peer.nextIndex = (node.peers id).nextIndex) :
    (node.withPeer id peer).progress = node.progress := by
  funext id'
  by_cases hid : id' = id
  · subst hid
    simp [Node.progress, Node.withPeer, hm, hn]
  · simp [Node.progress, Node.withPeer, hid]

theorem holds_switchOn (id : Fin size) : Holds (switchOn id : Handler size Payload Handle Unit) :=
  .modify fun node => progress_withPeer node rfl rfl

theorem holds_sendAppendEntries (self : Fin size) (config : Config Payload) (room : Nat)
    (id : Fin size) :
    Holds (sendAppendEntries self config room id : Handler size Payload Handle Unit) where
  effects _ _ _ := trivial
  checks := by
    have hs : Spares (sendAppendEntries self config room id : Handler size Payload Handle Unit) :=
      .bind .get fun _ => .bind (keeps_termOfLogEntryAt _) fun _ =>
        .bind (.ite (.pure _) (.require (by decide) _)) fun _ => .bind (.emit trivial) fun _ =>
        .modify fun _ => rfl
    exact hs.checks
  result node _ node' h := by
    have h := result_get h
    obtain ⟨_, _, ht, h⟩ := result_bind h
    obtain rfl := result_termOfLogEntryAt ht
    obtain ⟨_, _, he, h⟩ := result_bind h
    obtain rfl := (.ite (.pure _) (.require (by decide) _) :
      Keeps (fun _ => True) (· ∉ ofAnswers) (fun node => node) _).result _ _ _ he
    cases h
    exact progress_withPeer _ rfl rfl

theorem holds_appendEntries (self : Fin size) (config : Config Payload) (due : Fin size → Bool)
    (room : Fin size → Nat) :
    Holds (appendEntries self config due room : Handler size Payload Handle Unit) :=
  .bind .get fun _ => .when (.forEach
    (fun _ => .bind .get fun _ => .when (holds_sendAppendEntries ..)) _)

theorem holds_sendRequestVote (self id : Fin size) :
    Holds (sendRequestVote self id : Handler size Payload Handle Unit) where
  effects _ _ _ := trivial
  checks := by
    have hs : Spares (sendRequestVote self id : Handler size Payload Handle Unit) :=
      .bind .get fun _ => .bind (keeps_termOfLogEntryAt _) fun _ => .bind (.emit trivial) fun _ =>
        .modify fun _ => rfl
    exact hs.checks
  result node _ node' h := by
    have h := result_get h
    obtain ⟨_, _, ht, h⟩ := result_bind h
    obtain rfl := result_termOfLogEntryAt ht
    cases h
    exact progress_withPeer _ rfl rfl

theorem holds_requestVote (self : Fin size) (due : Fin size → Bool) :
    Holds (requestVote self due : Handler size Payload Handle Unit) :=
  .bind .get fun _ => .when (.forEach
    (fun _ => .bind .get fun _ => .when (holds_sendRequestVote ..)) _)

theorem holds_electionTimeout (self : Fin size) :
    Holds (electionTimeout self : Handler size Payload Handle Unit) := by
  refine .bind .get fun node => .when (.bind (.modify fun _ => rfl) fun _ => ?_)
  exact .bind (quiet_setCurrentTerm _).holds fun _ => .bind (quiet_setVoteFor _).holds fun _ =>
    .modify fun _ => rfl

theorem holds_callFailed (id : Fin size) (isAppendEntries : Bool) :
    Holds (callFailed id isAppendEntries : Handler size Payload Handle Unit) where
  effects _ _ _ := trivial
  checks := by
    have hs : Spares (callFailed id isAppendEntries : Handler size Payload Handle Unit) :=
      .bind (.modify fun _ => rfl) fun _ => .bind .get fun _ => .when (.modify fun _ => rfl)
    exact hs.checks
  result node _ node' h := by
    obtain ⟨_, on, hon, h⟩ := result_bind h
    rw [← (holds_switchOn id).result _ _ _ hon]
    have h := result_get h
    unfold when at h
    split at h
    · cases h
      exact progress_withPeer _ rfl rfl
    · cases h
      rfl

theorem holds_handleRequestVoteResponse (response : RequestVoteResponse size) :
    Holds (handleRequestVoteResponse response : Handler size Payload Handle Unit) where
  effects _ _ _ := trivial
  checks := by
    have hs : Spares (handleRequestVoteResponse response :
        Handler size Payload Handle Unit) :=
      .bind .get fun _ => .when (.ite (quiet_stepDown _).spares (.modify fun _ => rfl))
    exact hs.checks
  result node _ node' h := by
    have h := result_get h
    unfold when at h
    split at h
    · split at h
      · exact (quiet_stepDown _).holds.result _ _ _ h
      · cases h
        exact progress_withPeer _ rfl rfl
    · cases h
      rfl

theorem spares_becomeLeader (self : Fin size) (noop : Payload) :
    Spares (becomeLeader self noop : Handler size Payload Handle Unit) :=
  .bind .get fun _ => .when (.bind (.modify fun _ => rfl) fun _ =>
    .bind (quiet_appendAll _).spares fun _ => .assert (by decide) _)

/-- How an answer moves what the leader knows of the node that gave it. -/
inductive Moved (config : Config Payload) (response : AppendEntriesResponse size)
    (peer peer' : Peer) : Prop where
  | matched (increases : peer.matchIndex ≤ response.matchIndex)
      (matchIndex_eq : peer'.matchIndex = response.matchIndex)
      (nextIndex_eq : peer'.nextIndex = response.matchIndex + 1)
  | lowered (covered : peer.matchIndex ≤ response.lastLogIndex)
      (gap : peer.matchIndex + 1 < peer.nextIndex)
      (matchIndex_eq : peer'.matchIndex = peer.matchIndex)
      (nextIndex_eq : peer'.nextIndex = lowerNextIndex config peer response.lastLogIndex)

theorem lt_lowerNextIndex (config : Config Payload) {lastLogIndex : Nat}
    (hc : peer.matchIndex ≤ lastLogIndex) (hg : peer.matchIndex + 1 < peer.nextIndex) :
    peer.matchIndex < lowerNextIndex config peer lastLogIndex := by
  unfold lowerNextIndex
  split
  · omega
  · have := Nat.min_le_left ((peer.nextIndex - peer.matchIndex) / 2) config.maxDecrStep
    omega

theorem result_assert {check : Check} {c : Prop} [Decidable c]
    {f : Unit → Handler size Payload Handle α} (node : Node size Payload Handle) :
    ((assert check c >>= f) node).result = if c then (f () node).result else .error check := by
  split
  · next hc => rw [(RunsTo.assert hc node).bind_eq]
  · rename_i hc
    show (Program.bind (assert check c) f node).result = _
    simp [Program.bind, assert, hc]

/-- An answer that counts: of the current term, to the request the leader would make next. -/
def Counts (node : Node size Payload Handle) (response : AppendEntriesResponse size) : Prop :=
  node.log.currentTerm = response.savedTerm ∧ response.term ≤ node.log.currentTerm ∧
    response.savedPrevLogIndex = (node.peers response.id).nextIndex - 1

instance (node : Node size Payload Handle) (response : AppendEntriesResponse size) :
    Decidable (Counts node response) :=
  inferInstanceAs (Decidable (_ ∧ _ ∧ _))

theorem result_handleAppendEntriesResponse (config : Config Payload)
    (hcnt : Counts node response) (hrole : node.role = .Leader) :
    (handleAppendEntriesResponse config response node).result =
      if response.success = true then
        if (node.peers response.id).matchIndex ≤ response.matchIndex then
          .ok ((), node.withPeer response.id
            { node.peers response.id with
              matchIndex := response.matchIndex
              nextIndex := response.matchIndex + 1
              suppressBulkData := false })
        else .error .matchIndexIncreases
      else if (node.peers response.id).matchIndex ≤ response.lastLogIndex then
        if (node.peers response.id).matchIndex + 1 < (node.peers response.id).nextIndex then
          .ok ((), node.withPeer response.id
            { node.peers response.id with
              nextIndex := lowerNextIndex config (node.peers response.id) response.lastLogIndex })
        else .error .gapAboveMatchIndex
      else .error .matchIndexCovered := by
  obtain ⟨hterm, hle, hprev⟩ := hcnt
  have hlt : ¬ node.log.currentTerm < response.term := Nat.not_lt.mpr hle
  unfold handleAppendEntriesResponse
  rw [(RunsTo.get node).bind_eq]
  simp only [when, if_pos hterm, result_assert, if_pos hrole, if_neg hlt, if_pos hprev]
  split
  · rw [result_assert]
    rfl
  · rw [result_assert]
    simp only [result_assert]
    rfl

/-- An answer that does not count is dropped, or makes the leader step down. -/
theorem keeps_of_not_counts (config : Config Payload) (hc : ¬ Counts node response) :
    (∀ check, (handleAppendEntriesResponse config response node).result = .error check →
      check ∉ ofAnswers) ∧
    ∀ x node', (handleAppendEntriesResponse config response node).result = .ok (x, node') →
      node'.progress = node.progress := by
  unfold handleAppendEntriesResponse
  rw [(RunsTo.get node).bind_eq]
  by_cases ht : node.log.currentTerm = response.savedTerm
  · simp only [when, if_pos ht, result_assert]
    split
    · by_cases hlt : node.log.currentTerm < response.term
      · simp only [if_pos hlt]
        have hqt := (quiet_stepDown response.term : Quiet (stepDown response.term :
          Handler size Payload Handle Unit)).holds
        exact ⟨hqt.checks node, hqt.result node⟩
      · have hp : ¬ response.savedPrevLogIndex = (node.peers response.id).nextIndex - 1 :=
          fun hp => hc ⟨ht, Nat.not_lt.mp hlt, hp⟩
        simp only [if_neg hlt, if_neg hp]
        exact ⟨nofun, fun _ _ h => by cases h; rfl⟩
    · refine ⟨fun check h => ?_, nofun⟩
      cases h
      decide
  · simp only [when, if_neg ht]
    exact ⟨nofun, fun _ _ h => by cases h; rfl⟩

theorem progress_handleAppendEntriesResponse (config : Config Payload)
    (hrun : (handleAppendEntriesResponse config response node).result = .ok ((), node')) :
    node'.progress = node.progress ∨ ∃ peer', node' = node.withPeer response.id peer' ∧
        Moved config response (node.peers response.id) peer' := by
  by_cases hcnt : Counts node response
  · by_cases hrole : node.role = .Leader
    · rw [result_handleAppendEntriesResponse config hcnt hrole] at hrun
      right
      split at hrun
      · split at hrun
        · rename_i hle
          cases hrun
          exact ⟨_, rfl, .matched hle rfl rfl⟩
        · cases hrun
      · split at hrun
        · rename_i hcov
          split at hrun
          · rename_i hgap
            cases hrun
            exact ⟨_, rfl, .lowered hcov hgap rfl rfl⟩
          · cases hrun
        · cases hrun
    · unfold handleAppendEntriesResponse at hrun
      rw [(RunsTo.get node).bind_eq] at hrun
      simp only [when, if_pos hcnt.1, result_assert, if_neg hrole] at hrun
      cases hrun
  · exact .inl ((keeps_of_not_counts config hcnt).2 _ _ hrun)

/-- The log of the follower does not hold what precedes the batch. -/
def Refuses (log : Log size Payload) (request : AppendEntriesRequest size Payload) : Prop :=
  log.firstIndex ≤ request.prevLogIndex ∧ (log.lastLogIndex < request.prevLogIndex ∨
      ∃ term, log.getTerm request.prevLogIndex = some term ∧ term ≠ request.prevLogTerm)

theorem refuses_of_logIsOk (hr : (logIsOk request node).result = .ok (false, node')) :
    Refuses node.log request := by
  unfold logIsOk at hr
  rw [(RunsTo.get node).bind_eq] at hr
  split at hr
  · cases hr
  · rename_i hf
    refine ⟨Nat.not_lt.mp hf, ?_⟩
    split at hr
    · next hl => exact .inl hl
    · obtain ⟨term, node'', ht, hr⟩ := result_bind hr
      right
      unfold termOfLogEntryAt at ht
      rw [(RunsTo.get node).bind_eq] at ht
      cases hg : node.log.getTerm request.prevLogIndex with
      | none =>
        rw [hg] at ht
        cases ht
      | some found =>
        rw [hg] at ht
        cases ht
        refine ⟨term, rfl, fun heq => ?_⟩
        rw [heq] at hr
        simp [Pure.pure, Program.pure] at hr

/-- What a follower answers to `request` when its log is `log`. -/
structure AnswerOf (me : Fin size) (log : Log size Payload)
    (request : AppendEntriesRequest size Payload) (response : AppendEntriesResponse size) :
    Prop where
  id_eq : response.id = me
  savedTerm_eq : response.savedTerm = request.term
  savedPrevLogIndex_eq : response.savedPrevLogIndex = request.prevLogIndex
  term_le : request.term ≤ response.term
  success : response.success = true →
    response.matchIndex = request.prevLogIndex + request.entries.length
  refused : response.success = false → response.term = request.term →
    log.currentTerm ≤ request.term ∧ response.lastLogIndex = log.lastLogIndex ∧
      Refuses log request

theorem answerOf_handleAppendEntriesRequest {self : Fin size}
    (hrun : (handleAppendEntriesRequest self request node).result = .ok (some response, node')) :
    AnswerOf self node.log request response := by
  unfold handleAppendEntriesRequest at hrun
  rw [(RunsTo.get node).bind_eq] at hrun
  split at hrun
  · rename_i hlt
    cases hrun
    refine ⟨rfl, rfl, rfl, hlt.le, nofun, fun _ heq => ?_⟩
    have heq : node.log.currentTerm = request.term := heq
    omega
  next hle =>
  split at hrun
  · cases hrun
  obtain ⟨_, down, hdown, hrun⟩ := result_bind hrun
  obtain ⟨answer, _, hacc, hrun⟩ := result_bind hrun
  cases hrun
  have hsett := (Keeps.when (keeps_stepDown request.term)).result _ _ _ hdown
  obtain ⟨_, known, hkn, hacc⟩ := result_bind hacc
  have hsett := ((keeps_updateLeaderId _).result _ _ _ hkn).trans hsett
  obtain ⟨ok, checked, hok, hacc⟩ := result_bind hacc
  cases ok with
  | true =>
    obtain ⟨_, _, _, hacc⟩ := result_bind hacc
    obtain ⟨_, _, _, hacc⟩ := result_bind hacc
    obtain ⟨_, _, _, hacc⟩ := result_bind hacc
    obtain ⟨_, _, _, hacc⟩ := result_bind hacc
    obtain ⟨_, _, _, hacc⟩ := result_bind hacc
    cases hacc
    exact ⟨rfl, rfl, rfl, le_rfl, fun _ => rfl, nofun⟩
  | false =>
    have href := refuses_of_logIsOk hok
    cases hacc
    refine ⟨rfl, rfl, rfl, le_rfl, nofun, fun _ _ => ⟨Nat.not_lt.mp hle, rfl, ?_⟩⟩
    simp only [Node.settled, Prod.mk.injEq] at hsett
    obtain ⟨-, hfst, hents⟩ := hsett
    simpa only [Refuses, Log.lastLogIndex, Log.getTerm, Log.getEntry, hfst, hents] using href

end Handler

end MySuperLedger.Raft
