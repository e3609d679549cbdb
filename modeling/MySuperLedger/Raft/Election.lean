import MySuperLedger.Raft.Abstraction

/-! # Elections follow the protocol

One lemma per handler, in the program logic of the abstraction: every write is
matched by steps of the abstract protocol, so that the log on disk means the
same wherever the process stops, and at the end the whole node does. This module
has the handlers that move terms, votes and roles.
-/

namespace MySuperLedger.Raft

open Consensus Effects Effects.Logic List Function Handler LogEntry

variable {size : Nat} {Payload Handle : Type}

/-- What no handler takes back within one start of the process. -/
structure Kept (node node' : Node size Payload Handle) : Prop where
  incarnation : node'.incarnation = node.incarnation
  term_le : node.log.currentTerm ≤ node'.log.currentTerm
  /-- A leader stays one for the rest of its term. -/
  leader : node'.log.currentTerm = node.log.currentTerm → node.role = .Leader →
    node'.role = .Leader
  /-- A follower does not run for election again in the same term. -/
  standing : node'.log.currentTerm = node.log.currentTerm →
    node'.role = .Leader ∨ node'.role = .Candidate → node.role = .Leader ∨ node.role = .Candidate
  commit_le : node.commitIndex ≤ node'.commitIndex
  queue : ∀ requests ∈ node'.clientRequestsQueue, requests ∈ node.clientRequestsQueue

variable {node' : Node size Payload Handle} {id : Fin size} {peer : Peer} {log : Log size Payload}
  {source : Fin size}

theorem Kept.of_role (hi : node'.incarnation = node.incarnation)
    (ht : node'.log.currentTerm = node.log.currentTerm) (hr : node'.role = node.role)
    (hc : node.commitIndex ≤ node'.commitIndex)
    (hq : node'.clientRequestsQueue = node.clientRequestsQueue) : Kept node node' where
  incarnation := hi
  term_le := ht.ge
  leader _ hl := hr.trans hl
  standing _ hs := by rwa [hr] at hs
  commit_le := hc
  queue _ hm := by rwa [hq] at hm

theorem Kept.refl (node : Node size Payload Handle) : Kept node node :=
  .of_role rfl rfl rfl le_rfl rfl

variable {node'' : Node size Payload Handle} {es' : List (Effect size Payload Handle)}
  {a' : Ghost size Payload} {c : Fin size} {request : RequestVoteRequest size}

theorem Kept.trans (h : Kept node node') (h' : Kept node' node'') : Kept node node'' where
  incarnation := h'.incarnation.trans h.incarnation
  term_le := h.term_le.trans h'.term_le
  leader ht hr := by
    have hle := h.term_le
    have hle' := h'.term_le
    exact h'.leader (by omega) (h.leader (by omega) hr)
  standing ht hr := by
    have hle := h.term_le
    have hle' := h'.term_le
    exact h.standing (by omega) (h'.standing (by omega) hr)
  commit_le := h.commit_le.trans h'.commit_le
  queue requests hm := h.queue requests (h'.queue requests hm)

structure Handled (me : Fin size) (start : Start size Payload) (node : Node size Payload Handle)
    (es : List (Effect size Payload Handle)) (a : Ghost size Payload)
    (node' : Node size Payload Handle) (es' : List (Effect size Payload Handle))
    (a' : Ghost size Payload) : Prop where
  working : Working me start node'.log es' a'
  volatile : VolatileRel me node' a'
  kept : Kept node node'
  grows : Grows a a'

variable {me : Fin size} {start : Start size Payload} {node : Node size Payload Handle}
  {es : List (Effect size Payload Handle)} {a : Ghost size Payload}
  (h : Working me start node.log es a) (hv : VolatileRel me node a)

include h hv in
theorem Handled.refl : Handled me start node es a node es a :=
  ⟨h, hv, Kept.refl node, Grows.refl a⟩

theorem Handled.trans {es'' : List (Effect size Payload Handle)} {a'' : Ghost size Payload}
    (h : Handled me start node es a node' es' a')
    (h' : Handled me start node' es' a' node'' es'' a'') :
    Handled me start node es a node'' es'' a'' :=
  ⟨h'.working, h'.volatile, h.kept.trans h'.kept, h.grows.trans h'.grows⟩

/-- One peer changes. Votes and match indices need a reason. -/
theorem VolatileRel.setPeer (hv : VolatileRel me node a)
    (hvote : node.role = .Candidate → id ≠ me → peer.haveVote = true →
      a.granted node.log.currentTerm id = some me)
    (hlead : node.role = .Leader → 1 ≤ peer.nextIndex ∧ (id ≠ me →
      peer.matchIndex ≤ (a.acked node.log.currentTerm id).length ∧
        peer.nextIndex ≤ node.log.entries.length + 1)) :
    VolatileRel me { node with peers := update node.peers id peer } a := by
  refine ⟨hv.commit_le, hv.committed, hv.leaderId, ?_, ?_⟩
  · intro hrole
    have hc := hv.candidate hrole
    refine ⟨hc.cand, hc.self_vote, hc.not_elected, ?_⟩
    intro id' hne hv'
    by_cases hid : id' = id
    · subst hid
      exact hvote hrole hne (by simpa using hv')
    · exact hc.have_vote id' hne (by simpa [hid] using hv')
  · intro hrole
    have hl := hv.leader hrole
    have hp := hlead hrole
    refine ⟨hl.elected, hl.log, ?_, ?_, ?_⟩
    · intro id' hne
      by_cases hid : id' = id
      · subst hid
        simpa using (hp.2 hne).1
      · simpa [hid] using hl.match_le id' hne
    · intro id'
      by_cases hid : id' = id
      · subst hid
        simpa using hp.1
      · simpa [hid] using hl.next_pos id'
    · intro id' hne
      by_cases hid : id' = id
      · subst hid
        simpa using (hp.2 hne).2
      · simpa [hid] using hl.next_le id' hne

theorem VolatileRel.touchPeer (hv : VolatileRel me node a)
    (hvote : peer.haveVote = (node.peers id).haveVote)
    (hm : peer.matchIndex = (node.peers id).matchIndex)
    (hn : peer.nextIndex = (node.peers id).nextIndex) :
    VolatileRel me { node with peers := update node.peers id peer } a := by
  apply hv.setPeer
  · intro hr hne hv'
    exact (hv.candidate hr).have_vote id hne (hvote ▸ hv')
  · intro hr
    rw [hm, hn]
    have hl := hv.leader hr
    exact ⟨hl.next_pos id, fun hne => ⟨hl.match_le id hne, hl.next_le id hne⟩⟩

include h hv in
theorem wp_switchOn :
    (raftLogic me start).Wp (switchOn id)
      (fun _ node' es' a' => es' = es ∧ a' = a ∧
        node' = { node with
          peers := update node.peers id { node.peers id with switch := true } } ∧
        Handled me start node es a node' es' a') node es a := by
  apply Wp.modify
  exact ⟨rfl, rfl, rfl, h, hv.touchPeer rfl rfl rfl, .of_role rfl rfl rfl le_rfl rfl, Grows.refl a⟩

theorem wp_termOfLogEntryAt {post : Nat → Node size Payload Handle →
      List (Effect size Payload Handle) → Ghost size Payload → Prop} {index : Nat}
    (hr : LogRel me node.log a) (hle : index ≤ node.log.entries.length)
    (hp : post (lastTerm term (node.log.entries.take index)) node es a) :
    (raftLogic me start).Wp (termOfLogEntryAt index) post node es a := by
  have ht := hr.whole.getTerm_eq hle
  apply Wp.get_bind
  apply Wp.require
  · intro hn
    rw [ht] at hn
    cases hn
  · intro term hs
    rw [ht] at hs
    cases hs
    exact hp

/-- The term in which the caller leads, for the calls of a leader. -/
def Message.leaderTerm (message : Message size Payload) : Option Nat :=
  match message.body with
  | .appendEntriesRequest request => some request.term
  | .appendEntriesResponse response => some response.savedTerm
  | .requestVoteRequest _ => none
  | .requestVoteResponse _ => none

structure IsCall (me : Fin size) (node : Node size Payload Handle)
    (message : Message size Payload) : Prop where
  caller : message.caller = me
  incarnation : message.incarnation = node.incarnation
  leader : ∀ term, message.leaderTerm = some term →
    term = node.log.currentTerm ∧ node.role = .Leader

/-- Calls go out, and nothing but the switches changes. -/
structure Calling (me : Fin size) (start : Start size Payload) (node : Node size Payload Handle)
    (node' : Node size Payload Handle) (es' : List (Effect size Payload Handle))
    (a' : Ghost size Payload) : Prop where
  working : Working me start node'.log es' a'
  volatile : VolatileRel me node' a'
  log_eq : node'.log = node.log
  role_eq : node'.role = node.role
  incarnation_eq : node'.incarnation = node.incarnation
  commit_eq : node'.commitIndex = node.commitIndex
  queue_eq : node'.clientRequestsQueue = node.clientRequestsQueue

include h hv in
theorem Calling.refl : Calling me start node node es a :=
  ⟨h, hv, rfl, rfl, rfl, rfl, rfl⟩

theorem Calling.send {message : Message size Payload} (h : Calling me start node node' es' a)
    (hm : MessageRel message a) (hmay : start.maySend message)
    (hv : peer.haveVote = (node'.peers id).haveVote)
    (hmat : peer.matchIndex = (node'.peers id).matchIndex)
    (hn : peer.nextIndex = (node'.peers id).nextIndex) :
    (raftLogic me start).Wp
      (do Program.emit (.sent message)
          setPeer id peer : Handler size Payload Handle Unit)
      (fun _ => Calling me start node) node' es' a := by
  apply Wp.bind
  apply wp_send h.working hm hmay
  intro es'' hw
  apply Wp.modify
  exact ⟨hw, h.volatile.touchPeer hv hmat hn, h.log_eq, h.role_eq, h.incarnation_eq,
    h.commit_eq, h.queue_eq⟩

theorem LogRel.advance {log : Log size Payload} (hi : GhostInv a) (h : LogRel me log a)
    {term : Nat} (hlt : log.currentTerm < term) :
    LogRel me (log.setCurrentTerm term) (a.advance me term) where
  whole := ⟨h.whole.firstIndex_eq, h.whole.numbered⟩
  term := update_self ..
  entries := h.entries
  vote c hc := by
    -- a term the node has not seen has no vote of it
    have hle := (hi.granted_term term me c hc).1
    rw [h.term] at hle
    omega
  votes := h.votes

theorem LogRel.forget (h : LogRel me log a) (hn : a.granted log.currentTerm me = none) :
    LogRel me (log.setVoteFor none) a where
  whole := ⟨h.whole.firstIndex_eq, h.whole.numbered⟩
  term := h.term
  entries := h.entries
  vote c hc := by
    have hc' : a.granted log.currentTerm me = some c := hc
    rw [hn] at hc'
    cases hc'
  votes t c hc := h.votes t c (by simpa [Log.setVoteFor] using hc)

theorem granted_advance (hi : GhostInv a) {term : Nat} (hlt : a.term me < term) :
    (a.advance me term).granted term me = none := by
  rcases hg : a.granted term me with _ | c
  · exact hg
  · have := (hi.granted_term term me c hg).1
    omega

include h hv in
theorem wp_stepDown {newTerm : Nat} (hle : node.log.currentTerm ≤ newTerm)
    (hrole : node.log.currentTerm = newTerm → node.role = .Candidate) :
    (raftLogic me start).Wp (stepDown newTerm)
      (fun _ node' es' a' => Handled me start node es a node' es' a' ∧ node'.role = .Follower ∧
        node'.log.currentTerm = newTerm ∧ node'.log.entries = node.log.entries) node es a := by
  -- a leader's clients are answered last, whatever was written before
  have hdrop : ∀ {node' : Node size Payload Handle} {es' a'},
      Handled me start node es a node' es' a' → node'.role = .Follower →
      node'.log.currentTerm = newTerm → node'.log.entries = node.log.entries →
      (raftLogic me start).Wp
        (Program.when (node.role = .Leader) (dropPending 301 "LeaderStepDown"))
        (fun _ node' es' a' => Handled me start node es a node' es' a' ∧ node'.role = .Follower ∧
          node'.log.currentTerm = newTerm ∧ node'.log.entries = node.log.entries) node' es' a' := by
    intro node' es' a' hh hf ht he
    apply Wp.when
    · intro _
      apply Wp.get_bind
      apply Wp.bind
      apply wp_replyAll hh.working
      intro es'' hw
      apply Wp.modify
      refine ⟨⟨hw, ⟨hh.volatile.commit_le, hh.volatile.committed, hh.volatile.leaderId, ?_, ?_⟩,
        hh.kept.trans (.of_role rfl rfl rfl le_rfl rfl), hh.grows⟩, hf, ht, he⟩
      · exact fun hc => nomatch hf.symm.trans hc
      · exact fun hl => nomatch hf.symm.trans hl
    · exact fun _ => ⟨hh, hf, ht, he⟩
  apply Wp.get_bind
  apply Wp.bind
  apply Wp.assert (absurd hle)
  intro _
  apply Wp.bind
  apply Wp.modify
  apply Wp.bind
  apply Wp.ite
  · intro hlt
    have hterm : a.term me < newTerm := by
      rw [h.rel.term]
      exact hlt
    -- two writes: a crash between them leaves the new term with the old vote on disk
    apply Wp.bind
    apply Wp.get_bind
    apply wp_writeLog h (a.advance me newTerm) (.one (.advance hterm)) (h.rel.advance h.inv hlt)
    intro es₁ hw₁
    apply Wp.bind
    apply Wp.get_bind
    apply wp_writeLog hw₁ _ (Moves.refl me _) (hw₁.rel.forget (granted_advance h.inv hterm))
    intro es₂ hw₂
    apply Wp.modify
    have hstep : Step term IsMajority start.supply me a (a.advance me newTerm) :=
      .advance hterm
    have hgrow := Step.grows h.inv hstep
    refine hdrop ⟨hw₂, ⟨hv.commit_le, hv.committed.mono hgrow hle, ?_, ?_, ?_⟩,
      ⟨rfl, hle, ?_, ?_, le_rfl, fun _ hm => hm⟩, hgrow⟩ rfl rfl rfl
    · exact fun _ hid => nomatch hid
    · exact fun hc => nomatch hc
    · exact fun hl => nomatch hl
    · intro heq
      exact absurd heq (Nat.ne_of_gt hlt)
    · intro heq
      exact absurd heq (Nat.ne_of_gt hlt)
  · intro hnlt
    have heq : node.log.currentTerm = newTerm := by omega
    apply Wp.assert (fun hn => absurd (hrole heq) hn)
    intro hcand
    refine hdrop ⟨h, ⟨hv.commit_le, hv.committed, hv.leaderId, ?_, ?_⟩,
      ⟨rfl, le_rfl, ?_, ?_, le_rfl, fun _ hm => hm⟩, Grows.refl a⟩ rfl heq rfl
    · exact fun hc => nomatch hc
    · exact fun hl => nomatch hl
    · exact fun _ hl => nomatch hcand.symm.trans hl
    · exact fun _ _ => .inr hcand

include h hv in
theorem wp_leadershipTimeout :
    (raftLogic me start).Wp leadershipTimeout
      (fun _ => Handled me start node es a) node es a := by
  apply Wp.get_bind
  apply Wp.when
  · intro _
    apply (wp_stepDown h hv (Nat.le_succ _) (fun heq => absurd heq (by omega))).mono
    exact fun _ _ _ _ hp => hp.1
  · exact fun _ => Handled.refl h hv

theorem LogRel.setVoteFor (h : LogRel me log a) (hg : Grows a a')
    (ht : a'.term me = a.term me) (hl : a'.log me = a.log me)
    (hgr : a'.granted log.currentTerm me = some c) : LogRel me (log.setVoteFor (some c)) a' where
  whole := ⟨h.whole.firstIndex_eq, h.whole.numbered⟩
  term := ht.trans h.term
  entries := hl.trans h.entries
  vote c' hc' := by
    have heq : a'.granted log.currentTerm me = some c' := hc'
    rw [hgr] at heq
    exact heq
  votes t c' hm := by
    have hm' : (t, c') ∈ log.votes ∨ (t, c') = (log.currentTerm, c) := by
      simpa [Log.setVoteFor] using hm
    rcases hm' with ho | hn
    · exact hg.granted t me c' (h.votes t c' ho)
    · cases hn
      exact hgr

include h hv in
theorem wp_electionTimeout :
    (raftLogic me start).Wp (electionTimeout me)
      (fun _ => Handled me start node es a) node es a := by
  apply Wp.get_bind
  apply Wp.when
  · intro hrole
    have hterm : a.term me < node.log.currentTerm + 1 := by
      rw [h.rel.term]
      exact Nat.lt_succ_self _
    have hadv : Step term IsMajority start.supply me a
        (a.advance me (node.log.currentTerm + 1)) := .advance hterm
    have hinv₁ : GhostInv (a.advance me (node.log.currentTerm + 1)) := h.inv.advance hterm
    have hself : (a.advance me (node.log.currentTerm + 1)).term me = node.log.currentTerm + 1 :=
      update_self ..
    have hnew : a.cand (node.log.currentTerm + 1) me = none := by
      rcases hc : a.cand (node.log.currentTerm + 1) me with _ | log
      · rfl
      · have hle := (h.inv.cand_term _ _ _ hc).1
        omega
    -- the node stands with the log it has, all of it from earlier terms
    have hstan : Step term IsMajority start.supply me
      (a.advance me (node.log.currentTerm + 1))
        ((a.advance me (node.log.currentTerm + 1)).stand me) := by
      refine Step.stand ?_ ?_ ?_
      · rw [hself]
        exact granted_advance h.inv hterm
      · rw [hself]
        exact hnew
      · intro e he
        rw [hself]
        exact lt_of_le_of_lt (h.inv.log_term me e he) hterm
    apply Wp.bind
    apply Wp.modify
    apply Wp.bind
    apply Wp.get_bind
    apply wp_writeLog h _ (.one (.advance hterm)) (h.rel.advance h.inv (Nat.lt_succ_self _))
    intro es₁ hw₁
    apply Wp.bind
    apply Wp.get_bind
    have hgr : ((a.advance me (node.log.currentTerm + 1)).stand me).granted
        (node.log.currentTerm + 1) me = some me := by
      have hg := (a.advance me (node.log.currentTerm + 1)).stand_granted me
      rwa [hself] at hg
    apply wp_writeLog hw₁ _ (.one hstan) (hw₁.rel.setVoteFor (Step.grows hinv₁ hstan) rfl rfl hgr)
    intro es₂ hw₂
    apply Wp.modify
    have hgrow : Grows a ((a.advance me (node.log.currentTerm + 1)).stand me) :=
      (Step.grows h.inv hadv).trans (Step.grows hinv₁ hstan)
    refine ⟨hw₂, ⟨hv.commit_le, hv.committed.mono hgrow (Nat.le_succ _), ?_, ?_, ?_⟩,
      ⟨rfl, Nat.le_succ _, ?_, ?_, le_rfl, fun _ hm => hm⟩, hgrow⟩
    · exact fun _ hid => nomatch hid
    · intro _
      refine ⟨?_, hgr, ?_, fun _ _ hvote => nomatch hvote⟩
      · have hc := (a.advance me (node.log.currentTerm + 1)).stand_cand me
        rw [hself] at hc
        exact hc.trans (congrArg some h.rel.entries)
      · intro base hel
        have hcand := h.inv.elected_cand (node.log.currentTerm + 1) me base hel
        rw [hnew] at hcand
        cases hcand
    · exact fun hl => nomatch hl
    · exact fun heq => absurd heq (Nat.succ_ne_self _)
    · exact fun heq => absurd heq (Nat.succ_ne_self _)
  · exact fun _ => Handled.refl h hv

def Node.withEntries (node : Node size Payload Handle) (entries : List (LogEntry Payload)) :
    Node size Payload Handle :=
  { node with log := { node.log with entries := node.log.entries ++ entries } }

/-- Entries that fit are all written. `P` is what each single write keeps. -/
theorem wp_appendAll {P : Log size Payload → Ghost size Payload → Prop}
    (entries : List (LogEntry Payload)) (hnum : Log.IsNumbered (node.log.entries ++ entries))
    (h : Working me start node.log es a) (hP : P node.log a)
    (hstep : ∀ log a e, e ∈ entries → GhostInv a → LogRel me log a → P log a →
      log.entries ++ [e] <+: node.log.entries ++ entries →
      ∃ a', Moves me start.supply a a' ∧ LogRel me { log with entries := log.entries ++ [e] } a' ∧
        P { log with entries := log.entries ++ [e] } a') :
    (raftLogic me start).Wp (appendAll entries)
      (fun ok node' es' a' => ok = true ∧ node' = node.withEntries entries ∧
        Working me start node'.log es' a' ∧ P node'.log a')
      node es a := by
  induction entries generalizing node es a with
  | nil =>
    apply Wp.pure
    have hnode : node = node.withEntries [] := by
      simp [Node.withEntries]
    exact ⟨rfl, hnode, h, hP⟩
  | cons e entries ih =>
    have hidx : e.index = node.log.entries.length + 1 :=
      hnum node.log.entries.length e (by simp)
    have hpre : node.log.entries ++ [e] <+: node.log.entries ++ e :: entries :=
      ⟨entries, by simp⟩
    rcases hstep node.log a e mem_cons_self h.inv h.rel hP hpre with ⟨a', hmov, hrel, hP'⟩
    unfold appendAll
    apply Wp.get_bind
    rw [h.rel.whole.appendEntry_eq hidx]
    apply Wp.bind
    apply wp_writeLog h a' hmov hrel
    intro es' hw
    have hasc : node.log.entries ++ [e] ++ entries = node.log.entries ++ e :: entries := by
      simp
    refine (ih (by rwa [hasc]) hw hP' ?_).mono ?_
    · intro log b x hx hinv hrel hlog hle
      rw [hasc] at hle
      exact hstep log b x (mem_cons_of_mem e hx) hinv hrel hlog hle
    · intro ok node' es'' a'' hpost
      rcases hpost with ⟨hok, rfl, hw', hP''⟩
      have hnode : Node.withEntries
          { node with log := { node.log with entries := node.log.entries ++ [e] } } entries =
          node.withEntries (e :: entries) := by
        simp [Node.withEntries]
      rw [hnode] at hw' hP'' ⊢
      exact ⟨hok, rfl, hw', hP''⟩

/-- The abstract log of a leader, after the changes `Grows` since `a₀`. -/
structure Leads (me : Fin size) (a₀ : Ghost size Payload) (log : Log size Payload)
    (a : Ghost size Payload) : Prop where
  grows : Grows a₀ a
  elected : ∃ base, a.elected log.currentTerm = some (me, base)
  leaderLog : a.leaderLog log.currentTerm = log.entries

theorem Leads.append {a₀ : Ghost size Payload} {log : Log size Payload} {e : LogEntry Payload}
    (hi : GhostInv a) (hr : LogRel me log a) (h : Leads me a₀ log a)
    (ht : e.term = log.currentTerm) (hidx : e.index = log.entries.length + 1)
    (hsup : ∀ base own, a.elected log.currentTerm = some (me, base) →
      log.entries = base ++ own → start.supply base own e) :
    ∃ a', Moves me start.supply a a' ∧ LogRel me { log with entries := log.entries ++ [e] } a' ∧
      Leads me a₀ { log with entries := log.entries ++ [e] } a' := by
  rcases h.elected with ⟨base, hel⟩
  have he : a.elected (a.term me) = some (me, base) := by rw [hr.term, hel]
  have hl : a.log me = a.leaderLog (a.term me) := by
    rw [hr.term, h.leaderLog, hr.entries]
  rcases hi.leader_base _ _ _ hel with ⟨own, ho⟩
  rw [h.leaderLog] at ho
  have hs : Step term IsMajority start.supply me a (a.append me e) :=
    .append he hl (by rw [hr.term, ht])
      (by rw [hr.term, h.leaderLog, ho]) (hsup base own hel ho.symm)
  refine ⟨a.append me e, .one hs, ⟨⟨hr.whole.firstIndex_eq, ?_⟩, hr.term, ?_, hr.vote,
    hr.votes⟩, ⟨h.grows.trans (Step.grows hi hs), ⟨base, hel⟩, ?_⟩⟩
  · exact hr.whole.numbered.concat hidx
  · show update a.log me (a.log me ++ [e]) me = log.entries ++ [e]
    rw [update_self, hr.entries]
  · show update a.leaderLog (a.term me) (a.log me ++ [e]) log.currentTerm = log.entries ++ [e]
    rw [hr.term, update_self, hr.entries]

theorem wp_appendAll_leader (entries : List (LogEntry Payload))
    (hnum : Log.IsNumbered (node.log.entries ++ entries))
    (hterm : ∀ e ∈ entries, e.term = node.log.currentTerm)
    (h : Working me start node.log es a) {base own : List (LogEntry Payload)}
    (helec : a.elected node.log.currentTerm = some (me, base))
    (hlog : a.leaderLog node.log.currentTerm = node.log.entries)
    (hown : node.log.entries = base ++ own)
    (hsup : ∀ p e, p ++ [e] <+: entries → start.supply base (own ++ p) e) :
    (raftLogic me start).Wp (appendAll entries)
      (fun ok node' es' a' => ok = true ∧ node' = node.withEntries entries ∧
        Working me start node'.log es' a' ∧ Leads me a node'.log a')
      node es a := by
  refine (wp_appendAll (P := fun log a' => Leads me a log a' ∧
    log.currentTerm = node.log.currentTerm ∧ node.log.entries <+: log.entries) entries hnum h
    ⟨⟨Grows.refl a, ⟨base, helec⟩, hlog⟩, rfl, prefix_rfl⟩ ?_).mono ?_
  · intro log b e he hinv hrel hP hpre
    rcases hP with ⟨hlead, hcur, written, hwr⟩
    have hidx : e.index = log.entries.length + 1 :=
      (hnum.of_isPrefix hpre) log.entries.length e (by simp)
    have hb : b.elected log.currentTerm = some (me, base) := by
      rw [hcur]
      exact hlead.grows.elected _ _ helec
    have hnext : written ++ [e] <+: entries := by
      rw [← hwr, append_assoc] at hpre
      exact (prefix_append_right_inj _).mp hpre
    have hmay : ∀ base' own', b.elected log.currentTerm = some (me, base') →
        log.entries = base' ++ own' → start.supply base' own' e := by
      intro base' own' hel' hown'
      rw [hb] at hel'
      cases hel'
      rw [← hwr, hown, append_assoc] at hown'
      rw [← append_cancel_left hown']
      exact hsup written e hnext
    rcases hlead.append hinv hrel (by rw [hterm e he, hcur]) hidx hmay with ⟨b', hm, hr, hl⟩
    exact ⟨b', hm, hr, hl, hcur, ⟨written ++ [e], by simp [← hwr]⟩⟩
  · intro ok node' es' a' hpost
    rcases hpost with ⟨hok, hnode, hw, hP⟩
    exact ⟨hok, hnode, hw, hP.1⟩

theorem mem_others : id ∈ others me ↔ id ≠ me := by
  simp [others]

theorem nodup_others : (others me).Nodup :=
  (nodup_finRange size).filter _

theorem length_others : (others me).length + 1 = size := by
  have hcons : (me :: others me).Nodup :=
    nodup_cons.mpr ⟨fun hm => mem_others.mp hm rfl, nodup_others⟩
  have hu : (me :: others me).toFinset = Finset.univ := by
    ext id
    by_cases hid : id = me
    · simp [hid]
    · simp [hid, mem_others]
  have hc := toFinset_card_of_nodup hcons
  rw [hu, Finset.card_univ, Fintype.card_fin, length_cons] at hc
  exact hc.symm

theorem exists_finset_others (me : Fin size) (p : Fin size → Bool) :
    ∃ voters : Finset (Fin size), voters.card = 1 + (others me).countP p ∧
      ∀ id ∈ voters, id = me ∨ (id ≠ me ∧ p id = true) := by
  refine ⟨insert me ((others me).filter p).toFinset, ?_, ?_⟩
  · have hn : me ∉ ((others me).filter p).toFinset := by
      simp [mem_others]
    rw [Finset.card_insert_of_notMem hn,
      toFinset_card_of_nodup (nodup_others.filter p), countP_eq_length_filter]
    omega
  · intro id hid
    rcases Finset.mem_insert.mp hid with heq | hm
    · exact .inl heq
    · have hm' := mem_filter.mp (mem_toFinset.mp hm)
      exact .inr ⟨mem_others.mp hm'.1, hm'.2⟩

/-- A candidate that becomes leader has the votes of a majority, its own among them. -/
theorem exists_voters_of_becomeLeader {self : Fin size} {noop : Payload}
    {after : Node size Payload Handle} (hc : node.role = .Candidate)
    (hr : (becomeLeader self noop).RunsTo node es () after) (hl : after.role = .Leader) :
    ∃ voters : Finset (Fin size), IsMajority voters ∧
      ∀ id ∈ voters, id = self ∨ (node.peers id).haveVote = true := by
  by_cases ha : getMajorityNumber ((others self).length + 1) ≤
      1 + (others self).countP fun id => (node.peers id).haveVote
  · obtain ⟨voters, hcard, hm⟩ := exists_finset_others self fun id => (node.peers id).haveVote
    refine ⟨voters, ?_, fun id hid => (hm id hid).imp_right And.right⟩
    unfold IsMajority
    rw [hcard]
    rwa [length_others] at ha
  · -- it stays a candidate
    have hw := hr.of_get
    have hn : ¬ (node.role = .Candidate ∧ getMajorityNumber ((others self).length + 1) ≤
          1 + (others self).countP fun id => (node.peers id).haveVote) :=
      fun h => ha h.2
    dsimp only at hw
    rw [Program.when, if_neg hn] at hw
    cases hw
    rw [hc] at hl
    cases hl

theorem CandidateRel.elect (supply : Supply Payload) (hinv : GhostInv a)
    (hlog : LogRel me node.log a) (hcand : CandidateRel me node a)
    (hvot : getMajorityNumber ((others me).length + 1) ≤
      1 + (others me).countP fun id => (node.peers id).haveVote) :
    Step term IsMajority supply me a (a.elect me) := by
  rcases exists_finset_others me (fun id => (node.peers id).haveVote) with
    ⟨voters, hcard, hmem⟩
  have hquo : IsMajority voters := by
    unfold IsMajority
    rw [hcard]
    rwa [length_others] at hvot
  have hgr : ∀ m ∈ voters, a.granted (a.term me) m = some me := by
    intro m hm
    rw [hlog.term]
    rcases hmem m hm with rfl | ⟨hne, hvote⟩
    · exact hcand.self_vote
    · exact hcand.have_vote m hne hvote
  have hself : a.cand (a.term me) me = some (a.log me) := by
    rw [hlog.term, hlog.entries]
    exact hcand.cand
  have hnone : a.elected (a.term me) = none := by
    rcases hel : a.elected (a.term me) with _ | ⟨c, base⟩
    · rfl
    · -- a leader of this term would have votes of the same majority
      have hc := hinv.elected_eq_of_votes majorities_meet hquo hgr hel
      rw [hc, hlog.term] at hel
      exact absurd hel (hcand.not_elected base)
  exact .elect hquo hgr hself hnone

include h hv in
theorem wp_becomeLeader (noop : Payload)
    (hsup : ∀ base e, e.noop = true → e.index = base.length + 1 → start.supply base [] e) :
    (raftLogic me start).Wp (becomeLeader me noop)
      (fun _ => Handled me start node es a) node es a := by
  apply Wp.get_bind
  apply Wp.when
  · intro hcond
    have hstep := (hv.candidate hcond.1).elect start.supply h.inv h.rel hcond.2
    have hgrow := Step.grows h.inv hstep
    have hel : (a.elect me).elected node.log.currentTerm = some (me, node.log.entries) := by
      rw [← h.rel.term, ← h.rel.entries]
      exact update_self ..
    have hlead : (a.elect me).leaderLog node.log.currentTerm = node.log.entries := by
      rw [← h.rel.term, ← h.rel.entries]
      exact update_self ..
    have hw : Working me start node.lead.log es (a.elect me) :=
      h.moves (.one hstep) ⟨h.rel.whole, h.rel.term, h.rel.entries, h.rel.vote, h.rel.votes⟩
    have hlast := h.rel.whole.lastLogIndex_eq
    apply Wp.bind
    apply Wp.modify
    apply Wp.bind
    apply Wp.ghost (a.elect me) (Moves.one hstep)
    refine (wp_appendAll_leader _ ?_ ?_ hw hel hlead (append_nil _).symm ?_).mono ?_
    · refine h.rel.whole.numbered.concat ?_
      rw [hlast]
    · intro e he
      rw [mem_singleton.mp he]
      rfl
    · intro p e hp
      have hnil : p = [] ∧ e = ⟨node.log.currentTerm, node.log.lastLogIndex + 1, true, noop⟩ := by
        simpa using concat_prefix_concat (show p ++ [e] <+: [] ++ [_] from hp)
      rw [hnil.1, hnil.2]
      exact hsup _ _ rfl (by simp [hlast])
    · intro ok node' es' a' hpost
      rcases hpost with ⟨hok, rfl, hw', hl⟩
      apply Wp.assert (absurd hok)
      intro _
      have hgrow' := hgrow.trans hl.grows
      refine ⟨hw', ⟨?_, ?_, ?_, ?_, ?_⟩, ⟨rfl, le_rfl, fun _ _ => rfl, fun _ _ => .inr hcond.1,
        le_rfl, fun _ hm => hm⟩, hgrow'⟩
      · have := hv.commit_le
        simp [Node.withEntries, Node.lead]
        omega
      · refine (hv.committed.mono hgrow' le_rfl).of_isPrefix ?_
        show (node.log.entries ++ _).take node.commitIndex <+: _
        rw [take_append_of_le_length hv.commit_le]
      · intro id hid
        rcases hv.leaderId id hid with ⟨base, hb⟩
        exact ⟨base, hgrow'.elected _ _ hb⟩
      · exact fun hc => nomatch hc
      · intro _
        refine ⟨hl.elected, hl.leaderLog, fun _ _ => Nat.zero_le _, ?_, ?_⟩
        · exact fun _ => Nat.le_add_left 1 _
        · intro id _
          simp [Node.withEntries, Node.lead, hlast]
  · exact fun _ => Handled.refl h hv

include h hv in
theorem wp_requestVote (due : Fin size → Bool)
    (hm : ∀ message, IsCall me node message → start.maySend message) :
    (raftLogic me start).Wp (requestVote me due) (fun _ => Calling me start node)
      node es a := by
  have hst := Calling.refl h hv
  apply Wp.get_bind
  apply Wp.when
  · intro hrole
    apply Wp.forEach (Calling me start node) ?_ hst
    intro id hid node' es' a' hcall
    have hc := hcall.volatile.candidate (hcall.role_eq.trans hrole)
    have hr := hcall.working.rel
    apply Wp.get_bind
    apply Wp.when
    · intro _
      apply Wp.get_bind
      apply Wp.bind
      have hl := hr.whole.lastLogIndex_eq
      apply wp_termOfLogEntryAt hr hl.le
      refine hcall.send ⟨(mem_others.mp hid).symm, rfl, node'.log.entries, hc.cand,
        hl.symm, ?_⟩ (hm _ ⟨rfl, hcall.incarnation_eq, fun _ ht => nomatch ht⟩) rfl rfl rfl
      rw [hl, take_length]
    · exact fun _ => hcall
  · exact fun _ => hst

include h hv in
theorem wp_handleRequestVoteResponse {response : RequestVoteResponse size}
    (hb : BodyRel source me a (.requestVoteResponse response)) :
    (raftLogic me start).Wp (handleRequestVoteResponse response)
      (fun _ => Handled me start node es a) node es a := by
  apply Wp.get_bind
  apply Wp.when
  · intro hc
    apply Wp.ite
    · intro hlt
      apply (wp_stepDown h hv hlt.le (fun heq => absurd heq (Nat.ne_of_lt hlt))).mono
      exact fun _ _ _ _ hp => hp.1
    · intro _
      apply Wp.modify
      refine ⟨h, ?_, .of_role rfl rfl rfl le_rfl rfl, Grows.refl a⟩
      apply hv.setPeer
      · intro hr hne hvote
        rcases (Bool.or_eq_true _ _).mp hvote with ho | hn
        · exact (hv.candidate hr).have_vote _ hne ho
        · rw [hc.1, hb.1]
          exact hb.2 hn
      · intro hr
        have hl := hv.leader hr
        exact ⟨hl.next_pos _, fun hne => ⟨hl.match_le _ hne, hl.next_le _ hne⟩⟩
  · exact fun _ => Handled.refl h hv

theorem LogRel.free (h : LogRel me log a) (hv : log.voteFor = none ∨ log.voteFor = some c) :
    a.granted log.currentTerm me = none ∨ a.granted log.currentTerm me = some c := by
  rcases hg : a.granted log.currentTerm me with _ | c'
  · exact .inl rfl
  · have hd := h.vote c' hg
    rcases hv with hn | hs
    · rw [hd] at hn
      cases hn
    · rw [hd] at hs
      exact .inr hs

include h hv in
theorem wp_decideVote (hbody : BodyRel source me a (.requestVoteRequest request))
    (hterm : node.log.currentTerm = request.term) :
    (raftLogic me start).Wp (decideVote request)
      (fun granted node' es' a' => Handled me start node es a node' es' a' ∧
        (granted = true → a'.granted request.term me = some source)) node es a := by
  rcases hbody with ⟨hid, log, hcand, hlen, hlast⟩
  have hlog := h.rel.whole.lastLogIndex_eq
  apply Wp.get_bind
  apply Wp.bind
  apply wp_termOfLogEntryAt h.rel hlog.le
  apply Wp.ite
  · intro hcond
    have hup : UpToDate term log (a.log me) := by
      have hok := hcond.1
      rw [hlog, take_length, ← hlen, ← hlast] at hok
      unfold UpToDate
      rw [h.rel.entries]
      rcases hok with hlt | ⟨heq, hle⟩
      · exact .inl hlt
      · exact .inr ⟨heq.symm, hle⟩
    have hcand' : a.cand (a.term me) source = some log := by rw [h.rel.term, hterm, hcand]
    have hfree := h.rel.free hcond.2
    rw [hid, ← h.rel.term] at hfree
    have hstep : Step term IsMajority start.supply me a (a.grant me source) :=
      .grant hcand' hfree hup
    have hgr : (a.grant me source).granted node.log.currentTerm me = some source := by
      rw [← h.rel.term]
      exact a.grant_granted me source
    have hgrow := Step.grows h.inv hstep
    apply Wp.bind
    apply Wp.get_bind
    rw [hid]
    apply wp_writeLog h _ (.one hstep) (h.rel.setVoteFor hgrow rfl rfl hgr)
    intro es' hw
    apply Wp.pure
    refine ⟨⟨hw, ?_, .of_role rfl rfl rfl le_rfl rfl, hgrow⟩, fun _ => hterm ▸ hgr⟩
    have hv' := hv.mono ⟨hgrow, fun _ _ hel => hel, fun _ _ _ => rfl⟩
    exact { hv' with
      candidate := fun hr => { hv'.candidate hr with }
      leader := fun hr => { hv'.leader hr with } }
  · intro _
    apply Wp.pure
    exact ⟨Handled.refl h hv, fun hfls => nomatch hfls⟩

include h hv in
theorem wp_handleRequestVoteRequest (hbody : BodyRel source me a (.requestVoteRequest request)) :
    (raftLogic me start).Wp (handleRequestVoteRequest me request)
      (fun response node' es' a' => Handled me start node es a node' es' a' ∧
        ∀ r, response = some r → BodyRel me source a' (.requestVoteResponse r)) node es a := by
  apply Wp.get_bind
  apply Wp.ite
  · intro _
    apply Wp.pure
    exact ⟨Handled.refl h hv, fun _ hr => nomatch hr⟩
  · intro _
    apply Wp.ite
    · intro _
      apply Wp.pure
      refine ⟨Handled.refl h hv, ?_⟩
      intro r hr
      cases hr
      exact ⟨rfl, fun hfls => nomatch hfls⟩
    · intro hnlt
      -- both ways the node is in the term of the request when it decides
      have hdec : ∀ {node' es' a'}, Handled me start node es a node' es' a' →
          node'.log.currentTerm = request.term →
          (raftLogic me start).Wp
            (do let granted ← decideVote request
                pure (some ⟨request.term, granted, me, request.term⟩) :
              Handler size Payload Handle _)
            (fun response node' es' a' => Handled me start node es a node' es' a' ∧
              ∀ r, response = some r → BodyRel me source a' (.requestVoteResponse r))
            node' es' a' := by
        intro node' es' a' hh hterm
        have hbody' : BodyRel source me a' (.requestVoteRequest request) := by
          rcases hbody with ⟨hid, log, hcand, hrest⟩
          exact ⟨hid, log, hh.grows.cand _ _ _ hcand, hrest⟩
        apply Wp.bind
        apply (wp_decideVote hh.working hh.volatile hbody' hterm).mono
        intro granted node'' es'' a'' hpost
        apply Wp.pure
        refine ⟨hh.trans hpost.1, ?_⟩
        intro r hr
        cases hr
        exact ⟨rfl, hpost.2⟩
      apply Wp.bind
      apply Wp.when
      · intro hlt
        apply (wp_stepDown h hv hlt.le (fun heq => absurd heq (Nat.ne_of_lt hlt))).mono
        intro _ node' es' a' hpost
        exact hdec hpost.1 hpost.2.2.1
      · intro hnlt'
        exact hdec (Handled.refl h hv) (by omega)

end MySuperLedger.Raft
