import MySuperLedger.Raft.Frame

/-! # One vote in a term

A vote is only given in the current term, and only if none is recorded for it;
the record is cleared only when the term grows. So the votes of a node stay
apart by their terms, as long as the term does not go back.
-/

namespace MySuperLedger.Raft

open Effects

variable {size : Nat} {Payload Handle : Type}

/-- No vote is of a later term, and one of the current term is on record. -/
structure Log.VotesOnce (log : Log size Payload) : Prop where
  term_le : ∀ {term candidate}, (term, candidate) ∈ log.votes → term ≤ log.currentTerm
  voteFor_eq : ∀ {candidate}, (log.currentTerm, candidate) ∈ log.votes →
    log.voteFor = some candidate
  unique : ∀ {term candidate other}, (term, candidate) ∈ log.votes →
    (term, other) ∈ log.votes → candidate = other

namespace Log.VotesOnce

variable {log : Log size Payload}

section

variable (h : log.VotesOnce)
include h

theorem setCurrentTerm {term : Nat} (hle : log.currentTerm ≤ term) :
    (log.setCurrentTerm term).VotesOnce where
  term_le hm := (h.term_le hm).trans hle
  voteFor_eq {candidate} hm := by
    have hm' : (term, candidate) ∈ log.votes := hm
    have heq : term = log.currentTerm := Nat.le_antisymm (h.term_le hm') hle
    exact h.voteFor_eq (heq ▸ hm')
  unique := h.unique

theorem clearVote {term : Nat} (hlt : log.currentTerm < term) :
    ((log.setCurrentTerm term).setVoteFor none).VotesOnce := by
  have hv : ((log.setCurrentTerm term).setVoteFor none).votes = log.votes := by
    simp [Log.setVoteFor, Log.setCurrentTerm]
  refine ⟨fun hm => ?_, fun hm => ?_, fun hm ho => ?_⟩ <;> rw [hv] at hm
  · exact (h.term_le hm).trans hlt.le
  · exact absurd (h.term_le hm) hlt.not_ge
  · exact h.unique hm (hv ▸ ho)

theorem setVoteFor {self : Fin size}
    (hf : ∀ candidate, (log.currentTerm, candidate) ∈ log.votes → candidate = self) :
    (log.setVoteFor (some self)).VotesOnce := by
  have hv : ∀ term candidate, (term, candidate) ∈ (log.setVoteFor (some self)).votes ↔
      (term, candidate) ∈ log.votes ∨ term = log.currentTerm ∧ candidate = self := by
    simp [Log.setVoteFor]
  refine ⟨fun hm => ?_, fun hm => ?_, fun hm hoth => ?_⟩
  · rcases (hv _ _).mp hm with ho | ⟨rfl, -⟩
    · exact h.term_le ho
    · exact le_rfl
  · rcases (hv _ _).mp hm with ho | ⟨-, rfl⟩
    · rw [hf _ ho]
      rfl
    · rfl
  · rcases (hv _ _).mp hm with ho | ⟨rfl, rfl⟩ <;> rcases (hv _ _).mp hoth with ho' | ⟨ht, rfl⟩
    · exact h.unique ho ho'
    · exact hf _ (ht ▸ ho)
    · exact (hf _ ho').symm
    · rfl

theorem congr {after : Log size Payload}
    (ht : after.currentTerm = log.currentTerm) (hvote : after.voteFor = log.voteFor)
    (hv : after.votes = log.votes) : after.VotesOnce := by
  refine ⟨?_, ?_, ?_⟩ <;> simp only [ht, hvote, hv]
  exacts [h.term_le, h.voteFor_eq, h.unique]

theorem appendEntry {entry : LogEntry Payload} {after : Log size Payload}
    (happ : log.appendEntry entry = some after) : after.VotesOnce := by
  unfold Log.appendEntry at happ
  split at happ
  · cases happ
    exact h.congr rfl rfl rfl
  · cases happ

theorem truncateSuffix (lastIndexKept : Nat) : (log.truncateSuffix lastIndexKept).VotesOnce := by
  unfold Log.truncateSuffix
  split
  · exact h
  · exact h.congr rfl rfl rfl

end

end Log.VotesOnce

namespace Handler

open Program

instance composes_votesOnce :
    Composes (fun (node : Node size Payload Handle) (_ : List (Effect size Payload Handle))
      (node' : Node size Payload Handle) => node.log.VotesOnce → node'.log.VotesOnce) where
  refl _ h := h
  trans hfirst hsecond h := hsecond (hfirst h)

abbrev VotesOnce {α : Type} (m : Handler size Payload Handle α) : Prop :=
  Ensures (fun node _ node' => node.log.VotesOnce → node'.log.VotesOnce) m

theorem votesOnce_own {α : Type} {m : Handler size Payload Handle α} (h : KeepsOwn m) :
    VotesOnce m :=
  .of_keeps h fun node _ node' _ ho hv => by
    have hl : node'.log = node.log := congrArg Prod.fst ho
    exact hl ▸ hv

theorem votesOnce_modify {f : Node size Payload Handle → Node size Payload Handle}
    (hl : ∀ node, (f node).log = node.log) :
    VotesOnce (modify f : Handler size Payload Handle Unit) where
  run hr hv := by
    cases hr
    exact (hl _).symm ▸ hv

theorem votesOnce_replyAll (code : Nat) (message : String) (leaderId : Option (Fin size))
    (handles : List (Option Handle)) :
    VotesOnce (replyAll code message leaderId handles : Handler size Payload Handle Unit) where
  run hr := by
    obtain ⟨-, -, rfl⟩ := (runsTo_replyAll _ _ _ _ _).unique hr
    exact id

theorem votesOnce_stepDown (newTerm : Nat) :
    VotesOnce (stepDown newTerm : Handler size Payload Handle Unit) where
  run {node es _ node'} hr hv := by
    have hb := hr.of_get
    obtain ⟨_, _, node, _, ha, hc, rfl⟩ := hb.of_bind
    obtain ⟨-, rfl, rfl⟩ := ha.of_assert
    have hwr := hc.of_modify
    obtain ⟨_, _, middle, _, ht, hd, rfl⟩ := hwr.of_bind
    have hm : middle.log.VotesOnce := by
      split at ht
      · rename_i hlt
        cases ht
        exact hv.clearVote hlt
      · obtain ⟨_, rfl, rfl⟩ := ht.of_assert
        exact hv
    unfold Program.when at hd
    split at hd
    · obtain ⟨rfl, -, rfl⟩ := (runsTo_dropPending _ _ _).unique hd
      exact hm
    · cases hd
      exact hm

theorem votesOnce_decideVote (request : RequestVoteRequest size) :
    VotesOnce (decideVote request : Handler size Payload Handle Bool) where
  run {node es _ node'} hr hvot := by
    have hb := hr.of_get
    obtain ⟨_, _, node, _, ht, hd, rfl⟩ := hb.of_bind
    obtain ⟨rfl, rfl⟩ := of_termOfLogEntryAt ht
    split at hd
    · rename_i hg
      cases hd
      refine hvot.setVoteFor fun candidate hm => ?_
      have hv := hvot.voteFor_eq hm
      rcases hg.2 with hn | hs
      · rw [hn] at hv
        cases hv
      · rw [hs] at hv
        exact (Option.some.inj hv).symm
    · cases hd
      exact hvot

theorem basis_votesOnce :
    Basis (fun (node : Node size Payload Handle) (_ : List (Effect size Payload Handle))
      (node' : Node size Payload Handle) => node.log.VotesOnce → node'.log.VotesOnce) where
  own := votesOnce_own
  stepDown := votesOnce_stepDown
  appendEntry h hv := hv.appendEntry h
  truncateSuffix _ _ hv := hv.truncateSuffix _
  followCommitIndex _ _ := id
  decideVote := votesOnce_decideVote

theorem votesOnce_electionTimeout (self : Fin size) :
    VotesOnce (electionTimeout self : Handler size Payload Handle Unit) where
  run {node es _ node'} hr hv := by
    have hb := hr.of_get
    unfold Program.when at hb
    split at hb
    · cases hb
      refine (hv.setCurrentTerm (Nat.le_succ _)).setVoteFor fun candidate hm => ?_
      exact absurd (hv.term_le hm) (Nat.not_succ_le_self _)
    · cases hb
      exact hv

theorem votesOnce_op (config : Config Payload) (self : Fin size) (op : Op size Payload) :
    VotesOnce (op.run config self : Handler size Payload Handle Unit) := by
  cases op with
  | appendEntries due room => exact votesOnce_own (keepsOwn_appendEntries self config due room)
  | requestVote due => exact votesOnce_own (keepsOwn_requestVote self due)
  | receive message => exact basis_votesOnce.receive self config message
  | callFailed id isAppendEntries => exact votesOnce_own (keepsOwn_callFailed id isAppendEntries)
  | receiveClientRequests =>
    refine .bind .get fun node => ?_
    cases node.clientRequestsQueue with
    | nil => exact .pure ()
    | cons requests queue =>
      refine .bind (votesOnce_modify fun _ => rfl) fun _ =>
        .bind .get fun _ => .ite ?_ (votesOnce_replyAll _ _ _ _)
      exact .bind (votesOnce_modify fun _ => rfl) fun _ =>
        .bind (ensures_appendAll basis_votesOnce.appendEntry _) fun _ => .pure ()
  | advanceCommitIndex =>
    refine .bind .get fun _ => .when (.bind (votesOnce_own (keepsOwn_termOfLogEntryAt _))
      fun _ => .when (.bind (votesOnce_modify fun _ => rfl) fun _ => .bind (.assert _ _) fun _ =>
        .bind (votesOnce_replyAll _ _ _ _) fun _ => votesOnce_modify fun _ => rfl))
  | becomeLeader noop =>
    exact .bind .get fun _ => .when (.bind (votesOnce_modify fun _ => rfl) fun _ =>
      .bind (ensures_appendAll basis_votesOnce.appendEntry _) fun _ => .assert _ _)
  | electionTimeout => exact votesOnce_electionTimeout self
  | leadershipTimeout => exact basis_votesOnce.leadershipTimeout

end Handler

end MySuperLedger.Raft
