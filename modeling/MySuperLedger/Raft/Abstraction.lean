import Mathlib.Data.Fintype.Card
import Mathlib.Data.List.ReduceOption
import MySuperLedger.Consensus.Safety
import MySuperLedger.Raft.Core

/-! # What a node and its messages mean

The state of a node, its log on disk and a message on the wire, each related to
the abstract protocol. The log on disk is related after every single write, so
that the relation holds wherever the process stops; the volatile state is related
between handlers only.
-/

namespace MySuperLedger.Raft

open Consensus Effects List Handler NodeRun

variable {size : Nat} {Payload Handle : Type}

abbrev Ghost (size : Nat) (Payload : Type) : Type := State (Fin size) (LogEntry Payload)

/-- As many nodes as it takes to elect a leader. -/
def IsMajority (voters : Finset (Fin size)) : Prop :=
  getMajorityNumber size ≤ voters.card

theorem majorities_meet (v w : Finset (Fin size)) (hv : IsMajority v) (hw : IsMajority w) :
    ∃ n, n ∈ v ∧ n ∈ w := by
  unfold IsMajority getMajorityNumber at hv hw
  have hc : (Finset.univ : Finset (Fin size)).card < v.card + w.card := by
    rw [Finset.card_univ, Fintype.card_fin]
    omega
  rcases Finset.inter_nonempty_of_card_lt_card_add_card (Finset.subset_univ v)
    (Finset.subset_univ w) hc with ⟨n, hn⟩
  exact ⟨n, Finset.mem_inter.mp hn⟩

abbrev GhostInv (a : Ghost size Payload) : Prop := Inv LogEntry.term IsMajority a

/-- What a leader may write: see `Consensus.Step`. -/
abbrev Supply (Payload : Type) : Type :=
  List (LogEntry Payload) → List (LogEntry Payload) → LogEntry Payload → Prop

abbrev Moves (me : Fin size) (supply : Supply Payload) (a a' : Ghost size Payload) : Prop :=
  NodeRun LogEntry.term IsMajority supply me a a'

variable {supply : Supply Payload} {me : Fin size}

theorem Moves.refl (me : Fin size) (a : Ghost size Payload) : Moves me supply a a :=
  Relation.ReflTransGen.refl

variable {a a' : Ghost size Payload}

theorem Moves.one (h : Step LogEntry.term IsMajority supply me a a') : Moves me supply a a' :=
  Relation.ReflTransGen.single h

/-- `log` is committed, by a leader of term `bound` or before. -/
abbrev IsCommitted (a : Ghost size Payload) (bound : Nat) (log : List (LogEntry Payload)) : Prop :=
  Committed LogEntry.term IsMajority a bound log

structure LogRel (me : Fin size) (log : Log size Payload) (a : Ghost size Payload) : Prop where
  whole : log.IsWhole
  term : a.term me = log.currentTerm
  entries : a.log me = log.entries
  /-- The vote on disk may be older than the term, but never misses a vote of the term. -/
  vote : ∀ c, a.granted log.currentTerm me = some c → log.voteFor = some c
  votes : ∀ t c, (t, c) ∈ log.votes → a.granted t me = some c

/-- A batch of the leader's log behind `before`, and what of it is committed. -/
structure BatchRel (request : AppendEntriesRequest size Payload)
    (before : List (LogEntry Payload)) (a : Ghost size Payload) : Prop where
  length : before.length = request.prevLogIndex
  term : lastTerm LogEntry.term before = request.prevLogTerm
  numbered : Log.IsNumbered (before ++ request.entries)
  leader : before ++ request.entries <+: a.leaderLog request.term
  commit_le : request.commitIndex ≤ (before ++ request.entries).length
  committed : IsCommitted a request.term ((before ++ request.entries).take request.commitIndex)

def BodyRel (source target : Fin size) (a : Ghost size Payload) : Body size Payload → Prop
  | .appendEntriesRequest request =>
    request.leaderId = source ∧ (∃ base, a.elected request.term = some (source, base)) ∧
      ∃ before, BatchRel request before a
  | .appendEntriesResponse response =>
    response.id = source ∧ (∃ base, a.elected response.savedTerm = some (target, base)) ∧
      (response.success = true → response.matchIndex ≤ (a.acked response.savedTerm source).length)
  | .requestVoteRequest request =>
    request.candidateId = source ∧
      ∃ log, a.cand request.term source = some log ∧ log.length = request.lastLogIndex ∧
        lastTerm LogEntry.term log = request.lastLogTerm
  | .requestVoteResponse response =>
    response.id = source ∧
      (response.voteGranted = true → a.granted response.savedTerm source = some target)

structure MessageRel (message : Message size Payload) (a : Ghost size Payload) : Prop where
  ne : message.source ≠ message.target
  body : BodyRel message.source message.target a message.body

theorem BatchRel.mono {request : AppendEntriesRequest size Payload}
    {before : List (LogEntry Payload)} (h : BatchRel request before a) (hg : Grows a a') :
    BatchRel request before a' :=
  { h with
    leader := h.leader.trans (hg.leaderLog _)
    committed := h.committed.mono hg le_rfl }

theorem MessageRel.mono {message : Message size Payload} (h : MessageRel message a)
    (hgrow : Grows a a') : MessageRel message a' := by
  refine ⟨h.ne, ?_⟩
  have hb := h.body
  cases hm : message.body with
  | appendEntriesRequest request =>
    rw [hm] at hb
    rcases hb with ⟨hid, ⟨base, hel⟩, before, hbat⟩
    exact ⟨hid, ⟨base, hgrow.elected _ _ hel⟩, before, hbat.mono hgrow⟩
  | appendEntriesResponse response =>
    rw [hm] at hb
    rcases hb with ⟨hid, ⟨base, hel⟩, hmat⟩
    exact ⟨hid, ⟨base, hgrow.elected _ _ hel⟩,
      fun hs => (hmat hs).trans (hgrow.acked _ _).length_le⟩
  | requestVoteRequest request =>
    rw [hm] at hb
    rcases hb with ⟨hid, log, hc, hl⟩
    exact ⟨hid, log, hgrow.cand _ _ _ hc, hl⟩
  | requestVoteResponse response =>
    rw [hm] at hb
    exact ⟨hb.1, fun hg => hgrow.granted _ _ _ (hb.2 hg)⟩

structure CandidateRel (me : Fin size) (node : Node size Payload Handle)
    (a : Ghost size Payload) : Prop where
  cand : a.cand node.log.currentTerm me = some node.log.entries
  self_vote : a.granted node.log.currentTerm me = some me
  not_elected : ∀ base, a.elected node.log.currentTerm ≠ some (me, base)
  have_vote : ∀ id, id ≠ me → (node.peers id).haveVote = true →
    a.granted node.log.currentTerm id = some me

structure LeaderRel (me : Fin size) (node : Node size Payload Handle)
    (a : Ghost size Payload) : Prop where
  elected : ∃ base, a.elected node.log.currentTerm = some (me, base)
  log : a.leaderLog node.log.currentTerm = node.log.entries
  match_le : ∀ id, id ≠ me →
    (node.peers id).matchIndex ≤ (a.acked node.log.currentTerm id).length
  next_pos : ∀ id, 1 ≤ (node.peers id).nextIndex
  next_le : ∀ id, id ≠ me → (node.peers id).nextIndex ≤ node.log.entries.length + 1

/-- The volatile state, between handlers. -/
structure VolatileRel (me : Fin size) (node : Node size Payload Handle)
    (a : Ghost size Payload) : Prop where
  commit_le : node.commitIndex ≤ node.log.entries.length
  committed : IsCommitted a node.log.currentTerm (node.log.entries.take node.commitIndex)
  leaderId : ∀ id, node.leaderId = some id →
    ∃ base, a.elected node.log.currentTerm = some (id, base)
  candidate : node.role = .Candidate → CandidateRel me node a
  leader : node.role = .Leader → LeaderRel me node a

/-- Nothing the volatile state of node `me` relies on changes. -/
structure SameFor (me : Fin size) (a a' : Ghost size Payload) : Prop where
  grows : Grows a a'
  elected : ∀ t base, a'.elected t = some (me, base) → a.elected t = some (me, base)
  leaderLog : ∀ t base, a.elected t = some (me, base) → a'.leaderLog t = a.leaderLog t

theorem VolatileRel.mono {node : Node size Payload Handle} (h : VolatileRel me node a)
    (hs : SameFor me a a') : VolatileRel me node a' where
  commit_le := h.commit_le
  committed := h.committed.mono hs.grows le_rfl
  leaderId id hid := by
    rcases h.leaderId id hid with ⟨base, hel⟩
    exact ⟨base, hs.grows.elected _ _ hel⟩
  candidate hr := by
    have hc := h.candidate hr
    exact ⟨hs.grows.cand _ _ _ hc.cand, hs.grows.granted _ _ _ hc.self_vote,
      fun base hel => hc.not_elected base (hs.elected _ base hel),
      fun id hne hv => hs.grows.granted _ _ _ (hc.have_vote id hne hv)⟩
  leader hr := by
    have hl := h.leader hr
    rcases hl.elected with ⟨base, hel⟩
    exact ⟨⟨base, hs.grows.elected _ _ hel⟩, (hs.leaderLog _ base hel).trans hl.log,
      fun id hne => (hl.match_le id hne).trans (hs.grows.acked _ _).length_le, hl.next_pos,
      hl.next_le⟩

theorem VolatileRel.setQueue {node : Node size Payload Handle} (h : VolatileRel me node a)
    (queue : List (List (ClientRequest Payload Handle))) :
    VolatileRel me { node with clientRequestsQueue := queue } a :=
  { h with
    candidate := fun hr => { h.candidate hr with }
    leader := fun hr => { h.leader hr with } }

def logAfter (log : Log size Payload) : List (Effect size Payload Handle) → Log size Payload
  | [] => log
  | .wrote log' :: es => logAfter log' es
  | .sent _ :: es => logAfter log es
  | .replied _ :: es => logAfter log es

def sentIn : List (Effect size Payload Handle) → List (Message size Payload)
  | [] => []
  | .wrote _ :: es => sentIn es
  | .sent message :: es => message :: sentIn es
  | .replied _ :: es => sentIn es

theorem logAfter_append (log : Log size Payload) (es es' : List (Effect size Payload Handle)) :
    logAfter log (es ++ es') = logAfter (logAfter log es) es' := by
  induction es generalizing log with
  | nil => rfl
  | cons e es ih => cases e <;> exact ih _

theorem sentIn_append (es es' : List (Effect size Payload Handle)) :
    sentIn (es ++ es') = sentIn es ++ sentIn es' := by
  induction es with
  | nil => rfl
  | cons e es ih => cases e <;> simp [sentIn, ih]

theorem mem_sentIn {es : List (Effect size Payload Handle)} {message : Message size Payload} :
    message ∈ sentIn es ↔ Effect.sent message ∈ es := by
  induction es with
  | nil => simp [sentIn]
  | cons e es ih => cases e <;> simp [sentIn, ih]

theorem sentIn_eq_nil {es : List (Effect size Payload Handle)}
    (h : ∀ message, Effect.sent message ∉ es) : sentIn es = [] :=
  eq_nil_iff_forall_not_mem.mpr fun _ hm => h _ (mem_sentIn.mp hm)

/-- Where a handler starts: the log on disk, the messages it may send, and the entries it may
write as a leader. -/
structure Start (size : Nat) (Payload : Type) where
  log : Log size Payload
  maySend : Message size Payload → Prop
  supply : Supply Payload

structure Safe (me : Fin size) (start : Start size Payload)
    (es : List (Effect size Payload Handle)) (a : Ghost size Payload) : Prop where
  inv : GhostInv a
  logRel : LogRel me (logAfter start.log es) a
  sent : ∀ message ∈ sentIn es, MessageRel message a ∧ start.maySend message

/-- Steps of `me`. The three checks left open depend on
each call being answered once. -/
def raftLogic (me : Fin size) (start : Start size Payload) :
    Logic (Effect size Payload Handle) Check (Ghost size Payload) where
  evolves := Moves me start.supply
  evolves_refl _ := Relation.ReflTransGen.refl
  evolves_trans := Relation.ReflTransGen.trans
  safe := Safe me start
  allowed check :=
    check = .matchIndexIncreases ∨ check = .matchIndexCovered ∨ check = .gapAboveMatchIndex

/-- Within a handler: what is on disk by now is `log`. -/
structure Working (me : Fin size) (start : Start size Payload) (log : Log size Payload)
    (es : List (Effect size Payload Handle)) (a : Ghost size Payload) : Prop
    extends Safe me start es a where
  current : logAfter start.log es = log

section Rules

variable {me : Fin size} {start : Start size Payload} {log : Log size Payload}
  {node : Node size Payload Handle} {es : List (Effect size Payload Handle)}
  {a : Ghost size Payload}

theorem Working.rel (h : Working me start log es a) : LogRel me log a := by
  have hl := h.logRel
  rwa [h.current] at hl

theorem Working.init (hi : GhostInv a) (hl : LogRel me start.log a) :
    Working me start start.log ([] : List (Effect size Payload Handle)) a :=
  ⟨⟨hi, hl, fun _ hm => nomatch hm⟩, rfl⟩

theorem Working.moves (h : Working me start log es a) (hmov : Moves me start.supply a a')
    (hr : LogRel me log a') : Working me start log es a' := by
  have hg := (frame hmov h.inv).toGrows
  exact ⟨⟨inv hmov h.inv, by rwa [h.current],
    fun message hm => ⟨(h.sent message hm).1.mono hg, (h.sent message hm).2⟩⟩, h.current⟩

variable
  {post : Unit → Node size Payload Handle → List (Effect size Payload Handle) →
    Ghost size Payload → Prop}

theorem wp_writeLog {before : Log size Payload} (h : Working me start before es a)
    (a' : Ghost size Payload) (hmov : Moves me start.supply a a') (hr : LogRel me log a')
    (hp : ∀ es', Working me start log es' a' → post () { node with log := log } es' a') :
    (raftLogic me start).Wp (writeLog log) post node es a := by
  have hg := (frame hmov h.inv).toGrows
  have hsent : sentIn (es ++ [Effect.wrote log]) = sentIn es := by
    rw [sentIn_append]
    exact append_nil _
  have hl : logAfter start.log (es ++ [Effect.wrote log]) = log := logAfter_append ..
  have hs : Safe me start (es ++ [Effect.wrote log]) a' := by
    refine ⟨inv hmov h.inv, by rwa [hl], ?_⟩
    intro message hm
    rw [hsent] at hm
    exact ⟨(h.sent message hm).1.mono hg, (h.sent message hm).2⟩
  apply Logic.Wp.bind
  apply Logic.Wp.modify
  exact Logic.Wp.emit a' hmov hs (hp _ ⟨hs, hl⟩)

theorem wp_send {message : Message size Payload} (h : Working me start log es a)
    (hmsg : MessageRel message a) (hmay : start.maySend message)
    (hp : ∀ es', Working me start log es' a → post () node es' a) :
    (raftLogic me start).Wp (Program.emit (.sent message)) post node es a := by
  have hsent : sentIn (es ++ [(.sent message : Effect size Payload Handle)]) =
      sentIn es ++ [message] := sentIn_append ..
  have hl : logAfter start.log (es ++ [(.sent message : Effect size Payload Handle)]) = log := by
    rw [logAfter_append]
    exact h.current
  have hs : Safe me start (es ++ [Effect.sent message]) a := by
    refine ⟨h.inv, by rw [hl]; exact h.rel, ?_⟩
    intro m hm
    rw [hsent] at hm
    rcases mem_append.mp hm with hm | hm
    · exact h.sent m hm
    · rw [mem_singleton.mp hm]
      exact ⟨hmsg, hmay⟩
  exact Logic.Wp.emit a (Moves.refl me a) hs (hp _ ⟨hs, hl⟩)

theorem wp_replyAll {code : Nat} {message : String} {leaderId : Option (Fin size)}
    {handles : List (Option Handle)} (h : Working me start log es a)
    (hp : ∀ es', Working me start log es' a → post () node es' a) :
    (raftLogic me start).Wp (replyAll code message leaderId handles) post node es a := by
  refine (Logic.Wp.forEach (fun node' es' a' => node' = node ∧ a' = a ∧
    Working me start log es' a) ?_ ⟨rfl, rfl, h⟩).mono ?_
  · intro handle _ node' es' a' hi
    rcases hi with ⟨rfl, rfl, hw⟩
    have hsent : ∀ e : Effect size Payload Handle, (∃ r, e = .replied r) →
        sentIn (es' ++ [e]) = sentIn es' ∧ logAfter start.log (es' ++ [e]) = log := by
      rintro e ⟨r, rfl⟩
      rw [sentIn_append, logAfter_append]
      exact ⟨append_nil _, hw.current⟩
    have hs' := hsent (.replied ⟨handle, code, message, leaderId⟩) ⟨_, rfl⟩
    have hs : Safe me start (es' ++ [.replied ⟨handle, code, message, leaderId⟩]) a' := by
      refine ⟨hw.inv, by rw [hs'.2]; exact hw.rel, ?_⟩
      intro m hm
      rw [hs'.1] at hm
      exact hw.sent m hm
    exact Logic.Wp.emit a' (Moves.refl me a') hs ⟨rfl, rfl, hs, hs'.2⟩
  · intro _ node' es' a' hi
    rcases hi with ⟨rfl, rfl, hw⟩
    exact hp es' hw

end Rules

end MySuperLedger.Raft
