import MySuperLedger.Raft.Core

/-! # What holds of every handler

Most of what a handler does concerns only what the node believes of the others,
and most of the rest is stepping down, writing the entries of a leader and
voting. What holds of these pieces, and of one run after another, holds of every
message received.
-/

namespace MySuperLedger.Raft

open Effects List

variable {size : Nat} {Payload Handle : Type}

def Effect.reply? : Effect size Payload Handle → Option (Reply size Handle)
  | .wrote _ => none
  | .sent _ => none
  | .replied reply => some reply

def repliesIn (effects : List (Effect size Payload Handle)) : List (Reply size Handle) :=
  effects.filterMap Effect.reply?

theorem repliesIn_append (es es' : List (Effect size Payload Handle)) :
    repliesIn (es ++ es') = repliesIn es ++ repliesIn es' :=
  filterMap_append

theorem repliesIn_eq_nil {es : List (Effect size Payload Handle)}
    (h : ∀ e ∈ es, e.reply? = none) : repliesIn es = [] :=
  filterMap_eq_nil_iff.mpr h

theorem repliesIn_replied (replies : List (Reply size Handle)) :
    repliesIn (replies.map (Effect.replied : _ → Effect size Payload Handle)) = replies := by
  simp [repliesIn, filterMap_map, Function.comp_def, Effect.reply?]

def Node.pendingHandles (node : Node size Payload Handle) : List Handle :=
  (node.pendingClientRequests.map Prod.snd).reduceOption

/-- All of a node but what it believes of the others. -/
def Node.own (node : Node size Payload Handle) : Log size Payload × RaftRole × Nat ×
    List (Nat × Option Handle) × List (List (ClientRequest Payload Handle)) :=
  (node.log, node.role, node.commitIndex, node.pendingClientRequests, node.clientRequestsQueue)

namespace Handler

open Program

/-- No client is answered, and at most what the node believes of the others changes. -/
abbrev KeepsOwn {α : Type} (m : Handler size Payload Handle α) : Prop :=
  Keeps (fun e => e.reply? = none) (fun _ => True) Node.own m

theorem keepsOwn_termOfLogEntryAt (index : Nat) :
    KeepsOwn (termOfLogEntryAt index : Handler size Payload Handle Nat) :=
  .bind .get fun _ => .require trivial _

variable {node node' : Node size Payload Handle} {es : List (Effect size Payload Handle)}

theorem of_termOfLogEntryAt {index term : Nat}
    (hrun : (termOfLogEntryAt index).RunsTo node es term node') : es = [] ∧ node' = node := by
  have hr := hrun.of_get
  obtain ⟨-, rfl, rfl⟩ := hr.of_require
  exact ⟨rfl, rfl⟩

theorem keepsOwn_updateLeaderId (leaderId : Fin size) :
    KeepsOwn (updateLeaderId leaderId : Handler size Payload Handle Unit) := by
  refine .bind .get fun node => ?_
  cases node.leaderId with
  | none => exact .modify fun _ => rfl
  | some known => exact .assert trivial _

theorem keepsOwn_logIsOk (request : AppendEntriesRequest size Payload) :
    KeepsOwn (logIsOk request : Handler size Payload Handle Bool) :=
  .bind .get fun _ => .ite (.pure _) (.ite (.pure _)
    (.bind (keepsOwn_termOfLogEntryAt _) fun _ => .pure _))

theorem keepsOwn_setPeer (id : Fin size) (peer : Peer) :
    KeepsOwn (setPeer id peer : Handler size Payload Handle Unit) :=
  .modify fun _ => rfl

theorem keepsOwn_switchOn (id : Fin size) :
    KeepsOwn (switchOn id : Handler size Payload Handle Unit) :=
  .modify fun _ => rfl

theorem keepsOwn_appendEntries (self : Fin size) (config : Config Payload)
    (due : Fin size → Bool) (room : Fin size → Nat) :
    KeepsOwn (appendEntries self config due room : Handler size Payload Handle Unit) := by
  refine .bind .get fun _ => .when (.forEach (fun id => .bind .get fun _ => .when ?_) _)
  exact .bind .get fun _ => .bind (keepsOwn_termOfLogEntryAt _) fun _ =>
    .bind (.ite (.pure _) (.require trivial _)) fun _ => .bind (.emit rfl) fun _ =>
    keepsOwn_setPeer _ _

theorem keepsOwn_requestVote (self : Fin size) (due : Fin size → Bool) :
    KeepsOwn (requestVote self due : Handler size Payload Handle Unit) := by
  refine .bind .get fun _ => .when (.forEach (fun id => .bind .get fun _ => .when ?_) _)
  exact .bind .get fun _ => .bind (keepsOwn_termOfLogEntryAt _) fun _ => .bind (.emit rfl) fun _ =>
    keepsOwn_setPeer _ _

theorem keepsOwn_callFailed (id : Fin size) (isAppendEntries : Bool) :
    KeepsOwn (callFailed id isAppendEntries : Handler size Payload Handle Unit) :=
  .bind (keepsOwn_switchOn id) fun _ => .bind .get fun _ => .when (keepsOwn_setPeer _ _)

theorem runsTo_replyAll (code : Nat) (message : String) (leaderId : Option (Fin size))
    (handles : List (Option Handle)) (node : Node size Payload Handle) :
    RunsTo (replyAll code message leaderId handles) node
      ((handles.reduceOption.map (⟨·, code, message, leaderId⟩)).map .replied) () node := by
  unfold replyAll
  induction handles.reduceOption with
  | nil => exact RunsTo.pure () node
  | cons handle rest ih => exact (RunsTo.emit _ node).bind ih

theorem runsTo_dropPending (code : Nat) (message : String) (node : Node size Payload Handle) :
    RunsTo (dropPending code message) node
      ((node.pendingHandles.map (⟨·, code, message, node.leaderId⟩)).map .replied) ()
      { node with pendingClientRequests := [] } := by
  have hr := runsTo_replyAll code message node.leaderId
    (node.pendingClientRequests.map Prod.snd) node
  have hf := hr.bind
    (f := fun _ => modify fun node => { node with pendingClientRequests := [] })
    (RunsTo.modify _ node)
  rw [append_nil] at hf
  exact (RunsTo.get node).bind_nil hf

/-- What stepping down does. A leader answers what is pending. -/
structure SteppedDown (newTerm : Nat) (node : Node size Payload Handle)
    (es : List (Effect size Payload Handle)) (node' : Node size Payload Handle) : Prop where
  le : node.log.currentTerm ≤ newTerm
  term : node'.log.currentTerm = newTerm
  firstIndex : node'.log.firstIndex = node.log.firstIndex
  entries : node'.log.entries = node.log.entries
  commitIndex : node'.commitIndex = node.commitIndex
  role : node'.role = .Follower
  queue : node'.clientRequestsQueue = node.clientRequestsQueue
  pending : (node.role = .Leader ∧ node'.pendingClientRequests = [] ∧ repliesIn es =
      node.pendingHandles.map (⟨·, 301, "LeaderStepDown", node'.leaderId⟩)) ∨
    (node.role ≠ .Leader ∧ node'.pendingClientRequests = node.pendingClientRequests ∧
      repliesIn es = [])

theorem of_stepDown {newTerm : Nat} {x : Unit} (hrun : (stepDown newTerm).RunsTo node es x node') :
    SteppedDown newTerm node es node' := by
  have hbody := hrun.of_get
  obtain ⟨_, _, node, _, hasrt, hchg, rfl⟩ := hbody.of_bind
  obtain ⟨hle, rfl, rfl⟩ := hasrt.of_assert
  have hwr := hchg.of_modify
  obtain ⟨written, _, middle, later, hterm, hdrop, rfl⟩ := hwr.of_bind
  -- before the pending requests are looked at, nothing is said to a client
  have hmid : SteppedDown newTerm { node with role := .Follower } written middle := by
    split at hterm
    · cases hterm
      exact ⟨hle, rfl, rfl, rfl, rfl, rfl, rfl, .inr ⟨by simp, rfl, rfl⟩⟩
    · rename_i hnot
      obtain ⟨_, rfl, rfl⟩ := hterm.of_assert
      exact ⟨hle, Nat.le_antisymm hle (Nat.not_lt.mp hnot), rfl, rfl, rfl, rfl, rfl,
        .inr ⟨by simp, rfl, rfl⟩⟩
  obtain ⟨-, hterm, hfst, hents, hcom, hfol, hque, hpend⟩ := hmid
  simp only [reduceCtorEq, false_and, ne_eq, not_false_eq_true, true_and, false_or] at hpend
  unfold Program.when at hdrop
  split at hdrop
  · rename_i hlead
    obtain ⟨rfl, -, rfl⟩ := (runsTo_dropPending _ _ _).unique hdrop
    refine ⟨hle, hterm, hfst, hents, hcom, hfol, hque, .inl ⟨hlead, rfl, ?_⟩⟩
    simp only [nil_append, repliesIn_append, repliesIn_replied, hpend.2,
      Node.pendingHandles, hpend.1]
  · rename_i hlead
    cases hdrop
    refine ⟨hle, hterm, hfst, hents, hcom, hfol, hque, .inr ⟨hlead, hpend.1, ?_⟩⟩
    simpa using hpend.2

variable {rel : Node size Payload Handle → List (Effect size Payload Handle) →
  Node size Payload Handle → Prop}

theorem ensures_appendAll [Composes rel]
    (h : ∀ {node entry log}, node.log.appendEntry entry = some log →
      rel node [.wrote log] { node with log := log }) (entries : List (LogEntry Payload)) :
    Ensures rel (appendAll entries) := by
  induction entries with
  | nil => exact .pure true
  | cons entry entries ih =>
    refine ⟨fun {node es appended node'} hr => ?_⟩
    have hb := hr.of_get
    cases ha : node.log.appendEntry entry with
    | none =>
      rw [ha] at hb
      cases hb
      exact Composes.refl node
    | some log =>
      rw [ha] at hb
      obtain ⟨_, _, _, _, hwr, hrest, rfl⟩ := hb.of_bind
      cases hwr
      exact Composes.trans (h ha) (ih.run hrest)

/-- What the handlers of messages are made of. -/
structure Basis (rel : Node size Payload Handle → List (Effect size Payload Handle) →
    Node size Payload Handle → Prop) : Prop where
  own : ∀ {α : Type} {m : Handler size Payload Handle α}, KeepsOwn m → Ensures rel m
  stepDown : ∀ newTerm, Ensures rel (stepDown newTerm)
  appendEntry : ∀ {node entry log}, node.log.appendEntry entry = some log →
    rel node [.wrote log] { node with log := log }
  truncateSuffix : ∀ {node index}, node.log.firstIndex ≤ index → node.commitIndex < index →
    rel node [.wrote (node.log.truncateSuffix (index - 1))]
      { node with log := node.log.truncateSuffix (index - 1) }
  followCommitIndex : ∀ {node commitIndex}, node.commitIndex < commitIndex →
    commitIndex ≤ node.log.lastLogIndex → rel node [] { node with commitIndex := commitIndex }
  decideVote : ∀ request, Ensures rel (decideVote request)

namespace Basis

section

variable [Composes rel] (h : Basis rel)
include h

/-- Entries are dropped behind the commit index only, and never before the first one. -/
theorem mergeEntries (index : Nat) (entries : List (LogEntry Payload)) :
    Ensures rel (mergeEntries index entries) := by
  induction entries generalizing index with
  | nil => exact .pure []
  | cons entry entries ih =>
    have hnext : Ensures rel (do
        let rest ← Handler.mergeEntries (index + 1) entries
        pure (entry :: rest)) :=
      .bind (ih _) fun _ => .pure _
    refine .bind (.assert _ _) fun _ => ⟨fun {node es rest node'} hrun => ?_⟩
    have hcs := hrun.of_get
    split at hcs
    · exact (ih _).run hcs
    · rename_i hfst
      split at hcs
      · obtain ⟨_, _, node, _, hterm, hagr, rfl⟩ := hcs.of_bind
        obtain ⟨rfl, rfl⟩ := of_termOfLogEntryAt hterm
        split at hagr
        · exact (ih _).run hagr
        · obtain ⟨_, _, node, _, hasrt, hcut, rfl⟩ := hagr.of_bind
          obtain ⟨hcom, rfl, rfl⟩ := hasrt.of_assert
          obtain ⟨_, _, _, _, htrun, hrest, rfl⟩ := hcut.of_bind
          cases htrun
          have hboth := Composes.trans (h.truncateSuffix (Nat.not_lt.mp hfst) hcom)
            (hnext.run hrest)
          exact hboth
      · exact hnext.run hcs

theorem acceptEntries (request : AppendEntriesRequest size Payload)
    (response : AppendEntriesResponse size) : Ensures rel (acceptEntries request response) := by
  have hfollow : Ensures rel (Handler.followCommitIndex request.commitIndex) := by
    refine ⟨fun {node _ _ _} hr => ?_⟩
    have hb := hr.of_get
    unfold Program.when at hb
    split at hb
    · rename_i hlt
      obtain ⟨hle, rfl, rfl⟩ := hb.of_modify.of_assert
      exact h.followCommitIndex hlt hle
    · cases hb
      exact Composes.refl node
  refine .bind (h.own (keepsOwn_updateLeaderId _)) fun _ =>
    .bind (h.own (keepsOwn_logIsOk request)) fun ok => .ite ?_ (.pure _)
  exact .bind (h.mergeEntries _ _) fun _ => .bind (ensures_appendAll h.appendEntry _) fun _ =>
    .bind (.assert _ _) fun _ => .bind .get fun _ => .bind hfollow fun _ => .pure _

theorem handleAppendEntriesRequest (self : Fin size) (request : AppendEntriesRequest size Payload) :
    Ensures rel (handleAppendEntriesRequest self request) := by
  refine .bind .get fun node => .ite (.pure _) (.ite (.pure _) ?_)
  refine .bind (.when (h.stepDown _)) fun _ => ?_
  exact .bind (h.acceptEntries _ _) fun _ => .pure _

theorem handleAppendEntriesResponse (config : Config Payload)
    (response : AppendEntriesResponse size) :
    Ensures rel (handleAppendEntriesResponse config response) := by
  refine .bind .get fun node => .when ?_
  refine .bind (.assert _ _) fun _ => .ite (h.stepDown _) (.when (.ite ?_ ?_))
  · exact .bind (.assert _ _) fun _ => h.own (keepsOwn_setPeer _ _)
  · exact .bind (.assert _ _) fun _ => .bind (.assert _ _) fun _ => h.own (keepsOwn_setPeer _ _)

theorem handleRequestVoteRequest (self : Fin size) (request : RequestVoteRequest size) :
    Ensures rel (handleRequestVoteRequest self request) := by
  refine .bind .get fun node => .ite (.pure _) (.ite (.pure _) ?_)
  refine .bind (.when (h.stepDown _)) fun _ => ?_
  exact .bind (h.decideVote _) fun _ => .pure _

theorem handleRequestVoteResponse (response : RequestVoteResponse size) :
    Ensures rel (handleRequestVoteResponse response) :=
  .bind .get fun _ => .when (.ite (h.stepDown _) (h.own (keepsOwn_setPeer _ _)))

theorem receive (self : Fin size) (config : Config Payload) (message : Message size Payload) :
    Ensures rel (receive self config message) := by
  have hs : ∀ message, Ensures rel (emit (.sent message) : Handler size Payload Handle Unit) :=
    fun message => h.own (.emit rfl)
  unfold Handler.receive
  cases message.body with
  | appendEntriesRequest request =>
    refine .bind (h.handleAppendEntriesRequest self request) fun response => ?_
    cases response with
    | none => exact .pure ()
    | some response => exact hs _
  | appendEntriesResponse response =>
    exact .bind (h.own (keepsOwn_switchOn _)) fun _ =>
      h.handleAppendEntriesResponse config response
  | requestVoteRequest request =>
    refine .bind (h.handleRequestVoteRequest self request) fun response => ?_
    cases response with
    | none => exact .pure ()
    | some response => exact hs _
  | requestVoteResponse response =>
    exact .bind (h.own (keepsOwn_switchOn _)) fun _ => h.handleRequestVoteResponse response

theorem leadershipTimeout : Ensures rel leadershipTimeout :=
  .bind .get fun _ => .when (h.stepDown _)

end

end Basis

end Handler

end MySuperLedger.Raft
