import MySuperLedger.Raft.Progress
import MySuperLedger.Raft.Simulation

/-! # Calls and their answers

The cluster again, with the calls in view. A request is one call of its sender; it
may reach its target late, more than once or never, and may be answered each time,
but its sender takes one answer at most, or learns that the call failed. Answers
come in any order.

A leader closes the switch of a peer with each call it makes, but every answer
opens the switch again, also one that belongs to an earlier call. So several calls
may be under way, and a rejection may arrive after a later call has been accepted.
-/

namespace MySuperLedger.Raft

open Consensus Effects Transition List Option Handler NodeRun Cluster Message

variable {size : Nat} {Payload Handle : Type}

def Message.isRequest (message : Message size Payload) : Bool :=
  match message.body with
  | .appendEntriesRequest _ => true
  | .requestVoteRequest _ => true
  | .appendEntriesResponse _ => false
  | .requestVoteResponse _ => false

def Message.isAppendEntries (message : Message size Payload) : Bool :=
  match message.body with
  | .appendEntriesRequest _ => true
  | .appendEntriesResponse _ => true
  | .requestVoteRequest _ => false
  | .requestVoteResponse _ => false

structure Call (size : Nat) (Payload : Type) where
  request : Message size Payload
  /-- How far the caller knew the other log to match when it made the call. -/
  matchIndex : Nat
  /-- What the other node has answered so far. -/
  answers : List (Message size Payload)
  /-- The caller waits for an answer. -/
  pending : Bool
deriving DecidableEq

structure CallCluster (size : Nat) (Payload Handle : Type) where
  cluster : Cluster size Payload Handle
  calls : List (Call size Payload)

namespace CallCluster

def initial : CallCluster size Payload Handle := ⟨Cluster.initial, []⟩

variable (s : CallCluster size Payload Handle)

/-- What a node receives belongs to call number `k`. -/
def MayUse [DecidableEq Payload] (k : Nat) (id : Fin size) :
    Op size Payload → Bool
  | .receive message =>
    match s.calls[k]? with
    | none => false
    | some call =>
      if message.isRequest then message = call.request
      else call.pending ∧ message ∈ call.answers
  | .callFailed peer isAppendEntries =>
    match s.calls[k]? with
    | none => false
    | some call =>
      call.pending ∧ call.request.source = id ∧ call.request.target = peer ∧
        call.request.isAppendEntries = isAppendEntries ∧
        call.request.incarnation = (s.cluster.nodes id).incarnation
  | _ => true

def opened (id : Fin size) (request : Message size Payload) : Call size Payload where
  request := request
  matchIndex := ((s.cluster.nodes id).peers request.target).matchIndex
  answers := []
  pending := true

/-- The calls after a step of node `id` that sent the messages `sent`. -/
def record (k : Nat) (id : Fin size)
    (sent : List (Message size Payload)) : Op size Payload → List (Call size Payload)
  | .receive message =>
    if message.isRequest then
      s.calls.modify k fun call => { call with answers := call.answers ++ sent }
    else s.calls.modify k fun call => { call with pending := false }
  | .callFailed _ _ => s.calls.modify k fun call => { call with pending := false }
  | _ => s.calls ++ sent.map (s.opened id)

def after (k : Nat) (id : Fin size) (op : Op size Payload)
    (cluster : Cluster size Payload Handle) : CallCluster size Payload Handle where
  cluster := cluster
  calls := s.record k id (cluster.network.drop s.cluster.network.length) op

variable [DecidableEq Payload] (config : Config Payload)

/-- A step of the cluster; `k` is the call it belongs to, if it belongs to one. -/
def step (s : CallCluster size Payload Handle) :
    Nat × Label size Payload Handle → Option (CallCluster size Payload Handle)
  | (k, .run id op) =>
    if s.MayUse k id op then (s.cluster.step config (.run id op)).map (s.after k id op) else none
  | (k, .crash id op count) =>
    if s.MayUse k id op then (s.cluster.step config (.crash id op count)).map (s.after k id op)
    else none
  | (_, .enqueueClientRequests id requests) =>
    (s.cluster.step config (.enqueueClientRequests id requests)).map fun cluster =>
      { s with cluster := cluster }

def system : System (CallCluster size Payload Handle) := .ofStep initial (step config)

def run : List (Nat × Label size Payload Handle) → Option (CallCluster size Payload Handle) :=
  System.exec (step config) s

end CallCluster

/-! ## What a step can do -/

variable {message : Message size Payload} {node : Node size Payload Handle} {self : Fin size}
  {node' : Node size Payload Handle} {response : AppendEntriesResponse size} {id : Fin size}
  {es : List (Effect size Payload Handle)} {source target : Fin size} {incarnation : Nat}
  {request : AppendEntriesRequest size Payload} {op : Op size Payload} {known : Nat}

theorem exists_answer_of_mem_sentIn {Answer : Type}
    {m : Handler size Payload Handle (Option Answer)}
    {send : Option Answer → Handler size Payload Handle Unit} {f : Answer → Message size Payload}
    (hqt : Handler.Quiet m) (hn : send none = pure ())
    (hs : ∀ answer, send (some answer) = Program.emit (.sent (f answer)))
    (hm : message ∈ sentIn ((m >>= send) node).effects) :
    ∃ answer node', (m node).result = .ok (some answer, node') ∧ message = f answer := by
  have hl := sentIn_eq_nil fun _ hm => hqt.effects node _ hm
  have hm : message ∈ sentIn (Program.bind m send node).effects := hm
  rcases hr : m node with ⟨es, check | ⟨_ | answer, node'⟩⟩
  · rw [Program.bind, hr] at hm
    rw [hr] at hl
    rw [hl] at hm
    cases hm
  · rw [Program.bind, hr] at hm
    rw [hr] at hl
    simp only [hn, sentIn_append, hl] at hm
    cases hm
  · rw [Program.bind, hr] at hm
    rw [hr] at hl
    simp only [hs, sentIn_append, hl] at hm
    exact ⟨answer, node', rfl, mem_singleton.mp hm⟩

theorem answerOf_of_mem_sentIn (config : Config Payload) (hm : message ∈ sentIn (receive self config
      ⟨source, target, incarnation, .appendEntriesRequest request⟩ node).effects) :
    ∃ response, message = ⟨self, source, incarnation, .appendEntriesResponse response⟩ ∧
      Handler.AnswerOf self node.log request response := by
  simp only [receive] at hm
  obtain ⟨response, node', hr, rfl⟩ := exists_answer_of_mem_sentIn
    (quiet_handleAppendEntriesRequest self request) rfl (fun _ => rfl) hm
  exact ⟨response, rfl, answerOf_handleAppendEntriesRequest hr⟩

theorem body_of_mem_sentIn (config : Config Payload) {request : RequestVoteRequest size}
    (hm : message ∈ sentIn (receive self config
      ⟨source, target, incarnation, .requestVoteRequest request⟩ node).effects) :
    ∃ response, message.body = .requestVoteResponse response := by
  simp only [receive] at hm
  obtain ⟨response, node', hr, rfl⟩ := exists_answer_of_mem_sentIn
    (quiet_handleRequestVoteRequest self request) rfl (fun _ => rfl) hm
  exact ⟨response, rfl⟩

theorem isRequest_of_mem_sentIn (config : Config Payload) {received : Message size Payload}
    (hmem : message ∈ sentIn (receive self config received node).effects) :
    message.isRequest = false := by
  have hdown : ∀ newTerm, Program.Keeps Effect.IsLocal (fun _ => True) (fun _ => ())
      (stepDown newTerm : Handler size Payload Handle Unit) :=
    fun newTerm => ((quiet_stepDown newTerm).map fun _ => ()).mono (fun _ h => h)
      fun _ _ => trivial
  rcases received with ⟨source, target, incarnation, body⟩
  cases body with
  | appendEntriesRequest request =>
    obtain ⟨response, rfl, -⟩ := answerOf_of_mem_sentIn config hmem
    rfl
  | requestVoteRequest request =>
    obtain ⟨response, hbody⟩ := body_of_mem_sentIn config hmem
    rw [isRequest, hbody]
  | appendEntriesResponse response =>
    have hloc : Program.Keeps Effect.IsLocal (fun _ => True) (fun _ => ())
        (handleAppendEntriesResponse config response :
          Handler size Payload Handle Unit) :=
      .bind .get fun _ => .when (.bind (.assert trivial _) fun _ => .ite (hdown _) (.when
        (.ite (.bind (.assert trivial _) fun _ => .modify fun _ => rfl)
          (.bind (.assert trivial _) fun _ => .bind (.assert trivial _) fun _ =>
            .modify fun _ => rfl))))
    have hrcv := Program.Keeps.bind (m := switchOn source) (.modify fun _ => rfl) fun _ => hloc
    exact absurd (mem_sentIn.mp hmem) fun hsent => hrcv.effects node _ hsent
  | requestVoteResponse response =>
    have hloc : Program.Keeps Effect.IsLocal (fun _ => True) (fun _ => ())
        (handleRequestVoteResponse response : Handler size Payload Handle Unit) :=
      .bind .get fun _ => .when (.ite (hdown _) (.modify fun _ => rfl))
    have hrcv := Program.Keeps.bind (m := switchOn source) (.modify fun _ => rfl) fun _ => hloc
    exact absurd (mem_sentIn.mp hmem) fun hsent => hrcv.effects node _ hsent

/-- The steps that move what a node knows of the others. -/
def Op.MovesProgress : Op size Payload → Prop
  | .receive message => ∃ response, message.body = .appendEntriesResponse response
  | .becomeLeader _ => True
  | _ => False

theorem Op.holds (config : Config Payload) (self : Fin size) (h : ¬ op.MovesProgress) :
    Handler.Holds (op.run config self : Handler size Payload Handle Unit) := by
  cases op with
  | appendEntries due room => exact holds_appendEntries ..
  | requestVote due => exact holds_requestVote ..
  | receive message =>
    rcases message with ⟨source, target, incarnation, body⟩
    cases body with
    | appendEntriesRequest request =>
      refine Program.Keeps.bind (quiet_handleAppendEntriesRequest self request).holds
        fun answer => ?_
      cases answer with
      | none => exact .pure ()
      | some response => exact .emit trivial
    | appendEntriesResponse response => exact absurd ⟨response, rfl⟩ h
    | requestVoteRequest request =>
      refine Program.Keeps.bind (quiet_handleRequestVoteRequest self request).holds fun answer => ?_
      cases answer with
      | none => exact .pure ()
      | some response => exact .emit trivial
    | requestVoteResponse response =>
      exact Program.Keeps.bind (holds_switchOn source) fun _ =>
        holds_handleRequestVoteResponse response
  | callFailed id isAppendEntries => exact holds_callFailed ..
  | receiveClientRequests => exact quiet_receiveClientRequests.holds
  | advanceCommitIndex => exact (quiet_advanceCommitIndex _).holds
  | becomeLeader noop => exact absurd trivial h
  | electionTimeout => exact holds_electionTimeout _
  | leadershipTimeout => exact quiet_leadershipTimeout.holds

/-- What a step can do to the progress of another node. -/
inductive Node.Moves (node : Node size Payload Handle) (id : Fin size) (after : Nat × Nat) :
    Prop where
  | same (after_eq : after = node.progress id)
  | elected (role_eq : node.role = .Candidate) (after_eq : after = (0, node.log.lastLogIndex + 1))
  | matched {matchIndex : Nat} (increases : (node.progress id).1 ≤ matchIndex)
      (after_eq : after = (matchIndex, matchIndex + 1))
  | lowered {nextIndex : Nat} (gap : (node.progress id).1 + 1 < (node.progress id).2)
      (above : (node.progress id).1 < nextIndex)
      (after_eq : after = ((node.progress id).1, nextIndex))

theorem Op.moves_becomeLeader {noop : Payload}
    (hr : (Handler.becomeLeader self noop node).result = .ok ((), node')) (id : Fin size) :
    node.Moves id (node'.progress id) := by
  unfold Handler.becomeLeader at hr
  rw [(Program.RunsTo.get node).bind_eq] at hr
  unfold Program.when at hr
  split at hr
  · rename_i hw
    obtain ⟨_, _, hl, hr⟩ := Program.result_bind hr
    cases hl
    obtain ⟨_, written, ha, hr⟩ := Program.result_bind hr
    have hp := (Handler.quiet_appendAll _).result _ _ _ ha
    have hs := (.assert (by decide) _ : Program.Keeps (fun _ => True) (· ∉ Check.ofAnswers)
      (fun node => node) _).result _ _ _ hr
    refine .elected hw.1 ?_
    rw [hs, Node.progress, hp]
    rfl
  · cases hr
    exact .same rfl

theorem Op.moves_answer {config : Config Payload}
    (hbody : message.body = .appendEntriesResponse response)
    (hrun : (Handler.receive self config message node).result = .ok ((), node')) (id : Fin size) :
    node.Moves id (node'.progress id) := by
  unfold Handler.receive at hrun
  rw [hbody] at hrun
  obtain ⟨_, on, hon, hrun⟩ := Program.result_bind hrun
  have hprog := (Handler.holds_switchOn message.source).result _ _ _ hon
  rcases Handler.progress_handleAppendEntriesResponse config hrun with hsame | ⟨peer', rfl, hmov⟩
  · exact .same (by rw [hsame, hprog])
  · by_cases hid : id = response.id
    · have hpre : node.progress id =
          ((on.peers response.id).matchIndex, (on.peers response.id).nextIndex) := by
        rw [← hprog, hid]
        rfl
      have haft : (on.withPeer response.id peer').progress id =
          (peer'.matchIndex, peer'.nextIndex) := by
        simp [Node.progress, Node.withPeer, hid]
      rcases hmov with ⟨hinc, hmat, hnext⟩ | ⟨hcov, hgap, hmat, hnext⟩
      · have hle : (node.progress id).1 ≤ response.matchIndex := by rwa [hpre]
        exact .matched hle (by rw [haft, hmat, hnext])
      · have habv : (node.progress id).1 < peer'.nextIndex := by
          rw [hpre, hnext]
          exact Handler.lt_lowerNextIndex config hcov hgap
        exact .lowered (by rwa [hpre]) habv (by rw [haft, hpre, hmat])
    · refine .same ?_
      rw [← hprog]
      simp [Node.progress, Node.withPeer, hid]

theorem Op.moves (config : Config Payload)
    (hr : (op.run config self node).result = .ok ((), node')) (id : Fin size) :
    node.Moves id (node'.progress id) := by
  by_cases hm : op.MovesProgress
  · cases op with
    | receive message =>
      obtain ⟨response, hb⟩ := hm
      exact Op.moves_answer hb hr id
    | becomeLeader noop => exact Op.moves_becomeLeader hr id
    | _ => exact hm.elim
  · exact .same (congrFun ((Op.holds config self hm).result _ _ _ hr) id)

/-! ## The invariant -/

/-- `known` is a match index that the leader has had: it still has it, or an answer has
come since, and the next request begins right behind the match. -/
def Tracks (known : Nat) (progress : Nat × Nat) : Prop :=
  known ≤ progress.1 ∧ (known = progress.1 ∨ progress.2 = progress.1 + 1)

theorem Node.Moves.tracks {after : Nat × Nat} (h : node.Moves id after)
    (hr : node.role ≠ .Candidate) (ht : Tracks known (node.progress id)) : Tracks known after := by
  obtain ⟨hle, hcs⟩ := ht
  rcases h with rfl | ⟨hc, -⟩ | ⟨hi, rfl⟩ | ⟨hg, -, rfl⟩
  · exact ⟨hle, hcs⟩
  · exact absurd hc hr
  · exact ⟨hle.trans hi, .inr rfl⟩
  · exact ⟨hle, hcs.imp_right fun hn => by omega⟩

theorem Node.Moves.lt {after : Nat × Nat} (h : node.Moves id after)
    (hlt : (node.progress id).1 < (node.progress id).2) : after.1 < after.2 := by
  rcases h with rfl | ⟨-, rfl⟩ | ⟨-, rfl⟩ | ⟨-, ha, rfl⟩
  · exact hlt
  · exact Nat.succ_pos _
  · exact Nat.lt_succ_self _
  · exact ha

/-- What an answer of `target` says, and what it tells of the log that it was given from,
which is known to match up to `known`. -/
structure AnswerRel (target : Fin size) (known : Nat) (request : AppendEntriesRequest size Payload)
    (response : AppendEntriesResponse size) : Prop where
  id_eq : response.id = target
  savedTerm_eq : response.savedTerm = request.term
  savedPrevLogIndex_eq : response.savedPrevLogIndex = request.prevLogIndex
  term_le : request.term ≤ response.term
  success : response.success = true → request.prevLogIndex ≤ response.matchIndex
  refused : response.success = false → response.term = request.term →
    known ≤ response.lastLogIndex ∧ known < request.prevLogIndex

structure LeaderCallRel (nodes : Fin size → Node size Payload Handle) (a : Ghost size Payload)
    (call : Call size Payload) (request : AppendEntriesRequest size Payload) : Prop where
  acked : call.matchIndex ≤ (a.acked request.term call.request.target).length
  tracks : call.request.incarnation = (nodes call.request.source).incarnation →
    request.term = (nodes call.request.source).log.currentTerm →
    Tracks call.matchIndex ((nodes call.request.source).progress call.request.target)
  answers : ∀ answer ∈ call.answers, ∃ response, answer.target = call.request.source ∧
    answer.incarnation = call.request.incarnation ∧
    answer.body = .appendEntriesResponse response ∧
    AnswerRel call.request.target call.matchIndex request response

structure CallInv (cluster : Cluster size Payload Handle) (a : Ghost size Payload)
    (call : Call size Payload) : Prop where
  sent : call.request ∈ cluster.network
  leader : ∀ request, call.request.body = .appendEntriesRequest request →
    LeaderCallRel cluster.nodes a call request
  /-- Only a leader's call is answered like one. -/
  kind : ∀ answer ∈ call.answers, ∀ response, answer.body = .appendEntriesResponse response →
    ∃ request, call.request.body = .appendEntriesRequest request

structure CallsRel (s : CallCluster size Payload Handle) (a : Ghost size Payload) : Prop where
  cluster : ClusterRel s.cluster a
  held : AckedHeld a
  gap : ∀ id id', ((s.cluster.nodes id).progress id').1 < ((s.cluster.nodes id).progress id').2
  calls : ∀ call ∈ s.calls, CallInv s.cluster a call

section Step

variable {cluster : Cluster size Payload Handle} {a a' : Ghost size Payload} {id : Fin size}
  {request : AppendEntriesRequest size Payload} {node' : Node size Payload Handle}
  {message : Message size Payload} {op : Op size Payload} {config : Config Payload}
  {cluster' : Cluster size Payload Handle}

/-- A follower that refuses a batch holds all that it has acknowledged, and that ends
before the batch begins. -/
theorem ClusterRel.acked_lt (h : ClusterRel cluster a) (hh : AckedHeld a)
    {before : List (LogEntry Payload)} (hb : BatchRel request before a)
    (ht : (cluster.nodes id).log.currentTerm ≤ request.term)
    (hr : Handler.Refuses (cluster.nodes id).log request) :
    (a.acked request.term id).length ≤ (cluster.nodes id).log.lastLogIndex ∧
      (a.acked request.term id).length < request.prevLogIndex := by
  have hl := h.log id
  have ha : a.acked request.term id <+: (cluster.nodes id).log.entries := by
    rw [← hl.entries]
    exact hh.isPrefix h.inv (hl.term ▸ ht)
  have hlast := hl.whole.lastLogIndex_eq
  refine ⟨hlast ▸ ha.length_le, ?_⟩
  by_contra hle
  have hlen := hb.length
  have hp : before <+: (cluster.nodes id).log.entries :=
    (prefix_of_prefix_length_le ((prefix_append _ _).trans hb.leader)
      (h.inv.acked_leader request.term id) (by omega)).trans ha
  have hprev : request.prevLogIndex ≤ (cluster.nodes id).log.entries.length :=
    hlen ▸ hp.length_le
  obtain ⟨-, hsh | ⟨term, hg, hne⟩⟩ := hr
  · omega
  · rw [hl.whole.getTerm_eq hprev, ← hlen, prefix_iff_eq_take.mp hp |>.symm] at hg
    exact hne (some.inj hg ▸ hb.term)

variable {call : Call size Payload} {k : Nat} {sent : List (Message size Payload)}

theorem LeaderCallRel.update {nodes : Fin size → Node size Payload Handle}
    (h : LeaderCallRel nodes a call request) (hg : Grows a a')
    (hs : call.request.source = id → call.request.incarnation = node'.incarnation →
      request.term = node'.log.currentTerm →
      Tracks call.matchIndex (node'.progress call.request.target)) :
    LeaderCallRel (Function.update nodes id node') a' call request where
  acked := h.acked.trans (hg.acked _ _).length_le
  tracks := by
    by_cases hid : call.request.source = id
    · rw [hid, Function.update_self]
      exact hs hid
    · rw [Function.update_of_ne hid]
      exact h.tracks
  answers := h.answers

theorem ClusterRel.of_kept (h : ClusterRel cluster a) (hk : Kept (cluster.nodes id) node')
    (hm : message ∈ cluster.network) (hb : message.body = .appendEntriesRequest request)
    (hs : message.source = id) (hi : message.incarnation = node'.incarnation)
    (ht : request.term = node'.log.currentTerm) :
    message.incarnation = (cluster.nodes id).incarnation ∧
      request.term = (cluster.nodes id).log.currentTerm ∧ (cluster.nodes id).role = .Leader := by
  have hc : message.caller = id := by
    rw [← hs, caller, hb]
  have hl : message.leaderTerm = some request.term := by
    rw [leaderTerm, hb]
  obtain ⟨base, hel⟩ := (h.network message hm).elected hl
  rw [hc] at hel
  have hle := h.inv.elected_term_le hel
  rw [(h.log id).term] at hle
  have hi' : message.incarnation = (cluster.nodes id).incarnation := hi.trans hk.incarnation
  have ht' : request.term = (cluster.nodes id).log.currentTerm := by
    have := hk.term_le
    omega
  refine ⟨hi', ht', ?_⟩
  have hcall := h.calls message hm
  rw [← hc] at hi' ht' ⊢
  exact hcall.leader _ hl hi' ht'

theorem ClusterRel.isCall (config : Config Payload) (h : ClusterRel cluster a)
    (hmay : cluster.MayRun id op)
    (hm : message ∈ sentIn (op.run config id (cluster.nodes id)).effects)
    (hi : message.isRequest = true) : IsCall id (cluster.nodes id) message := by
  have hne : (op.run config id (cluster.nodes id)).effects ≠ [] := by
    rintro hn
    rw [hn] at hm
    cases hm
  obtain ⟨_, _, hs⟩ := (h.wp config hmay).stop _ (prefix_refl _) hne
  rcases (hs.sent message (by rwa [nil_append])).2 with hc | ha
  · exact hc
  · cases op with
    | receive received =>
      rw [isRequest_of_mem_sentIn config hm] at hi
      cases hi
    | _ => exact ha.elim

theorem forall_mem_modify {α : Type} {P : α → Prop} {f : α → α} {xs : List α} (h : ∀ x ∈ xs, P x)
    (hk : ∀ x, xs[k]? = some x → P (f x)) : ∀ x ∈ xs.modify k f, P x := by
  intro x hm
  obtain ⟨i, hi⟩ := mem_iff_getElem?.mp hm
  rw [getElem?_modify] at hi
  obtain ⟨y, hy, rfl⟩ := map_eq_some_iff.mp hi
  split
  · next heq => exact hk y (heq ▸ hy)
  · exact h y (mem_of_getElem? hy)

variable {s : CallCluster size Payload Handle}

section

variable (h : CallsRel s a)
include h

theorem CallsRel.answered
    (hrun : s.cluster.MayRun id (.receive message)) (hisR : message.isRequest = true)
    (hcall : call ∈ s.calls) (hreq : message = call.request) (hinv : CallInv cluster' a' call)
    (hsent : ∀ answer ∈ sent,
      answer ∈ sentIn ((Op.receive message).run config id (s.cluster.nodes id)).effects) :
    CallInv cluster' a' { call with answers := call.answers ++ sent } := by
  obtain ⟨hmem, htgt, -⟩ := hrun
  have hrel := (h.cluster.network message hmem).body
  rcases message with ⟨source, target, incarnation, body⟩
  cases body with
  | appendEntriesRequest request =>
    have hbody : call.request.body = .appendEntriesRequest request := hreq ▸ rfl
    have hans : ∀ answer ∈ sent, ∃ response, answer.target = call.request.source ∧
        answer.incarnation = call.request.incarnation ∧
        answer.body = .appendEntriesResponse response ∧
        AnswerRel call.request.target call.matchIndex request response := by
      intro answer hans
      obtain ⟨response, rfl, hshp⟩ := answerOf_of_mem_sentIn config (hsent answer hans)
      refine ⟨response, hreq ▸ rfl, hreq ▸ rfl, rfl, ?_⟩
      refine ⟨?_, hshp.savedTerm_eq, hshp.savedPrevLogIndex_eq, hshp.term_le, ?_, ?_⟩
      · rw [hshp.id_eq, ← hreq]
        exact htgt.symm
      · intro hsuc
        rw [hshp.success hsuc]
        exact Nat.le_add_right _ _
      · intro hrej hterm
        obtain ⟨hle, hlast, href⟩ := hshp.refused hrej hterm
        obtain ⟨-, -, before, hbat⟩ := hrel
        have hlt := h.cluster.acked_lt h.held hbat hle href
        have hack := ((h.calls call hcall).leader request hbody).acked
        rw [← hreq, show target = id from htgt] at hack
        rw [hlast]
        exact ⟨hack.trans hlt.1, hack.trans_lt hlt.2⟩
    refine ⟨hinv.sent, fun request' hbody' => ?_, fun _ _ _ _ => ⟨request, hbody⟩⟩
    obtain rfl : request = request' := by
      rw [hbody] at hbody'
      cases hbody'
      rfl
    have hlead := hinv.leader request hbody
    refine ⟨hlead.acked, hlead.tracks, fun answer hmem => ?_⟩
    rcases mem_append.mp hmem with hmem | hmem
    · exact hlead.answers answer hmem
    · exact hans answer hmem
  | requestVoteRequest request =>
    have hbody : call.request.body = .requestVoteRequest request := hreq ▸ rfl
    refine ⟨hinv.sent, fun request' hbody' => ?_, fun answer hmem response hresp => ?_⟩
    · rw [hbody] at hbody'
      cases hbody'
    · rcases mem_append.mp hmem with hmem | hmem
      · exact hinv.kind answer hmem response hresp
      · obtain ⟨vote, hvote⟩ := body_of_mem_sentIn config (hsent answer hmem)
        rw [hvote] at hresp
        cases hresp
  | appendEntriesResponse response | requestVoteResponse response => cases hisR

theorem CallsRel.called (hrun : s.cluster.MayRun id op)
    (hmem : message ∈ sentIn (op.run config id (s.cluster.nodes id)).effects)
    (hclu : ClusterRel cluster' a') (hgrow : Grows a a') (hnet : message ∈ cluster'.network)
    (htra : ∀ request, message.body = .appendEntriesRequest request → message.source = id →
      message.incarnation = (cluster'.nodes id).incarnation →
      request.term = (cluster'.nodes id).log.currentTerm →
      Tracks ((s.cluster.nodes id).peers message.target).matchIndex
        ((cluster'.nodes id).progress message.target)) :
    CallInv cluster' a' (s.opened id message) := by
  refine ⟨hnet, fun request hbody => ?_, nofun⟩
  have hbody : message.body = .appendEntriesRequest request := hbody
  have hcall := h.cluster.isCall config hrun hmem (by rw [isRequest, hbody])
  have hsrc : message.source = id := by
    rw [← hcall.caller, caller, hbody]
  obtain ⟨hterm, hrole⟩ := hcall.leader request.term (by rw [leaderTerm, hbody])
  have hne : message.target ≠ id := fun heq =>
    (hclu.network message hnet).ne (hsrc.trans heq.symm)
  refine ⟨?_, ?_, nofun⟩
  · have hmat := ((h.cluster.volatile id).leader hrole).match_le _ hne
    rw [← hterm] at hmat
    exact hmat.trans (hgrow.acked _ _).length_le
  · show message.incarnation = (cluster'.nodes message.source).incarnation →
      request.term = (cluster'.nodes message.source).log.currentTerm →
      Tracks _ ((cluster'.nodes message.source).progress message.target)
    rw [hsrc]
    exact htra request hbody hsrc

variable [DecidableEq Payload]

theorem CallsRel.after (hmay : s.MayUse k id op = true)
    (hrun : s.cluster.MayRun id op) (hsent : ∀ message ∈ sent,
      message ∈ sentIn (op.run config id (s.cluster.nodes id)).effects)
    (hclu : ClusterRel cluster' a') (hgrow : Grows a a') (hheld : AckedHeld a')
    (hnod : cluster'.nodes = Function.update s.cluster.nodes id node')
    (hnet : cluster'.network = s.cluster.network ++ sent)
    (hgap : ∀ id', (node'.progress id').1 < (node'.progress id').2)
    (hself : ∀ message ∈ cluster'.network, ∀ request,
      message.body = .appendEntriesRequest request → message.source = id →
      message.incarnation = node'.incarnation → request.term = node'.log.currentTerm →
      message.incarnation = (s.cluster.nodes id).incarnation ∧
        request.term = (s.cluster.nodes id).log.currentTerm ∧
        ∀ known, Tracks known ((s.cluster.nodes id).progress message.target) →
          Tracks known (node'.progress message.target)) :
    CallsRel (s.after k id op cluster') a' := by
  -- the calls that were open stay as they are, only the caller's progress moves
  have hkept : ∀ call ∈ s.calls, CallInv cluster' a' call := by
    intro call hcall
    have hinv := h.calls call hcall
    have hmem : call.request ∈ cluster'.network := hnet ▸ mem_append_left _ hinv.sent
    refine ⟨hmem, fun request hbody => ?_, hinv.kind⟩
    rw [hnod]
    refine (hinv.leader request hbody).update hgrow fun hsrc hinc hterm => ?_
    obtain ⟨hinc', hterm', htra⟩ := hself _ hmem request hbody hsrc hinc hterm
    rw [← hsrc] at hinc' hterm' htra
    exact htra _ ((hinv.leader request hbody).tracks hinc' hterm')
  have hdrop : cluster'.network.drop s.cluster.network.length = sent := by
    rw [hnet, drop_left]
  refine ⟨hclu, hheld, ?_, ?_⟩
  · show ∀ id' id'', ((cluster'.nodes id').progress id'').1 < ((cluster'.nodes id').progress id'').2
    intro id'
    rw [hnod]
    by_cases hid : id' = id
    · rw [hid, Function.update_self]
      exact hgap
    · rw [Function.update_of_ne hid]
      exact h.gap id'
  · show ∀ call ∈ s.record k id (cluster'.network.drop s.cluster.network.length) op,
      CallInv cluster' a' call
    rw [hdrop]
    have hnew : ∀ call ∈ s.calls ++ sent.map (s.opened id), CallInv cluster' a' call := by
      intro call hcall
      rcases mem_append.mp hcall with hcall | hcall
      · exact hkept call hcall
      · obtain ⟨message, hmem, rfl⟩ := mem_map.mp hcall
        have hmem' : message ∈ cluster'.network := hnet ▸ mem_append_right _ hmem
        refine h.called hrun (hsent message hmem) hclu hgrow hmem' ?_
        rw [hnod, Function.update_self]
        intro request hbody hsrc hinc hterm
        obtain ⟨-, -, htra⟩ := hself _ hmem' request hbody hsrc hinc hterm
        exact htra _ ⟨le_rfl, .inl rfl⟩
    have hcl : ∀ call ∈ s.calls.modify k fun call => { call with pending := false },
        CallInv cluster' a' call := by
      refine forall_mem_modify hkept fun call hcall => ?_
      have hinv := hkept call (mem_of_getElem? hcall)
      exact ⟨hinv.sent, fun request hbody => { hinv.leader request hbody with }, hinv.kind⟩
    cases op with
    | receive message =>
      simp only [CallCluster.record]
      split
      · rename_i hisR
        refine forall_mem_modify hkept fun call hcall => ?_
        have hmem := mem_of_getElem? hcall
        refine h.answered hrun hisR hmem ?_ (hkept call hmem) hsent
        simpa [CallCluster.MayUse, hcall, hisR] using hmay
      · exact hcl
    | callFailed peer isAppendEntries => exact hcl
    | _ => exact hnew

end

end Step

section Step

variable [DecidableEq Payload] (config : Config Payload) {s s' : CallCluster size Payload Handle}
  {a : Ghost size Payload} {k : Nat} {op : Op size Payload}

theorem CallsRel.run (h : CallsRel s a) (hmay : s.MayUse k id op = true)
    (hrun : s.cluster.MayRun id op)
    (hres : (op.run config id (s.cluster.nodes id)).result = .ok ((), node')) :
    ∃ a', CallsRel (s.after k id op ((s.cluster.absorbAll id
      (op.run config id (s.cluster.nodes id)).effects).setNode id node')) a' := by
  obtain ⟨a', hmov, hkept, hrel⟩ := h.cluster.run config hrun hres
  have hgrow := (frame hmov h.cluster.inv).toGrows
  have hheld := ackedHeld hmov h.cluster.inv h.held
  have hnet : ((s.cluster.absorbAll id
      (op.run config id (s.cluster.nodes id)).effects).setNode id node').network =
        s.cluster.network ++ sentIn (op.run config id (s.cluster.nodes id)).effects :=
    absorbAll_network ..
  refine ⟨a', h.after hmay hrun (fun _ hmem => hmem) hrel hgrow hheld
    (nodes_absorbAll_setNode ..) hnet
    (fun id' => (Op.moves config hres id').lt (h.gap id id')) ?_⟩
  intro message hmem request hbody hsrc hinc hterm
  have hlead : message.incarnation = (s.cluster.nodes id).incarnation ∧
      request.term = (s.cluster.nodes id).log.currentTerm ∧
      (s.cluster.nodes id).role = .Leader := by
    rw [hnet] at hmem
    rcases mem_append.mp hmem with hmem | hmem
    · exact h.cluster.of_kept hkept hmem hbody hsrc hinc hterm
    · have hcall := h.cluster.isCall config hrun hmem (by rw [isRequest, hbody])
      exact ⟨hcall.incarnation, hcall.leader request.term (by rw [leaderTerm, hbody])⟩
  refine ⟨hlead.1, hlead.2.1, fun known htra => ?_⟩
  refine (Op.moves config hres message.target).tracks ?_ htra
  rw [hlead.2.2]
  nofun

theorem CallsRel.crash {count : Nat} (h : CallsRel s a) (hmay : s.MayUse k id op = true)
    (hrun : s.cluster.MayRun id op) :
    ∃ a', CallsRel (s.after k id op ((s.cluster.absorbAll id
      ((op.run config id (s.cluster.nodes id)).effects.take count)).restart id)) a' := by
  obtain ⟨a', hmov, hrel⟩ := h.cluster.crash config hrun count
  have hgrow := (frame hmov h.cluster.inv).toGrows
  have hheld := ackedHeld hmov h.cluster.inv h.held
  have hsent : ∀ message ∈ sentIn ((op.run config id (s.cluster.nodes id)).effects.take count),
      message ∈ sentIn (op.run config id (s.cluster.nodes id)).effects := by
    intro message hmem
    exact mem_sentIn.mpr (mem_of_mem_take (mem_sentIn.mp hmem))
  have hnet : ((s.cluster.absorbAll id
      ((op.run config id (s.cluster.nodes id)).effects.take count)).restart id).network =
        s.cluster.network ++
          sentIn ((op.run config id (s.cluster.nodes id)).effects.take count) :=
    absorbAll_network ..
  refine ⟨a', h.after hmay hrun hsent hrel hgrow hheld (nodes_absorbAll_restart ..)
    hnet (fun _ => Nat.one_pos) ?_⟩
  -- no call belongs to the process that has just started
  intro message hmem request hbody hsrc hinc
  have hle : message.incarnation ≤ (s.cluster.nodes id).incarnation := by
    rw [hnet] at hmem
    rcases mem_append.mp hmem with hmem | hmem
    · have hcall : message.caller = id := by
        rw [← hsrc, caller, hbody]
      exact hcall ▸ (h.cluster.calls message hmem).incarnation_le
    · exact (h.cluster.isCall config hrun (hsent message hmem)
        (by rw [isRequest, hbody])).incarnation.le
  have hinc : message.incarnation = (s.cluster.nodes id).incarnation + 1 := hinc
  omega

theorem CallsRel.step (h : CallsRel s a) {label : Nat × Label size Payload Handle}
    (hstep : s.step config label = some s') : ∃ a', CallsRel s' a' := by
  rcases label with ⟨k, label⟩
  cases label with
  | run id op =>
    simp only [CallCluster.step] at hstep
    split at hstep
    · rename_i hmay
      obtain ⟨cluster', hclu, rfl⟩ := map_eq_some_iff.mp hstep
      rcases step_inv config hclu with ⟨id', op', node', heq, hrun, hres, rfl⟩ |
        ⟨_, _, _, heq, _⟩ | ⟨_, _, heq, _⟩
      · cases heq
        exact h.run config hmay hrun hres
      · cases heq
      · cases heq
    · cases hstep
  | crash id op count =>
    simp only [CallCluster.step] at hstep
    split at hstep
    · rename_i hmay
      obtain ⟨cluster', hclu, rfl⟩ := map_eq_some_iff.mp hstep
      rcases step_inv config hclu with ⟨_, _, _, heq, _⟩ |
        ⟨id', op', count', heq, hrun, rfl⟩ | ⟨_, _, heq, _⟩
      · cases heq
      · cases heq
        exact h.crash config hmay hrun
      · cases heq
    · cases hstep
  | enqueueClientRequests id requests =>
    cases hstep
    refine ⟨a, h.cluster.enqueue requests, h.held, fun id' => ?_, fun call hcall => ?_⟩
    · by_cases hid : id' = id
      · subst hid
        simpa [setNode, Node.progress] using h.gap id'
      · simpa [setNode, hid] using h.gap id'
    · have hinv := h.calls call hcall
      refine ⟨hinv.sent, fun request hbody => ?_, hinv.kind⟩
      refine (hinv.leader request hbody).update (Grows.refl a) fun hsrc hinc hterm => ?_
      subst hsrc
      exact (hinv.leader request hbody).tracks hinc hterm

omit [DecidableEq Payload] in
theorem CallsRel.initial : CallsRel (CallCluster.initial : CallCluster size Payload Handle)
    State.initial where
  cluster := ClusterRel.initial
  held _ := nil_prefix
  gap _ _ := Nat.one_pos
  calls := nofun

theorem exists_callsRel (hr : (CallCluster.system config).Reachable s) : ∃ a, CallsRel s a := by
  refine System.Reachable.invariant (fun s => ∃ a, CallsRel s a) ?_ ?_ hr
  · intro s hi
    rw [show s = CallCluster.initial from hi]
    exact ⟨State.initial, CallsRel.initial⟩
  · rintro s s' ⟨a, hrel⟩ ⟨label, hs⟩
    exact hrel.step config hs

end Step

/-! ## The checks on answers -/

namespace CallCluster

/-- The step handles a rejection that counts, although since its call was made the match
index has moved. -/
def Overtaken (s : CallCluster size Payload Handle) (k : Nat) (id : Fin size) :
    Op size Payload → Bool
  | .receive message =>
    match message.body, s.calls[k]? with
    | .appendEntriesResponse response, some call =>
      Handler.Counts (s.cluster.nodes id) response ∧ response.success = false ∧
        call.matchIndex ≠ ((s.cluster.nodes id).peers response.id).matchIndex
    | _, _ => false
  | _ => false

end CallCluster

theorem receive_answer_eq (config : Config Payload)
    (hb : message.body = .appendEntriesResponse response) (node : Node size Payload Handle) :
    receive id config message node = handleAppendEntriesResponse config response
      (node.withPeer message.source { node.peers message.source with switch := true }) := by
  unfold receive
  rw [hb]
  rfl

/-- The checks on an answer that counts, when `known` was the match index at its call. -/
theorem checks_of_counts (config : Config Payload) (hcnt : Handler.Counts node response)
    (hrole : node.role = .Leader) (hrel : AnswerRel response.id known request response)
    (htra : Tracks known (node.progress response.id))
    (hgap : (node.progress response.id).1 < (node.progress response.id).2) :
    (∀ check ∈ Check.ofAnswers,
      (handleAppendEntriesResponse config response node).result ≠ .error check) ↔
      ¬ (response.success = false ∧ known ≠ (node.peers response.id).matchIndex) := by
  rw [result_handleAppendEntriesResponse config hcnt hrole]
  obtain ⟨hterm, hle, hprev⟩ := hcnt
  rw [hrel.savedPrevLogIndex_eq] at hprev
  have hsav := hrel.savedTerm_eq
  have hresp : response.term = request.term := by
    have := hrel.term_le
    omega
  simp only [Node.progress, Tracks] at hgap htra
  cases hsuc : response.success with
  | true =>
    have hinc : (node.peers response.id).matchIndex ≤ response.matchIndex := by
      have := hrel.success hsuc
      omega
    simp [hinc]
  | false =>
    obtain ⟨hcov, hlt⟩ := hrel.refused hsuc hresp
    by_cases hkn : known = (node.peers response.id).matchIndex
    · have hgap' : (node.peers response.id).matchIndex + 1 <
        (node.peers response.id).nextIndex := by
        omega
      simp [hkn, hkn ▸ hcov, hgap']
    · -- an answer has come since, and has left no gap
      have hnext := htra.2.resolve_left hkn
      by_cases hcov' : (node.peers response.id).matchIndex ≤ response.lastLogIndex
      · simp [hkn, hcov', hnext, Check.ofAnswers]
      · simp [hkn, hcov', Check.ofAnswers]

section Checks

variable [DecidableEq Payload] {config : Config Payload} {s : CallCluster size Payload Handle}
  {a : Ghost size Payload} {k : Nat} {id : Fin size}

theorem CallsRel.exists_call (h : CallsRel s a) (hmay : s.MayUse k id (.receive message) = true)
    (hrun : s.cluster.MayRun id (.receive message))
    (hbody : message.body = .appendEntriesResponse response) :
    ∃ (call : Call size Payload) (request : AppendEntriesRequest size Payload),
      s.calls[k]? = some call ∧ AnswerRel response.id call.matchIndex request response ∧
      (request.term = (s.cluster.nodes id).log.currentTerm →
        Tracks call.matchIndex ((s.cluster.nodes id).progress response.id)) := by
  have hisR : message.isRequest = false := by rw [isRequest, hbody]
  cases hcall : s.calls[k]? with
  | none => simp [CallCluster.MayUse, hcall] at hmay
  | some call =>
    have hans : message ∈ call.answers := by
      simp only [CallCluster.MayUse, hcall, hisR] at hmay
      simp at hmay
      exact hmay.2
    have hinv := h.calls call (mem_of_getElem? hcall)
    obtain ⟨request, hreq⟩ := hinv.kind message hans response hbody
    have hlead := hinv.leader request hreq
    obtain ⟨response', htgt, hinc, hbody', hrel⟩ := hlead.answers message hans
    obtain rfl : response = response' := by
      rw [hbody] at hbody'
      cases hbody'
      rfl
    obtain ⟨-, hid, hincarnation⟩ := hrun
    have hsrc : call.request.source = id := htgt.symm.trans hid
    have hcaller : message.caller = id := by
      rw [← hid, caller, hbody]
    refine ⟨call, request, rfl, hrel.id_eq ▸ hrel, fun hterm => ?_⟩
    have htra := hlead.tracks
    rw [hsrc, ← hinc, ← hrel.id_eq] at htra
    exact htra (hincarnation hcaller) hterm

/-- An answer that counts passes the checks unless it was overtaken. -/
theorem CallsRel.checks_answer (h : CallsRel s a) (hmay : s.MayUse k id (.receive message) = true)
    (hrun : s.cluster.MayRun id (.receive message))
    (hbody : message.body = .appendEntriesResponse response) :
    (∀ check ∈ Check.ofAnswers,
      (receive id config message (s.cluster.nodes id)).result ≠ .error check) ↔
      s.Overtaken k id (.receive message) = false := by
  obtain ⟨call, request, hcall, hrel, htra⟩ := h.exists_call hmay hrun hbody
  have hgap := h.gap id response.id
  have hlead := (h.cluster.received hrun).2.2
  have hover : s.Overtaken k id (.receive message) = false ↔
      ¬ (Handler.Counts (s.cluster.nodes id) response ∧ response.success = false ∧
        call.matchIndex ≠ ((s.cluster.nodes id).peers response.id).matchIndex) := by
    simp only [CallCluster.Overtaken, hbody, hcall, decide_eq_false_iff_not]
  rw [hover, receive_answer_eq config hbody]
  generalize s.cluster.nodes id = node at *
  generalize hon : node.withPeer message.source { node.peers message.source with switch := true } =
    on
  have hprog : on.progress = node.progress := hon ▸ progress_withPeer node rfl rfl
  obtain ⟨hmat, hnext⟩ : (on.peers response.id).matchIndex = (node.peers response.id).matchIndex ∧
      (on.peers response.id).nextIndex = (node.peers response.id).nextIndex :=
    Prod.mk.injEq .. ▸ congrFun hprog response.id
  have hcoun : Handler.Counts on response ↔ Handler.Counts node response := by
    rw [Handler.Counts, Handler.Counts, hnext, ← hon]
    rfl
  by_cases hcnt : Handler.Counts node response
  · have hreq : request.term = node.log.currentTerm :=
      hrel.savedTerm_eq.symm.trans hcnt.1.symm
    have hcaller : message.caller = id := by
      rw [← hrun.2.1, caller, hbody]
    have hrole : on.role = .Leader := by
      rw [← hon]
      refine hlead hcaller response.savedTerm ?_ hcnt.1.symm
      rw [leaderTerm, hbody]
    have htra := htra hreq
    rw [← hprog] at hgap htra
    rw [checks_of_counts config (hcoun.mpr hcnt) hrole hrel htra hgap, hmat]
    exact not_congr ⟨fun hrej => ⟨hcnt, hrej⟩, fun hover => hover.2⟩
  · have hkeep := keeps_of_not_counts config (mt hcoun.mp hcnt)
    refine iff_of_true (fun check hmem herr => hkeep.1 check herr hmem) ?_
    exact fun hover => hcnt hover.1

/-- In every state that is reached, whatever a node does next: the three checks on answers
hold if and only if the step does not handle a rejection that was overtaken. -/
theorem answer_checks_hold_iff (hreachable : (CallCluster.system config).Reachable s)
    {op : Op size Payload} (hmay : s.MayUse k id op = true) (hrun : s.cluster.MayRun id op) :
    (∀ check ∈ Check.ofAnswers, (op.run config id (s.cluster.nodes id)).result ≠ .error check) ↔
      s.Overtaken k id op = false := by
  obtain ⟨a, h⟩ := exists_callsRel config hreachable
  have hspar : (∀ check, (op.run config id (s.cluster.nodes id)).result = .error check →
      check ∉ Check.ofAnswers) → s.Overtaken k id op = false →
      ((∀ check ∈ Check.ofAnswers, (op.run config id (s.cluster.nodes id)).result ≠ .error check) ↔
        s.Overtaken k id op = false) :=
    fun hchk hnot => iff_of_true (fun check hmem herr => hchk check herr hmem) hnot
  by_cases hmov : op.MovesProgress
  · cases op with
    | receive message =>
      obtain ⟨response, hbody⟩ := hmov
      exact h.checks_answer hmay hrun hbody
    | becomeLeader noop =>
      exact hspar ((spares_becomeLeader id noop).checks _) rfl
    | _ => exact hmov.elim
  · refine hspar ((Op.holds config id hmov).checks _) ?_
    cases op with
    | receive message =>
      rcases message with ⟨source, target, incarnation, body⟩
      cases body with
      | appendEntriesResponse response => exact absurd ⟨response, rfl⟩ hmov
      | _ => rfl
    | _ => rfl

end Checks

/-! ## A rejection that comes late -/

/-- Batches of one entry. -/
def oneByOne : Config Unit where
  maxBatchSize := 1
  maxLenInBytes := 100
  maxDecrStep := 1
  byteSize _ := 1

/-- A leader sends to node 1 if its switch is open. -/
def sendToOne : Op 3 Unit := .appendEntries (fun id => id = 1) fun _ => 10

def rejection : Message 3 Unit :=
  ⟨1, 0, 0, .appendEntriesResponse ⟨3, false, 1, 3, 1, 0, 0⟩⟩

/-- Node 0 has written one entry in term 1 and is elected in term 3 by node 2. It calls
node 1; the vote of node 1 arrives, and it calls node 1 again. Node 1 rejects both. -/
def twoCalls : List (Nat × Label 3 Unit Unit) :=
  [ (0, .run 0 .electionTimeout), (0, .run 0 (.requestVote fun id => id = 2)),
    (0, .run 2 (.receive ⟨0, 2, 0, .requestVoteRequest ⟨1, 0, 0, 0⟩⟩)),
    (0, .run 0 (.receive ⟨2, 0, 0, .requestVoteResponse ⟨1, true, 2, 1⟩⟩)),
    (0, .run 0 (.becomeLeader ())),
    (0, .run 0 .leadershipTimeout),
    (0, .run 0 .electionTimeout),
    (0, .run 0 (.requestVote fun _ => true)),
    (1, .run 1 (.receive ⟨0, 1, 0, .requestVoteRequest ⟨3, 0, 1, 1⟩⟩)),
    (2, .run 2 (.receive ⟨0, 2, 0, .requestVoteRequest ⟨3, 0, 1, 1⟩⟩)),
    (2, .run 0 (.receive ⟨2, 0, 0, .requestVoteResponse ⟨3, true, 2, 3⟩⟩)),
    (0, .run 0 (.becomeLeader ())),
    (0, .run 0 sendToOne),
    (1, .run 0 (.receive ⟨1, 0, 0, .requestVoteResponse ⟨3, true, 1, 3⟩⟩)),
    (0, .run 0 sendToOne),
    (3, .run 1 (.receive ⟨0, 1, 0, .appendEntriesRequest ⟨3, 0, 1, 1, [], 0⟩⟩)),
    (4, .run 1 (.receive ⟨0, 1, 0, .appendEntriesRequest ⟨3, 0, 1, 1, [], 0⟩⟩)) ]

/-- The second rejection arrives, and node 1 is brought up to the entry of term 1. -/
def caughtUp : List (Nat × Label 3 Unit Unit) :=
  [ (4, .run 0 (.receive rejection)), (0, .run 0 sendToOne),
    (5, .run 1 (.receive ⟨0, 1, 0, .appendEntriesRequest ⟨3, 0, 0, 0, [], 0⟩⟩)),
    (5, .run 0 (.receive ⟨1, 0, 0, .appendEntriesResponse ⟨3, true, 1, 3, 0, 0, 0⟩⟩)),
    (0, .run 0 sendToOne),
    (6, .run 1 (.receive ⟨0, 1, 0, .appendEntriesRequest ⟨3, 0, 0, 0, [⟨1, 1, true, ()⟩], 0⟩⟩)),
    (6, .run 0 (.receive ⟨1, 0, 0, .appendEntriesResponse ⟨3, true, 1, 3, 0, 1, 1⟩⟩)) ]

def afterTwoCalls : CallCluster 3 Unit Unit :=
  (CallCluster.initial.run oneByOne twoCalls).getD CallCluster.initial

def afterCaughtUp : CallCluster 3 Unit Unit :=
  (afterTwoCalls.run oneByOne caughtUp).getD CallCluster.initial

theorem run_twoCalls : (CallCluster.initial.run oneByOne twoCalls).isSome = true ∧
      afterTwoCalls.MayUse 3 0 (.receive rejection) = true ∧
      afterTwoCalls.cluster.MayRun 0 (.receive rejection) ∧
      afterTwoCalls.Overtaken 3 0 (.receive rejection) = false := by
  decide +kernel

theorem run_caughtUp : (afterTwoCalls.run oneByOne caughtUp).isSome = true ∧
      afterCaughtUp.MayUse 3 0 (.receive rejection) = true ∧
      afterCaughtUp.cluster.MayRun 0 (.receive rejection) ∧
      ¬ afterCaughtUp.Overtaken 3 0 (.receive rejection) = false := by
  decide +kernel

theorem reachable_afterTwoCalls : (CallCluster.system oneByOne).Reachable afterTwoCalls :=
  ⟨CallCluster.initial, rfl, System.runs_of_isSome _ run_twoCalls.1⟩

theorem reachable_afterCaughtUp : (CallCluster.system oneByOne).Reachable afterCaughtUp :=
  reachable_afterTwoCalls.runs (System.runs_of_isSome _ run_caughtUp.1)

/-- In time, either rejection is fine. -/
theorem answer_checks_hold_inTime : afterTwoCalls.MayUse 3 0 (.receive rejection) = true ∧
      afterTwoCalls.cluster.MayRun 0 (.receive rejection) ∧
      ∀ check ∈ Check.ofAnswers,
        ((Op.receive rejection).run oneByOne 0 (afterTwoCalls.cluster.nodes 0)).result ≠
          .error check := by
  obtain ⟨-, hm, hr, ho⟩ := run_twoCalls
  exact ⟨hm, hr, (answer_checks_hold_iff reachable_afterTwoCalls hm hr).mpr ho⟩

/-- Late, the first one stops the leader. -/
theorem answer_checks_fail_late : (CallCluster.system oneByOne).Reachable afterCaughtUp ∧
      afterCaughtUp.MayUse 3 0 (.receive rejection) = true ∧
      afterCaughtUp.cluster.MayRun 0 (.receive rejection) ∧
      ¬ ∀ check ∈ Check.ofAnswers,
        ((Op.receive rejection).run oneByOne 0 (afterCaughtUp.cluster.nodes 0)).result ≠
          .error check := by
  obtain ⟨-, hm, hr, ho⟩ := run_caughtUp
  obtain ⟨a, h⟩ := exists_callsRel oneByOne reachable_afterCaughtUp
  refine ⟨reachable_afterCaughtUp, hm, hr, fun hc => ?_⟩
  exact ho ((h.checks_answer hm hr rfl).mp hc)

end MySuperLedger.Raft
