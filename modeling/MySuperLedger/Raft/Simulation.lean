import MySuperLedger.Raft.Cluster
import MySuperLedger.Raft.Replication

/-! # The cluster follows the protocol

Every step of the cluster, complete or cut short by a crash, is matched by steps
of the abstract protocol.
-/

namespace MySuperLedger.Raft

open Consensus Effects Effects.Logic Transition List Function

variable {size : Nat} {Payload Handle : Type}

/-- The answers a step may give: to the call it received. -/
def Op.Answers (op : Op size Payload) (message : Message size Payload) : Prop :=
  match op with
  | .receive call => message.caller = call.caller ∧ message.incarnation = call.incarnation ∧
      message.leaderTerm = call.leaderTerm
  | _ => False

/-- What a node may write as a leader: its first entry is empty, the others are asked for. -/
def Node.supply (node : Node size Payload Handle) : Supply Payload :=
  fun base own entry => entry.index = (base ++ own).length + 1 ∧ (own = [] ∧ entry.noop = true ∨
      ∃ requests ∈ node.clientRequestsQueue, ∃ request ∈ requests, request.entry = entry)

def Op.start (me : Fin size) (node : Node size Payload Handle) (op : Op size Payload) :
    Start size Payload where
  log := node.log
  maySend message := IsCall me node message ∨ op.Answers message
  supply := node.supply

/-- What a step needs to know about the message it receives. -/
def Op.Received (me : Fin size) (node : Node size Payload Handle) (a : Ghost size Payload) :
    Op size Payload → Prop
  | .receive message => MessageRel message a ∧ message.target = me ∧
      (message.caller = me → ∀ term, message.leaderTerm = some term →
        term = node.log.currentTerm → node.role = .Leader)
  | _ => True

structure Performed (me : Fin size) (start : Start size Payload) (node : Node size Payload Handle)
    (node' : Node size Payload Handle) (es' : List (Effect size Payload Handle))
    (a' : Ghost size Payload) : Prop where
  working : Working me start node'.log es' a'
  volatile : VolatileRel me node' a'
  kept : Kept node node'

section Step

variable {me : Fin size} {start : Start size Payload} {node : Node size Payload Handle}
  {es : List (Effect size Payload Handle)} {a : Ghost size Payload}
  {node' : Node size Payload Handle} {es' : List (Effect size Payload Handle)}
  {a' : Ghost size Payload}

theorem Handled.performed (h : Handled me start node es a node' es' a') :
    Performed me start node node' es' a' :=
  { h with }

theorem Calling.performed (h : Calling me start node node' es' a') :
    Performed me start node node' es' a' := by
  exact ⟨h.working, h.volatile, .of_role h.incarnation_eq (by rw [h.log_eq]) h.role_eq
    h.commit_eq.ge h.queue_eq⟩

theorem wp_receive (config : Config Payload) {message : Message size Payload}
    (h : Working me start node.log es a) (hv : VolatileRel me node a)
    (hrec : Op.Received me node a (.receive message))
    (hmay : ∀ answer, Op.Answers (.receive message) answer → start.maySend answer) :
    (raftLogic me start).Wp (Handler.receive me config message)
      (fun _ => Performed me start node) node es a := by
  rcases message with ⟨source, target, incarnation, body⟩
  rcases hrec with ⟨⟨hne, hbody⟩, rfl, hlead⟩
  cases body with
  | appendEntriesRequest request =>
    apply Wp.bind
    apply (wp_handleAppendEntriesRequest h hv hne hbody).mono
    intro response node' es' a' hpost
    rcases response with _ | response
    · exact Wp.pure hpost.1.performed
    · have hresp := hpost.2 response rfl
      refine wp_send hpost.1.working ⟨Ne.symm hne, hresp.2⟩ (hmay _ ⟨rfl, rfl, ?_⟩) ?_
      · exact congrArg some hresp.1
      · exact fun es'' hw => ⟨hw, hpost.1.volatile, hpost.1.kept⟩
  | appendEntriesResponse response =>
    apply Wp.bind
    apply (wp_switchOn h hv).mono
    intro _ node' es' a' hpost
    rcases hpost with ⟨rfl, rfl, rfl, hh⟩
    refine (wp_handleAppendEntriesResponse hh.working hh.volatile config hbody ?_).mono ?_
    · exact fun hterm => hlead rfl _ rfl hterm.symm
    · exact fun _ _ _ _ hpost => (hh.trans hpost).performed
  | requestVoteRequest request =>
    apply Wp.bind
    apply (wp_handleRequestVoteRequest h hv hbody).mono
    intro response node' es' a' hpost
    rcases response with _ | response
    · exact Wp.pure hpost.1.performed
    · refine wp_send hpost.1.working ⟨Ne.symm hne, hpost.2 response rfl⟩ (hmay _ ⟨rfl, rfl, rfl⟩) ?_
      exact fun es'' hw => ⟨hw, hpost.1.volatile, hpost.1.kept⟩
  | requestVoteResponse response =>
    apply Wp.bind
    apply (wp_switchOn h hv).mono
    intro _ node' es' a' hpost
    rcases hpost with ⟨rfl, rfl, _, hh⟩
    apply (wp_handleRequestVoteResponse hh.working hh.volatile hbody).mono
    exact fun _ _ _ _ hpost => (hh.trans hpost).performed

theorem wp_op (config : Config Payload) {op : Op size Payload}
    (h : Working me start node.log es a) (hv : VolatileRel me node a) (hrec : op.Received me node a)
    (hmay : ∀ message, IsCall me node message ∨ op.Answers message → start.maySend message)
    (hsup : ∀ base own entry, node.supply base own entry → start.supply base own entry) :
    (raftLogic me start).Wp (op.run config me) (fun _ => Performed me start node) node es a := by
  have hcall : ∀ message, IsCall me node message → start.maySend message :=
    fun message hm => hmay message (.inl hm)
  cases op with
  | appendEntries due room =>
    apply (wp_appendEntries h hv config due room hcall).mono
    exact fun _ _ _ _ hpost => hpost.performed
  | requestVote due =>
    apply (wp_requestVote h hv due hcall).mono
    exact fun _ _ _ _ hpost => hpost.performed
  | receive message =>
    exact wp_receive config h hv hrec (fun answer ha => hmay answer (.inr ha))
  | callFailed id isAppendEntries =>
    apply (wp_callFailed h hv id isAppendEntries).mono
    exact fun _ _ _ _ hpost => hpost.performed
  | receiveClientRequests =>
    refine (wp_receiveClientRequests h hv ?_).mono fun _ _ _ _ hpost => hpost.performed
    intro base own requests hreqs request hreq hidx
    exact hsup base own _ ⟨hidx, .inr ⟨requests, hreqs, request, hreq, rfl⟩⟩
  | advanceCommitIndex =>
    apply (wp_advanceCommitIndex h hv).mono
    exact fun _ _ _ _ hpost => hpost.performed
  | becomeLeader noop =>
    refine (wp_becomeLeader h hv noop ?_).mono fun _ _ _ _ hpost => hpost.performed
    intro base entry hnoop hidx
    exact hsup base [] _ ⟨by simpa using hidx, .inl ⟨rfl, hnoop⟩⟩
  | electionTimeout =>
    apply (wp_electionTimeout h hv).mono
    exact fun _ _ _ _ hpost => hpost.performed
  | leadershipTimeout =>
    apply (wp_leadershipTimeout h hv).mono
    exact fun _ _ _ _ hpost => hpost.performed

end Step

/-- A call is not from the future of its caller, and a leader's call finds it still leading
for as long as its term and its process last. -/
structure CallRel (nodes : Fin size → Node size Payload Handle)
    (message : Message size Payload) : Prop where
  incarnation_le : message.incarnation ≤ (nodes message.caller).incarnation
  leader : ∀ term, message.leaderTerm = some term →
    message.incarnation = (nodes message.caller).incarnation →
    term = (nodes message.caller).log.currentTerm → (nodes message.caller).role = .Leader

structure ClusterRel (cluster : Cluster size Payload Handle) (a : Ghost size Payload) :
    Prop where
  inv : GhostInv a
  log : ∀ id, LogRel id (cluster.nodes id).log a
  volatile : ∀ id, VolatileRel id (cluster.nodes id) a
  network : ∀ message ∈ cluster.network, MessageRel message a
  calls : ∀ message ∈ cluster.network, CallRel cluster.nodes message

variable {message : Message size Payload}

theorem MessageRel.elected {a : Ghost size Payload} (h : MessageRel message a) {term : Nat}
    (ht : message.leaderTerm = some term) :
    ∃ base, a.elected term = some (message.caller, base) := by
  rcases message with ⟨source, target, incarnation, body⟩
  cases body with
  | appendEntriesRequest request | appendEntriesResponse response =>
    cases ht
    exact h.body.2.1
  | requestVoteRequest request | requestVoteResponse response => cases ht

theorem CallRel.answer {nodes : Fin size → Node size Payload Handle} {call : Message size Payload}
    (h : CallRel nodes call) (ha : Op.Answers (.receive call) message) : CallRel nodes message := by
  rcases ha with ⟨hc, hinc, hterm⟩
  refine ⟨?_, ?_⟩
  · rw [hc, hinc]
    exact h.incarnation_le
  · intro term ht hi
    rw [hc]
    rw [hterm] at ht
    rw [hc, hinc] at hi
    exact h.leader term ht hi

namespace Cluster

section

variable (cluster : Cluster size Payload Handle) (id : Fin size)
  (es : List (Effect size Payload Handle))
include cluster id es

theorem absorbAll_network : (cluster.absorbAll id es).network = cluster.network ++ sentIn es := by
  unfold absorbAll
  induction es generalizing cluster with
  | nil => simp [sentIn]
  | cons e es ih =>
    rw [foldl_cons, ih]
    cases e <;> simp [absorb, setNode, sentIn]

theorem absorbAll_nodes : (cluster.absorbAll id es).nodes = update cluster.nodes id
      { cluster.nodes id with log := logAfter (cluster.nodes id).log es } := by
  unfold absorbAll
  induction es generalizing cluster with
  | nil => simp [logAfter]
  | cons e es ih =>
    rw [foldl_cons, ih]
    cases e <;> simp [absorb, setNode, logAfter]

theorem nodes_absorbAll_setNode (node : Node size Payload Handle) :
    ((cluster.absorbAll id es).setNode id node).nodes =
      update cluster.nodes id node := by
  simp [setNode, absorbAll_nodes]

theorem nodes_absorbAll_restart :
    ((cluster.absorbAll id es).restart id).nodes = update cluster.nodes id
      (Node.start (logAfter (cluster.nodes id).log es) ((cluster.nodes id).incarnation + 1)) := by
  simp [restart, setNode, absorbAll_nodes]

end

end Cluster

section Frame

variable {me id : Fin size} {a a' : Ghost size Payload}

theorem LogRel.frame {log : Log size Payload} (h : LogRel id log a) (hf : Frame me a a')
    (hne : id ≠ me) : LogRel id log a' where
  whole := h.whole
  term := (hf.other_term id hne).trans h.term
  entries := (hf.other_log id hne).trans h.entries
  vote c hc := h.vote c ((hf.other_granted _ id hne).symm.trans hc)
  votes t c hm := hf.granted t id c (h.votes t c hm)

theorem SameFor.of_frame (hf : Frame me a a') (hne : id ≠ me) : SameFor id a a' where
  grows := hf.toGrows
  elected t base hel := hf.other_elected t id base hne hel
  leaderLog t base hel := hf.other_leaderLog t id base hne hel

theorem VolatileRel.restart (log : Log size Payload) (incarnation : Nat) :
    VolatileRel me (Node.start log incarnation : Node size Payload Handle) a where
  commit_le := Nat.zero_le _
  committed := .inl rfl
  leaderId _ hid := nomatch hid
  candidate hc := nomatch hc
  leader hl := nomatch hl

end Frame

section Simulation

variable {cluster : Cluster size Payload Handle} {a a' : Ghost size Payload} {id : Fin size}
  {node' : Node size Payload Handle} {message : Message size Payload} {op : Op size Payload}

/-- Only one caller changed; what it keeps of its own calls has to be shown. -/
theorem CallRel.update {nodes : Fin size → Node size Payload Handle} (h : CallRel nodes message)
    (hs : message.caller = id → message.incarnation ≤ node'.incarnation ∧
      ∀ term, message.leaderTerm = some term → message.incarnation = node'.incarnation →
        term = node'.log.currentTerm → node'.role = .Leader) :
    CallRel (update nodes id node') message := by
  by_cases hid : message.caller = id
  · refine ⟨?_, ?_⟩
    · rw [hid, update_self]
      exact (hs hid).1
    · rw [hid, update_self]
      exact (hs hid).2
  · refine ⟨?_, ?_⟩
    · rw [update_of_ne hid]
      exact h.incarnation_le
    · rw [update_of_ne hid]
      exact h.leader

theorem ClusterRel.calls_kept (h : ClusterRel cluster a)
    (hi : node'.incarnation = (cluster.nodes id).incarnation)
    (hle : (cluster.nodes id).log.currentTerm ≤ node'.log.currentTerm)
    (hl : node'.log.currentTerm = (cluster.nodes id).log.currentTerm →
      (cluster.nodes id).role = .Leader → node'.role = .Leader) (hm : message ∈ cluster.network) :
    CallRel (update cluster.nodes id node') message := by
  have hc := h.calls message hm
  apply hc.update
  rintro rfl
  refine ⟨hc.incarnation_le.trans hi.ge, ?_⟩
  intro term ht hi' hcur
  -- the caller has been in the term of its call, so it has not left it since
  rcases (h.network message hm).elected ht with ⟨base, hel⟩
  have hle' := h.inv.elected_term_le hel
  rw [(h.log _).term] at hle'
  refine hl (by omega) (hc.leader term ht ?_ (by omega))
  rw [hi', hi]

theorem ClusterRel.calls_restart (h : ClusterRel cluster a) (log : Log size Payload)
    (hm : message ∈ cluster.network) :
    CallRel (update cluster.nodes id
      (Node.start log ((cluster.nodes id).incarnation + 1))) message := by
  have hc := h.calls message hm
  apply hc.update
  rintro rfl
  have hle := hc.incarnation_le
  refine ⟨Nat.le_succ_of_le hle, ?_⟩
  intro term _ hi
  have hi' : message.incarnation = (cluster.nodes message.caller).incarnation + 1 := hi
  omega

variable {cluster' : Cluster size Payload Handle}

theorem ClusterRel.update (h : ClusterRel cluster a) {supply : Supply Payload}
    (hmov : Moves id supply a a') (hnod : cluster'.nodes = update cluster.nodes id node')
    (hlog : LogRel id node'.log a') (hv : VolatileRel id node' a')
    (hcall : ∀ message ∈ cluster.network, CallRel (update cluster.nodes id node') message)
    (hnet : ∀ message ∈ cluster'.network, message ∈ cluster.network ∨
      (MessageRel message a' ∧ CallRel (update cluster.nodes id node') message)) :
    ClusterRel cluster' a' := by
  have hfr := NodeRun.frame hmov h.inv
  refine ⟨NodeRun.inv hmov h.inv, ?_, ?_, ?_, ?_⟩
  · intro j
    rw [hnod]
    by_cases hj : j = id
    · subst hj
      simpa using hlog
    · simpa [hj] using (h.log j).frame hfr hj
  · intro j
    rw [hnod]
    by_cases hj : j = id
    · subst hj
      simpa using hv
    · simpa [hj] using (h.volatile j).mono (SameFor.of_frame hfr hj)
  · intro message hm
    rcases hnet message hm with hold | hnew
    · exact (h.network message hold).mono hfr.toGrows
    · exact hnew.1
  · intro message hm
    rw [hnod]
    rcases hnet message hm with hold | hnew
    · exact hcall message hold
    · exact hnew.2

theorem ClusterRel.received (h : ClusterRel cluster a) (hmay : cluster.MayRun id op) :
    op.Received id (cluster.nodes id) a := by
  cases op with
  | receive message =>
    rcases hmay with ⟨hm, ht, hi⟩
    refine ⟨h.network message hm, ht, ?_⟩
    intro hc term hterm hcur
    have hcall := h.calls message hm
    rw [← hc] at hcur ⊢
    exact hcall.leader term hterm (by rw [hc]; exact hi hc) hcur
  | _ => trivial

theorem ClusterRel.wp (config : Config Payload) (h : ClusterRel cluster a)
    (hmay : cluster.MayRun id op) :
    (raftLogic id (op.start id (cluster.nodes id))).Wp (op.run config id)
      (fun _ => Performed id (op.start id (cluster.nodes id)) (cluster.nodes id))
      (cluster.nodes id) [] a :=
  wp_op config (Working.init h.inv (h.log id)) (h.volatile id) (h.received hmay)
    (fun _ hm => hm) fun _ _ _ hs => hs

theorem ClusterRel.call_of_maySend (hm : cluster.MayRun id op)
    (hcalls : ∀ message ∈ cluster.network, CallRel (Function.update cluster.nodes id node') message)
    (hsend : (op.start id (cluster.nodes id)).maySend message)
    (hs : IsCall id (cluster.nodes id) message →
      message.incarnation ≤ node'.incarnation ∧ ∀ term, message.leaderTerm = some term →
        message.incarnation = node'.incarnation → term = node'.log.currentTerm →
        node'.role = .Leader) :
    CallRel (Function.update cluster.nodes id node') message := by
  rcases hsend with hc | ha
  · refine ⟨?_, ?_⟩
    · rw [hc.caller, Function.update_self]
      exact (hs hc).1
    · rw [hc.caller, Function.update_self]
      exact (hs hc).2
  · cases op with
    | receive call => exact (hcalls call hm.1).answer ha
    | _ => cases ha

theorem ClusterRel.run (config : Config Payload) (h : ClusterRel cluster a)
    (hmay : cluster.MayRun id op)
    (hres : (op.run config id (cluster.nodes id)).result = .ok ((), node')) :
    ∃ a', Moves id (cluster.nodes id).supply a a' ∧ Kept (cluster.nodes id) node' ∧
      ClusterRel ((cluster.absorbAll id
        (op.run config id (cluster.nodes id)).effects).setNode id node') a' := by
  rcases (h.wp config hmay).done () node' hres with ⟨a', hmov, hperf⟩
  rw [List.nil_append] at hperf
  have hcalls : ∀ message ∈ cluster.network,
      CallRel (Function.update cluster.nodes id node') message :=
    fun message hm => h.calls_kept hperf.kept.incarnation hperf.kept.term_le
      hperf.kept.leader hm
  refine ⟨a', hmov, hperf.kept, h.update hmov (Cluster.nodes_absorbAll_setNode ..)
    hperf.working.rel hperf.volatile hcalls ?_⟩
  intro message hm
  have hm' : message ∈ cluster.network ++ sentIn (op.run config id (cluster.nodes id)).effects := by
    rwa [← Cluster.absorbAll_network]
  rcases List.mem_append.mp hm' with hold | hnew
  · exact .inl hold
  · have hsent := hperf.working.sent message hnew
    refine .inr ⟨hsent.1, ClusterRel.call_of_maySend hmay hcalls hsent.2 ?_⟩
    intro hcall
    refine ⟨(hcall.incarnation.trans hperf.kept.incarnation.symm).le, ?_⟩
    intro term hterm _ hcur
    rcases hcall.leader term hterm with ⟨heq, hrole⟩
    exact hperf.kept.leader (by omega) hrole

theorem ClusterRel.crash (config : Config Payload) (h : ClusterRel cluster a)
    (hmay : cluster.MayRun id op) (count : Nat) :
    ∃ a', Moves id (cluster.nodes id).supply a a' ∧ ClusterRel ((cluster.absorbAll id
      ((op.run config id (cluster.nodes id)).effects.take count)).restart id) a' := by
  generalize hes : (op.run config id (cluster.nodes id)).effects.take count = es
  have hsafe : ∃ a', Moves id (cluster.nodes id).supply a a' ∧
      Safe id (op.start id (cluster.nodes id)) es a' := by
    by_cases hnil : es = []
    · rw [hnil]
      exact ⟨a, Moves.refl id a, (Working.init h.inv (h.log id)).toSafe⟩
    · have hstop := (h.wp config hmay).stop es (hes ▸ List.take_prefix _ _) hnil
      rwa [List.nil_append] at hstop
  rcases hsafe with ⟨a', hmov, hs⟩
  have hcalls : ∀ message ∈ cluster.network, CallRel (Function.update cluster.nodes id
      (Node.start (logAfter (cluster.nodes id).log es) ((cluster.nodes id).incarnation + 1)))
      message :=
    fun message hm => h.calls_restart _ hm
  refine ⟨a', hmov, h.update hmov (Cluster.nodes_absorbAll_restart ..) hs.logRel
    (VolatileRel.restart _ _) hcalls ?_⟩
  intro message hm
  have hm' : message ∈ cluster.network ++ sentIn es := by
    rwa [← Cluster.absorbAll_network]
  rcases List.mem_append.mp hm' with hold | hnew
  · exact .inl hold
  · have hsent := hs.sent message hnew
    refine .inr ⟨hsent.1, ClusterRel.call_of_maySend hmay hcalls hsent.2 ?_⟩
    -- the calls of the process that stopped do not concern the one that starts
    intro hcall
    have hinc := hcall.incarnation
    refine ⟨hinc.le.trans (Nat.le_succ _), ?_⟩
    intro term _ heq
    have heq' : message.incarnation = (cluster.nodes id).incarnation + 1 := heq
    omega

theorem ClusterRel.enqueue (h : ClusterRel cluster a)
    (requests : List (ClientRequest Payload Handle)) :
    ClusterRel (cluster.setNode id
      { cluster.nodes id with
        clientRequestsQueue := (cluster.nodes id).clientRequestsQueue ++ [requests] }) a := by
  have hmov : Moves id (cluster.nodes id).supply a a := Moves.refl id a
  refine h.update hmov rfl (h.log id) ((h.volatile id).setQueue _) ?_ fun _ hm => .inl hm
  intro message hm
  apply h.calls_kept ?_ ?_ ?_ hm
  · rfl
  · exact le_rfl
  · exact fun _ hl => hl

theorem ClusterRel.step [DecidableEq Payload] (config : Config Payload) (h : ClusterRel cluster a)
    {label : Label size Payload Handle} (hs : cluster.step config label = some cluster') :
    ∃ id supply a', Moves id supply a a' ∧ ClusterRel cluster' a' := by
  rcases Cluster.step_inv config hs with ⟨id, op, node, _, hmay, hr, rfl⟩ |
    ⟨id, op, count, _, hmay, rfl⟩ | ⟨id, requests, _, rfl⟩
  · rcases h.run config hmay hr with ⟨a', hm, _, hrel⟩
    exact ⟨id, _, a', hm, hrel⟩
  · exact ⟨id, _, h.crash config hmay count⟩
  · exact ⟨id, fun _ _ _ => True, a, Moves.refl id a, h.enqueue requests⟩

theorem ClusterRel.initial :
    ClusterRel (Cluster.initial : Cluster size Payload Handle) State.initial where
  inv := Inv.initial
  log _ := ⟨Log.isWhole_empty, rfl, rfl, nofun, nofun⟩
  volatile _ := VolatileRel.restart _ _
  network _ hm := nomatch hm
  calls _ hm := nomatch hm

/-- The cluster refines the protocol. -/
theorem cluster_simulation [DecidableEq Payload] (config : Config Payload) :
    System.Simulation (Cluster.system config : System (Cluster size Payload Handle))
      (Consensus.system LogEntry.term IsMajority) ClusterRel where
  init hi := by
    rw [show _ = Cluster.initial from hi]
    exact ⟨State.initial, rfl, ClusterRel.initial⟩
  step hr hs := by
    rcases hs with ⟨label, hl⟩
    rcases hr.step config hl with ⟨id, supply, a', hm, hr'⟩
    exact ⟨a', NodeRun.runs hm, hr'⟩

end Simulation

end MySuperLedger.Raft
