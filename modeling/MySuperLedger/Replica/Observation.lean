import MySuperLedger.Raft.Requests
import MySuperLedger.Replica.Takeover

/-! # Observing leadership

Raft keeps its role and its term in two variables and changes them one after the
other. The command process loop reads them without a lock: `refresh` reads the
term, the role and the term again until both readings of the term agree, and
`detectTransition` compares what was recorded with what it saw before. Any write
may happen between any two reads.
-/

namespace MySuperLedger.Replica

open Effects Raft Transition List Option Handler

structure Standing where
  role : RaftRole
  term : Nat
  deriving DecidableEq

inductive Write where
  | role (role : RaftRole)
  | term (term : Nat)
  deriving DecidableEq

def Write.perform : Write → Standing → Standing
  | .role value, standing => { standing with role := value }
  | .term value, standing => { standing with term := value }

inductive RoleChange where
  | stepDown (newTerm : Nat)
  | electionTimeout
  /-- With the votes of a majority. -/
  | becomeLeader

/-- What a function of `RaftCore` writes, in its order; `none` if a check fails. -/
def RoleChange.writes (standing : Standing) : RoleChange → Option (List Write)
  | .stepDown newTerm =>
    if standing.term < newTerm then some [.role .Follower, .term newTerm]
    else if standing.term = newTerm ∧ standing.role = .Candidate then some [.role .Follower]
    else none
  | .electionTimeout =>
    if standing.role ≠ .Leader ∧ standing.role ≠ .Syncer then
      some [.role .Candidate, .term (standing.term + 1)]
    else some []
  | .becomeLeader => if standing.role = .Candidate then some [.role .Leader] else some []

def performAll (standing : Standing) : List Write → Standing
  | [] => standing
  | write :: writes => performAll (write.perform standing) writes

section Handlers

variable {size : Nat} {Payload Handle : Type} {node node' : Node size Payload Handle}

def standingOf (node : Node size Payload Handle) : Standing := ⟨node.role, node.log.currentTerm⟩

/-- The function of `RaftCore` behind a change. -/
def RoleChange.run (me : Fin size) (noop : Payload) :
    RoleChange → Handler size Payload Handle Unit
  | .stepDown newTerm => Handler.stepDown newTerm
  | .electionTimeout => Handler.electionTimeout me
  | .becomeLeader => Handler.becomeLeader me noop

def Makes (change : RoleChange) (node node' : Node size Payload Handle) : Prop :=
  ∃ writes, change.writes (standingOf node) = some writes ∧
    standingOf node' = performAll (standingOf node) writes

variable {es : List (Effect size Payload Handle)} {x : Unit}

theorem makes_stepDown {newTerm : Nat} (hrun : (stepDown newTerm).RunsTo node es x node') :
    Makes (.stepDown newTerm) node node' := by
  obtain ⟨_, _, node, _, hassert, hbody, rfl⟩ := hrun.of_get.of_bind
  obtain ⟨hle, rfl, rfl⟩ := hassert.of_assert
  obtain ⟨_, _, middle, _, hterm, hdrop, rfl⟩ := hbody.of_modify.of_bind
  have hlast : standingOf node' = standingOf middle := by
    unfold Program.when at hdrop
    split at hdrop
    · obtain ⟨-, -, rfl⟩ := (runsTo_dropPending _ _ _).unique hdrop
      rfl
    · cases hdrop
      rfl
  unfold Makes RoleChange.writes
  rw [hlast]
  split at hterm
  · rename_i hlt
    cases hterm
    exact ⟨_, if_pos hlt, rfl⟩
  · rename_i hge
    obtain ⟨hcand, -, rfl⟩ := hterm.of_assert
    exact ⟨[.role .Follower], (if_neg hge).trans
      (if_pos ⟨Nat.le_antisymm hle (Nat.not_lt.mp hge), hcand⟩), rfl⟩

variable {me : Fin size} {noop : Payload}

theorem makes_electionTimeout (hrun : (electionTimeout me).RunsTo node es x node') :
    Makes .electionTimeout node node' := by
  have hbody := hrun.of_get
  unfold Program.when at hbody
  unfold Makes RoleChange.writes
  split at hbody
  · rename_i hmay
    cases hbody
    exact ⟨_, if_pos hmay, rfl⟩
  · rename_i hnot
    cases hbody
    exact ⟨_, if_neg hnot, rfl⟩

theorem makes_becomeLeader (hrun : (becomeLeader me noop).RunsTo node es x node') :
    Makes .becomeLeader node node' ∨ standingOf node' = standingOf node := by
  have hbody := hrun.of_get
  simp only [Program.when] at hbody
  split at hbody
  · rename_i hwins
    obtain ⟨_, _, written, _, happend, hassert, rfl⟩ := hbody.of_modify.of_bind
    obtain ⟨-, -, rfl⟩ := hassert.of_assert
    have hsame := ((ensures_appendAll silent_appendEntry _).run happend).2
    have hstanding := congrArg (fun side => Standing.mk side.1 side.2.1) hsame
    exact .inl ⟨[.role .Leader], if_pos hwins.1, hstanding⟩
  · cases hbody
    exact .inr rfl

theorem RoleChange.makes {change : RoleChange}
    (hrun : (change.run me noop).RunsTo node es x node') :
    Makes change node node' ∨ standingOf node' = standingOf node := by
  cases change with
  | stepDown newTerm => exact .inl (makes_stepDown hrun)
  | electionTimeout => exact .inl (makes_electionTimeout hrun)
  | becomeLeader => exact makes_becomeLeader hrun

end Handlers

inductive RefreshPc where
  /-- Outside, or at the head of the loop. -/
  | idle
  | readRole (term1 : Nat)
  | readTermAgain (term1 : Nat) (role : RaftRole)

structure Observer where
  standing : Standing
  /-- What the running function of raft has still to write. -/
  pending : List Write := []
  /-- The terms this node has led. -/
  led : List Nat := []
  pc : RefreshPc := .idle
  store : RaftCommandEventStore := {}
  /-- What `refresh` has recorded. -/
  records : List (Nat × RaftRole) := []
  /-- What `detectTransition` has reported, with its term. -/
  reports : List (RaftTransition × Nat) := []

inductive ObserverAction where
  | change (change : RoleChange)
  | write
  | readTerm
  | readRole
  | readTermAgain

namespace Observer

/-- `refresh` leaves the recorded pair alone. -/
def Skips (store : RaftLogStore) (term : Nat) (role : RaftRole) : Prop :=
  store.logStoreTerm = term ∧ store.logStoreRole = .Leader ∧ role ≠ .Leader

instance (store : RaftLogStore) (term : Nat) (role : RaftRole) :
    Decidable (Skips store term role) :=
  inferInstanceAs (Decidable (_ ∧ _))

def write (observer : Observer) : Option Observer :=
  match observer.pending with
  | [] => none
  | write :: pending =>
    some { observer with
      standing := write.perform observer.standing
      pending := pending
      led := if write = .role .Leader then observer.led ++ [observer.standing.term]
        else observer.led }

/-- The rest of `detectTransition`, once the loop of `refresh` ends. -/
def detect (observer : Observer) (term : Nat) (role : RaftRole) : Option Observer :=
  ({ observer.store with logStore := observer.store.logStore.refresh term role } :
    RaftCommandEventStore).detectTransition.map fun (transition, store) =>
      { observer with
        pc := .idle
        store := store
        records := if Skips observer.store.logStore term role then observer.records
          else observer.records ++ [(term, role)]
        reports := observer.reports ++ [(transition, store.lastCheckedTerm)] }

def step (observer : Observer) : ObserverAction → Option Observer
  | .change change =>
    if observer.pending = [] then
      (change.writes observer.standing).map fun writes => { observer with pending := writes }
    else none
  | .write => observer.write
  | .readTerm =>
    match observer.pc with
    | .idle => some { observer with pc := .readRole observer.standing.term }
    | _ => none
  | .readRole =>
    match observer.pc with
    | .readRole term1 =>
      some { observer with pc := .readTermAgain term1 observer.standing.role }
    | _ => none
  | .readTermAgain =>
    match observer.pc with
    | .readTermAgain term1 role =>
      if observer.standing.term = term1 then observer.detect term1 role
      else some { observer with pc := .idle }
    | _ => none

/-- A process starts as a follower or to be synced, in the term its log tells. -/
def system : System Observer where
  init observer := ∃ standing : Standing,
    (standing.role = .Follower ∨ standing.role = .Syncer) ∧ observer = { standing := standing }
  step observer after := ∃ action, observer.step action = some after

theorem exists_writes_performed (observer : Observer) :
    ∃ after, system.Runs observer after ∧
      after.standing = performAll observer.standing observer.pending ∧ after.pending = [] := by
  obtain ⟨standing, pending, led, pc, store, records, reports⟩ := observer
  induction pending generalizing standing led with
  | nil => exact ⟨_, .refl .., rfl, rfl⟩
  | cons write pending ih =>
    obtain ⟨after, hruns, hafter⟩ := ih (write.perform standing)
      (if write = .role .Leader then led ++ [standing.term] else led)
    have hstep : system.step ⟨standing, write :: pending, led, pc, store, records, reports⟩ _ :=
      ⟨.write, rfl⟩
    exact ⟨after, (System.Runs.step hstep).trans hruns, hafter⟩

/-- What a function of `RaftCore` does to the role and the term of a node, the steps here do
too; the reads may come in between. -/
theorem exists_runs_of_roleChange {size : Nat} {Payload Handle : Type} {me : Fin size}
    {noop : Payload} {node node' : Node size Payload Handle} {change : RoleChange}
    {es : List (Effect size Payload Handle)} {observer : Observer}
    (hrun : (change.run me noop).RunsTo node es () node') (hpending : observer.pending = [])
    (hstanding : observer.standing = standingOf node) :
    ∃ after, system.Runs observer after ∧ after.standing = standingOf node' ∧
      after.pending = [] := by
  rcases RoleChange.makes hrun with ⟨writes, hwrites, hmade⟩ | hsame
  · have hstep : system.step observer { observer with pending := writes } := by
      refine ⟨.change change, ?_⟩
      rw [step, if_pos hpending, hstanding, hwrites]
      rfl
    obtain ⟨after, hruns, hafter, hnil⟩ :=
      exists_writes_performed { observer with pending := writes }
    refine ⟨after, (System.Runs.step hstep).trans hruns, ?_, hnil⟩
    rw [hafter, hstanding, hmade]
  · exact ⟨observer, .refl .., hstanding.trans hsame.symm, hpending⟩

/-- The term only grows, and never while the node looks like a leader. -/
def Orderly (standing : Standing) : List Write → Prop
  | [] => True
  | .role role :: writes => Orderly { standing with role := role } writes
  | .term term :: writes => standing.term < term ∧ standing.role ≠ .Leader ∧
      Orderly { standing with term := term } writes

variable {standing : Standing} {observer after : Observer} {reports : List (RaftTransition × Nat)}
  {pc : RefreshPc}

theorem orderly_writes {change : RoleChange} {writes : List Write}
    (h : change.writes standing = some writes) : Orderly standing writes := by
  cases change with
  | stepDown newTerm =>
    simp only [RoleChange.writes] at h
    split at h
    · rename_i hlt
      cases h
      simp [Orderly, hlt]
    · split at h
      · cases h
        simp [Orderly]
      · cases h
  | electionTimeout | becomeLeader =>
    simp only [RoleChange.writes] at h
    split at h <;> cases h <;> simp [Orderly]

structure RaftInv (observer : Observer) : Prop where
  pending : Orderly observer.standing observer.pending
  led : observer.standing.role = .Leader → observer.standing.term ∈ observer.led

theorem RaftInv.write (h : RaftInv observer) (hwr : observer.write = some after) :
    RaftInv after ∧ observer.standing.term ≤ after.standing.term ∧
      ∀ term ∈ observer.led, term ∈ after.led := by
  unfold Observer.write at hwr
  have hp := h.pending
  cases heq : observer.pending with
  | nil =>
    rw [heq] at hwr
    cases hwr
  | cons first rest =>
    rw [heq] at hwr hp
    cases hwr
    cases first with
    | role role =>
      refine ⟨⟨hp, ?_⟩, le_rfl, fun term ht => ?_⟩
      · intro (hr : role = .Leader)
        simp [Write.perform, hr]
      · simp only
        split <;> simp [ht]
    | term term =>
      refine ⟨⟨hp.2.2, ?_⟩, hp.1.le, fun term ht => ht⟩
      exact fun hr => absurd hr hp.2.1

/-- What has been read of the term and the role. -/
def Reads (observer : Observer) : RefreshPc → Prop
  | .idle => True
  | .readRole term1 => term1 ≤ observer.standing.term
  | .readTermAgain term1 role => term1 ≤ observer.standing.term ∧
      (role = .Leader → ∃ term, term1 ≤ term ∧ term ≤ observer.standing.term ∧ term ∈ observer.led)

/-- Later pairs have later terms, and a leader stays one within its term. -/
def InOrder (earlier later : Nat × RaftRole) : Prop :=
  earlier.1 ≤ later.1 ∧ (earlier.2 = .Leader → later.1 = earlier.1 → later.2 = .Leader)

/-- The records so far, with the pair that was checked last. -/
structure RecordsInv (records : List (Nat × RaftRole)) (led : List Nat)
    (checked : Nat × RaftRole) : Prop where
  inOrder : records.Pairwise InOrder
  before : ∀ record ∈ records, InOrder record checked
  genuine : ∀ term, (term, .Leader) ∈ records → term ∈ led

theorem RecordsInv.record {records : List (Nat × RaftRole)} {led : List Nat}
    {checked new : Nat × RaftRole} (h : RecordsInv records led checked)
    (hn : InOrder checked new) (hled : new.2 = .Leader → new.1 ∈ led) :
    RecordsInv (records ++ [new]) led new := by
  have hp : ∀ record ∈ records, InOrder record new := by
    intro record hr
    rcases h.before record hr with ⟨hle, hs⟩
    refine ⟨hle.trans hn.1, fun hl hsame => ?_⟩
    have hle' := hn.1
    have hc : checked.1 = record.1 := by omega
    exact hn.2 (hs hl hc) (hsame.trans hc.symm)
  refine ⟨?_, ?_, ?_⟩
  · exact pairwise_append.mpr ⟨h.inOrder, pairwise_singleton _ _,
      fun record hr other hoth => mem_singleton.mp hoth ▸ hp record hr⟩
  · intro record hr
    rcases mem_append.mp hr with ho | hlast
    · exact hp record ho
    · rw [mem_singleton.mp hlast]
      exact ⟨le_rfl, fun hl _ => hl⟩
  · intro term hr
    rcases mem_append.mp hr with ho | hlast
    · exact h.genuine term ho
    · rw [← mem_singleton.mp hlast] at hled
      exact hled rfl

def takeovers (reports : List (RaftTransition × Nat)) : List Nat :=
  (reports.filter fun report => report.1.isTakeover).map Prod.snd

theorem takeovers_append (reports : List (RaftTransition × Nat)) (transition : RaftTransition)
    (term : Nat) : takeovers (reports ++ [(transition, term)]) =
      takeovers reports ++ if transition.isTakeover then [term] else [] := by
  unfold takeovers
  rw [filter_append, map_append]
  cases h : transition.isTakeover <;> simp [h]

/-- The reports so far, with the pair that was checked last. -/
structure ReportsInv (reports : List (RaftTransition × Nat)) (checked : Nat × RaftRole) :
    Prop where
  once : (takeovers reports).Nodup
  before : ∀ term ∈ takeovers reports, InOrder (term, .Leader) checked
  last : checked.2 = .Leader → (takeovers reports).getLast? = some checked.1
  same : ∀ before term after, reports = before ++ (.SameLeader, term) :: after →
    (takeovers before).getLast? = some term

theorem append_singleton_eq {α : Type} {xs before after : List α} {x y : α}
    (h : xs ++ [x] = before ++ y :: after) :
    (xs = before ∧ x = y) ∨ ∃ after', xs = before ++ y :: after' := by
  rcases eq_nil_or_concat after with rfl | ⟨after', z, rfl⟩
  · have hi := append_inj' h rfl
    exact .inl ⟨hi.1, singleton_inj.mp hi.2⟩
  · rw [concat_eq_append, ← cons_append, ← append_assoc] at h
    exact .inr ⟨after', (append_inj' h rfl).1⟩

theorem ReportsInv.goOn {checked : Nat × RaftRole} (h : ReportsInv reports checked)
    (hl : checked.2 = .Leader) : ReportsInv (reports ++ [(.SameLeader, checked.1)]) checked := by
  have ht : takeovers (reports ++ [(.SameLeader, checked.1)]) = takeovers reports := by
    simp [takeovers_append, RaftTransition.isTakeover]
  refine ⟨ht ▸ h.once, ht ▸ h.before, ht ▸ h.last, ?_⟩
  intro before term after heq
  rcases append_singleton_eq heq with ⟨rfl, hn⟩ | ⟨after', ho⟩
  · cases hn
    exact h.last hl
  · exact h.same before term after' ho

theorem ReportsInv.change {checked : Nat × RaftRole} {transition : RaftTransition}
    (h : ReportsInv reports checked) (new : Nat × RaftRole)
    (hnew : checked.1 < new.1 ∨ (checked.1 = new.1 ∧ checked.2 ≠ .Leader))
    (hne : transition ≠ .SameLeader) (htakeover : transition.isTakeover = true ↔ new.2 = .Leader) :
    ReportsInv (reports ++ [(transition, new.1)]) new := by
  -- the terms that were taken over lie behind
  have hearl : ∀ term ∈ takeovers reports, term < new.1 := by
    intro term hterm
    rcases h.before term hterm with ⟨hle, hstay⟩
    rcases hnew with hlt | ⟨heq, hno⟩
    · exact lt_of_le_of_lt hle hlt
    · refine lt_of_le_of_ne (heq ▸ hle) fun hsame => hno (hstay rfl ?_)
      rw [heq, ← hsame]
  have hsame : ∀ before term after,
      reports ++ [(transition, new.1)] = before ++ (.SameLeader, term) :: after →
      (takeovers before).getLast? = some term := by
    intro before term after heq
    rcases append_singleton_eq heq with ⟨_, hlast⟩ | ⟨after', hold⟩
    · cases hlast
      exact absurd rfl hne
    · exact h.same before term after' hold
  by_cases hlead : new.2 = .Leader
  · have htake : takeovers (reports ++ [(transition, new.1)]) =
        takeovers reports ++ [new.1] := by
      rw [takeovers_append, if_pos (htakeover.mpr hlead)]
    refine ⟨?_, ?_, ?_, hsame⟩
    · rw [htake]
      refine nodup_append.mpr ⟨h.once, nodup_singleton _, ?_⟩
      intro term hterm other hoth heq
      have hlt := hearl term hterm
      rw [heq, mem_singleton.mp hoth] at hlt
      exact Nat.lt_irrefl _ hlt
    · rw [htake]
      intro term hterm
      rcases mem_append.mp hterm with hold | hlast
      · exact ⟨(hearl term hold).le, fun _ _ => hlead⟩
      · rw [mem_singleton.mp hlast]
        exact ⟨le_rfl, fun _ _ => hlead⟩
    · intro _
      rw [htake, getLast?_concat]
  · have htake : takeovers (reports ++ [(transition, new.1)]) = takeovers reports := by
      rw [takeovers_append, if_neg fun htak => hlead (htakeover.mp htak), append_nil]
    refine ⟨htake ▸ h.once, ?_, fun hno => absurd hno hlead, hsame⟩
    rw [htake]
    intro term hterm
    have hlt := hearl term hterm
    refine ⟨hlt.le, fun _ heq => absurd heq ?_⟩
    show ¬ new.1 = term
    omega

def checked (observer : Observer) : Nat × RaftRole :=
  (observer.store.lastCheckedTerm, observer.store.lastCheckedRole)

structure Inv (observer : Observer) : Prop where
  raft : RaftInv observer
  term_le : observer.store.lastCheckedTerm ≤ observer.standing.term
  term : observer.store.logStore.logStoreTerm = observer.store.lastCheckedTerm
  role : observer.store.logStore.logStoreRole = observer.store.lastCheckedRole
  reads : Reads observer observer.pc
  records : RecordsInv observer.records observer.led observer.checked
  reports : ReportsInv observer.reports observer.checked

theorem Inv.initial (hr : standing.role = .Follower ∨ standing.role = .Syncer) :
    Inv { standing := standing } where
  raft := by
    refine ⟨trivial, fun hl => ?_⟩
    rcases hr with hr | hr <;> rw [hr] at hl <;> cases hl
  term_le := Nat.zero_le _
  term := rfl
  role := rfl
  reads := trivial
  records := ⟨List.Pairwise.nil, by simp, by simp⟩
  reports := ⟨nodup_nil, by simp [takeovers], by simp [checked], by simp⟩

theorem Reads.mono (h : Reads observer pc) (ht : observer.standing.term ≤ after.standing.term)
    (hl : ∀ term ∈ observer.led, term ∈ after.led) : Reads after pc := by
  cases pc with
  | idle => trivial
  | readRole term1 => exact le_trans h ht
  | readTermAgain term1 role =>
    refine ⟨h.1.trans ht, fun hr => ?_⟩
    rcases h.2 hr with ⟨term, hle, hle', hm⟩
    exact ⟨term, hle, hle'.trans ht, hl term hm⟩

theorem Inv.write (h : Inv observer) (hw : observer.write = some after) : Inv after := by
  rcases h.raft.write hw with ⟨hraft, ht, hl⟩
  have hread := h.reads.mono ht hl
  unfold Observer.write at hw
  split at hw
  · cases hw
  · cases hw
    exact ⟨hraft, h.term_le.trans ht, h.term, h.role, hread,
      ⟨h.records.inOrder, h.records.before, fun term hr => hl term
        (h.records.genuine term hr)⟩, h.reports⟩

theorem Inv.setPc (h : Inv observer) (hr : Reads observer pc) : Inv { observer with pc := pc } :=
  ⟨⟨h.raft.pending, h.raft.led⟩, h.term_le, h.term, h.role, by cases pc <;> exact hr,
    h.records, h.reports⟩

theorem Inv.detect (h : Inv observer) {term : Nat} {role : RaftRole}
    (hpc : observer.pc = .readTermAgain term role) (hsame : observer.standing.term = term)
    (hdet : observer.detect term role = some after) : Inv after := by
  have hread := h.reads
  rw [hpc] at hread
  -- the term did not change between its two readings, so the role belongs to it
  have hled : role = .Leader → term ∈ observer.led := by
    intro hrole
    rcases hread.2 hrole with ⟨term', hle, hle', hmem⟩
    rwa [show term' = term by omega] at hmem
  rcases map_eq_some_iff.mp hdet with ⟨⟨transition, store⟩, htran, rfl⟩
  rcases detectTransition_cases h.term h.role htran with ⟨rfl, rfl, hlead, hterm⟩ |
    ⟨hnew, rfl, hne, htake⟩
  · refine ⟨⟨h.raft.pending, h.raft.led⟩, h.term_le, h.term, h.role, trivial, ?_,
      h.reports.goOn hlead⟩
    show RecordsInv (if _ then _ else _) _ observer.checked
    split
    · exact h.records
    · rename_i hskip
      have hrole : role = .Leader := by
        by_contra hno
        exact hskip ⟨h.term.trans hterm, h.role.trans hlead, hno⟩
      have hchk : observer.checked = (term, role) := by
        rw [checked, hterm, hlead, hrole]
      rw [hchk]
      exact (hchk ▸ h.records).record ⟨le_rfl, fun hl _ => hl⟩ hled
  · have hskip : ¬ Skips observer.store.logStore term role := by
      rintro ⟨hterm, hrole, _⟩
      rw [h.term] at hterm
      rw [h.role] at hrole
      rcases hnew with hlt | ⟨_, hno⟩
      · omega
      · exact hno hrole
    refine ⟨⟨h.raft.pending, h.raft.led⟩, hsame.ge, rfl, rfl, trivial, ?_,
      h.reports.change (term, role) hnew hne htake⟩
    show RecordsInv (if _ then _ else _) _ (term, role)
    rw [if_neg hskip]
    refine h.records.record ⟨?_, fun hlead heq => ?_⟩ hled
    · show observer.store.lastCheckedTerm ≤ term
      omega
    · rcases hnew with hlt | ⟨_, hno⟩
      · exact absurd heq hlt.ne'
      · exact absurd hlead hno

theorem Inv.step (h : Inv observer) {action : ObserverAction}
    (hstep : observer.step action = some after) : Inv after := by
  cases action with
  | change change =>
    simp only [Observer.step] at hstep
    split at hstep
    · rcases map_eq_some_iff.mp hstep with ⟨writes, hwrit, rfl⟩
      exact ⟨⟨orderly_writes hwrit, h.raft.led⟩, h.term_le, h.term, h.role,
        h.reads.mono le_rfl fun _ hterm => hterm, h.records, h.reports⟩
    · cases hstep
  | write => exact h.write hstep
  | readTerm =>
    simp only [Observer.step] at hstep
    split at hstep
    · cases hstep
      exact h.setPc le_rfl
    · cases hstep
  | readRole =>
    simp only [Observer.step] at hstep
    split at hstep
    · rename_i term1 hpc
      cases hstep
      have hread := h.reads
      rw [hpc] at hread
      exact h.setPc ⟨hread, fun hrole =>
        ⟨observer.standing.term, hread, le_rfl, h.raft.led hrole⟩⟩
    · cases hstep
  | readTermAgain =>
    simp only [Observer.step] at hstep
    split at hstep
    · rename_i term1 role hpc
      split at hstep
      · next hsame => exact h.detect hpc hsame hstep
      · cases hstep
        exact h.setPc trivial
    · cases hstep

theorem inv_of_reachable (hr : system.Reachable observer) : Inv observer := by
  refine hr.invariant Inv ?_ ?_
  · rintro start ⟨standing, hrole, rfl⟩
    exact Inv.initial hrole
  · rintro before after h ⟨action, hs⟩
    exact h.step hs

/-- The terms recorded do not go back, a leader is recorded only for a term this node has led
and stays one for the term; the checks of `detectTransition` hold, every term is taken over at
most once, and the leader it finds unchanged is the one of the last takeover. -/
theorem transitions_observed {observer : Observer} (hreachable : system.Reachable observer) :
    observer.records.Pairwise (fun earlier later => earlier.1 ≤ later.1) ∧
      (∀ term, (term, .Leader) ∈ observer.records → term ∈ observer.led) ∧
      observer.records.Pairwise (fun earlier later =>
        earlier.2 = .Leader → later.1 = earlier.1 → later.2 = .Leader) ∧
      (∀ term role, observer.pc = .readTermAgain term role → observer.standing.term = term →
        (observer.detect term role).isSome = true) ∧
      (takeovers observer.reports).Nodup ∧
      ∀ before term after, observer.reports = before ++ (.SameLeader, term) :: after →
        (takeovers before).getLast? = some term := by
  have h := inv_of_reachable hreachable
  refine ⟨h.records.inOrder.imp And.left, h.records.genuine, h.records.inOrder.imp And.right, ?_,
    h.reports.once, h.reports.same⟩
  intro term role _ hs
  unfold detect
  rw [isSome_map]
  exact detectTransition_isSome h.term h.role (hs ▸ h.term_le)

/-- Takes over in its first term, and is observed again while it steps down. -/
def stepsDown : List ObserverAction :=
  [.change .electionTimeout, .write, .write, .change .becomeLeader, .write,
    .readTerm, .readRole, .readTermAgain,
    .change (.stepDown 2), .write, .readTerm, .readRole, .readTermAgain]

def duringStepDown : Observer :=
  (System.exec step { standing := ⟨.Follower, 0⟩ } stepsDown).getD { standing := ⟨.Follower, 0⟩ }

theorem reachable_duringStepDown : system.Reachable duringStepDown := by
  have hs : (System.exec step { standing := ⟨.Follower, 0⟩ } stepsDown).isSome = true := by
    decide
  have hr : (System.ofStep duringStepDown step).Runs { standing := ⟨.Follower, 0⟩ }
      duringStepDown := System.runs_of_isSome _ hs
  exact ⟨_, ⟨_, .inl rfl, rfl⟩, hr⟩

theorem transitions_observed_duringStepDown : duringStepDown.standing = ⟨.Follower, 1⟩ ∧
      duringStepDown.reports = [(.FollowerToLeader, 1), (.SameLeader, 1)] ∧
      (takeovers duringStepDown.reports).Nodup ∧
      (takeovers [(.FollowerToLeader, 1)]).getLast? = some 1 ∧
      1 ∈ duringStepDown.led := by
  have hr : duringStepDown.reports = [(.FollowerToLeader, 1), (.SameLeader, 1)] := by decide
  have hrecs : (1, RaftRole.Leader) ∈ duringStepDown.records := by decide
  rcases transitions_observed reachable_duringStepDown with ⟨_, hl, _, _, ho, hs⟩
  exact ⟨by decide, hr, ho, hs [(.FollowerToLeader, 1)] 1 [] hr,
    hl 1 hrecs⟩

end Observer

end MySuperLedger.Replica
