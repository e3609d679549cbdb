import MySuperLedger.Replica.Follower

/-! # The command process loop leads

What the command process loop knows of its raft node at each place, between any
two steps of the other threads. A leader takes the state over only while nothing
but its first entry is written in the term, and from then on its machine stands
for the plan of the term. If the term has passed by then, nothing it sends will
be written.
-/

namespace MySuperLedger.Replica

open Consensus Ledger Raft List NodeRun

/-- In `waitTillLeaderIsReadyOrStepDown`, or about to swap. -/
def CommandPc.isWaiting : CommandPc → Bool
  | .checkTerm _ => true
  | .readLastIndex _ => true
  | .readCommitIndex _ _ => true
  | .readLoadedIndex _ _ _ => true
  | .readAppliedIndex _ _ _ _ => true
  | .scanning _ _ _ => true
  | .swapping _ _ => true
  | .idle => false
  | .readTerm _ => false
  | .readRole _ _ => false
  | .readTermAgain _ _ _ => false
  | .processing _ => false

variable {size : Nat}

/-- The entries on their way from the command process loop to the log. -/
def inFlight (node : Node size RaftPayload Unit) (logStore : RaftLogStore) : List Entry :=
  node.clientRequestsQueue.flatten.map ClientRequest.entry ++
    logStore.batch.map ClientRequest.entry ++ logStore.persistQueue.map PersistEntry.entry

/-- The loop has waited for `term`, or will not wait for it any more. -/
def CommandProcessLoop.TookOver (cpl : CommandProcessLoop) (term : Nat) : Prop :=
  term < cpl.store.lastCheckedTerm ∨
    (term = cpl.store.lastCheckedTerm ∧ cpl.store.lastCheckedRole = .Leader ∧
      cpl.pc.isWaiting = false)

/-- Node `id` leads `term` and has written its first entry at most; nothing more is planned. -/
def Starting (a : Ghost size RaftPayload) (planned : Nat → List Entry) (id : Fin size)
    (term : Nat) : Prop :=
  ∃ base, a.elected term = some (id, base) ∧ IsStart base (a.leaderLog term) ∧
    planned term = a.leaderLog term

/-- The machine stands for the plan of the term. -/
def Speculates (a : Ghost size RaftPayload) (planned : Nat → List Entry) (id : Fin size)
    (cpl : CommandProcessLoop) : Prop :=
  ∃ base first s, a.elected cpl.store.lastCheckedTerm = some (id, base) ∧
    base ++ [first] <+: a.leaderLog cpl.store.lastCheckedTerm ∧
    replay (planned cpl.store.lastCheckedTerm) = some s ∧ Mirrors cpl.snapshot cpl.machine s ∧
    cpl.lastCommandId = (planned cpl.store.lastCheckedTerm).length

/-- The event apply loop has loaded `lastIndex` entries, and those behind its applied index
are empty as far as `index`. -/
def Scanned (committed : List Entry → Prop) (eal : EventApplyLoop) (lastIndex index : Nat)
    (log : List Entry) : Prop :=
  eal.shouldRecover = false ∧ lastIndex ≤ eal.store.loadedIndex ∧ committed log ∧
    index ≤ log.length + 1 ∧ ∀ k entry, eal.store.appliedIndex ≤ k → k + 1 < index →
      log[k]? = some entry → entry.noop = true

/-- What the loop has found out so far. -/
def Knows (a : Ghost size RaftPayload) (planned : Nat → List Entry) (id : Fin size)
    (node : Node size RaftPayload Unit) (eal : EventApplyLoop) (cpl : CommandProcessLoop) :
    CommandPc → Prop
  | .readRole _ term => term ≤ node.log.currentTerm
  | .readTermAgain _ term role => role = .Leader →
      ∃ term', term ≤ term' ∧ term' ≤ node.log.currentTerm ∧
        (∃ base, a.elected term' = some (id, base)) ∧
        (cpl.TookOver term' ∨ Starting a planned id term')
  | .readAppliedIndex _ _ _ loadedIndex => loadedIndex ≠ 0 →
      eal.shouldRecover = false ∧ loadedIndex ≤ eal.store.loadedIndex
  | .scanning _ lastIndex index => lastIndex ≠ 0 →
      ∃ log, Scanned (IsCommitted a node.log.currentTerm) eal lastIndex index log
  | .swapping _ lastIndex => ∃ log entry, 1 ≤ lastIndex ∧
      Scanned (IsCommitted a node.log.currentTerm) eal lastIndex (lastIndex + 1) log ∧
      log[lastIndex - 1]? = some entry ∧ entry.term = cpl.store.lastCheckedTerm
  | .processing _ => cpl.store.lastCheckedRole = .Leader
  | _ => True

structure LeaderInv (a : Ghost size RaftPayload) (planned : Nat → List Entry) (id : Fin size)
    (node : Node size RaftPayload Unit) (eal : EventApplyLoop) (cpl : CommandProcessLoop) :
    Prop where
  logStoreTerm : cpl.store.logStore.logStoreTerm = cpl.store.lastCheckedTerm
  logStoreRole : cpl.store.logStore.logStoreRole = cpl.store.lastCheckedRole
  elected : cpl.store.lastCheckedRole = .Leader →
    ∃ base, a.elected cpl.store.lastCheckedTerm = some (id, base)
  knows : Knows a planned id node eal cpl cpl.pc
  waiting : cpl.pc.isWaiting = true → cpl.store.lastCheckedRole = .Leader ∧
    Starting a planned id cpl.store.lastCheckedTerm
  requests : ∀ entry ∈ inFlight node cpl.store.logStore,
    (∃ base, a.elected entry.term = some (id, base)) ∧
      (entry.term < node.log.currentTerm ∨ entry ∈ planned entry.term)
  ahead : ∀ term base, a.elected term = some (id, base) →
    planned term = a.leaderLog term ∨ cpl.TookOver term
  leads : node.role = .Leader →
    cpl.TookOver node.log.currentTerm ∨ Starting a planned id node.log.currentTerm
  speculates : cpl.store.lastCheckedRole = .Leader → cpl.pc.isWaiting = false →
    cpl.store.lastCheckedTerm < node.log.currentTerm ∨ Speculates a planned id cpl

variable {a a' : Ghost size RaftPayload} {planned planned' : Nat → List Entry} {id : Fin size}
  {node node' : Node size RaftPayload Unit} {eal eal' : EventApplyLoop}
  {cpl cpl' : CommandProcessLoop}

theorem Scanned.mono {committed committed' : List Entry → Prop} {lastIndex index : Nat}
    {log : List Entry} (h : Scanned committed eal lastIndex index log)
    (ha : eal.Advances eal') (hm : committed log → committed' log) :
    Scanned committed' eal' lastIndex index log := by
  rcases h with ⟨hr, hl, hlog, hi, hn⟩
  have happl := ha.applied hr
  exact ⟨ha.recovered hr, hl.trans (ha.loaded hr), hm hlog,
    hi, fun k entry hk => hn k entry (happl.trans hk)⟩

/-- What is known stays known while terms, plans and the event apply loop advance. -/
theorem Knows.mono {pc : CommandPc} (h : Knows a planned id node eal cpl pc) (hg : Grows a a')
    (ht : node.log.currentTerm ≤ node'.log.currentTerm)
    (hst : ∀ term, Starting a planned id term → Starting a' planned' id term)
    (ha : eal.Advances eal') : Knows a' planned' id node' eal' cpl pc := by
  cases pc with
  | readRole command term => exact h.trans ht
  | readTermAgain command term role =>
    intro hrole
    rcases h hrole with ⟨term', hle, hle', ⟨base, hel⟩, htook⟩
    exact ⟨term', hle, hle'.trans ht, ⟨base, hg.elected _ _ hel⟩, htook.imp_right (hst term')⟩
  | readAppliedIndex command lastIndex commitIndex loadedIndex =>
    intro hne
    rcases h hne with ⟨hr, hle⟩
    exact ⟨ha.recovered hr, hle.trans (ha.loaded hr)⟩
  | scanning command lastIndex index =>
    intro hne
    rcases h hne with ⟨log, hs⟩
    exact ⟨log, hs.mono ha fun hl => hl.mono hg ht⟩
  | swapping command lastIndex =>
    rcases h with ⟨log, entry, hp, hs, he⟩
    exact ⟨log, entry, hp, hs.mono ha fun hl => hl.mono hg ht, he⟩
  | processing command => exact h
  | _ => trivial

theorem EventApplyLoop.Advances.refl (eal : EventApplyLoop) : eal.Advances eal :=
  ⟨fun h => h, fun _ => le_rfl, fun _ => le_rfl⟩

theorem LeaderInv.of_advances (h : LeaderInv a planned id node eal cpl)
    (ha : eal.Advances eal') : LeaderInv a planned id node eal' cpl :=
  { h with knows := h.knows.mono (Grows.refl a) le_rfl (fun _ hs => hs) ha }

/-- Raft moved on. What has to be shown is that the terms led by `id` did. -/
theorem LeaderInv.moves (h : LeaderInv a planned id node eal cpl) (hgrow : Grows a a')
    (hterm : node.log.currentTerm ≤ node'.log.currentTerm)
    (hque : ∀ requests ∈ node'.clientRequestsQueue, requests ∈ node.clientRequestsQueue)
    (hstart : ∀ term, Starting a planned id term → Starting a' planned' id term)
    (hspec : Speculates a planned id cpl → Speculates a' planned' id cpl)
    (hmem : ∀ term base, a.elected term = some (id, base) →
      ∀ entry ∈ planned term, entry ∈ planned' term)
    (hahe : ∀ term base, a'.elected term = some (id, base) → planned' term = a'.leaderLog term ∨
        (a.elected term = some (id, base) ∧ planned term ≠ a.leaderLog term))
    (hlead : node'.role = .Leader →
      (node.role = .Leader ∧ node'.log.currentTerm = node.log.currentTerm) ∨
        Starting a' planned' id node'.log.currentTerm) :
    LeaderInv a' planned' id node' eal cpl where
  logStoreTerm := h.logStoreTerm
  logStoreRole := h.logStoreRole
  elected hrole := by
    rcases h.elected hrole with ⟨base, hel⟩
    exact ⟨base, hgrow.elected _ _ hel⟩
  knows := h.knows.mono hgrow hterm hstart (.refl eal)
  waiting hwait := ⟨(h.waiting hwait).1, hstart _ (h.waiting hwait).2⟩
  requests entry hent := by
    have hold : entry ∈ inFlight node cpl.store.logStore := by
      simp only [inFlight, mem_append, mem_map, mem_flatten] at hent ⊢
      rcases hent with (⟨request, ⟨requests, hreqs, hreq⟩, heq⟩ | hbat) | hpers
      · exact .inl (.inl ⟨request, ⟨requests, hque _ hreqs, hreq⟩, heq⟩)
      · exact .inl (.inr hbat)
      · exact .inr hpers
    rcases h.requests entry hold with ⟨⟨base, hel⟩, hplanned⟩
    refine ⟨⟨base, hgrow.elected _ _ hel⟩, ?_⟩
    exact hplanned.imp (fun hlt => hlt.trans_le hterm) (hmem _ base hel entry)
  ahead term base hel := by
    rcases hahe term base hel with heq | ⟨hel', hne⟩
    · exact .inl heq
    · exact .inr ((h.ahead term base hel').resolve_left hne)
  leads hrole := by
    rcases hlead hrole with ⟨hrole', hsame⟩ | hst
    · rw [hsame]
      exact (h.leads hrole').imp_right (hstart _)
    · exact .inr hst
  speculates hrole hwait :=
    (h.speculates hrole hwait).imp (fun hlt => hlt.trans_le hterm) hspec

theorem Speculates.other (h : Speculates a planned id cpl) (hs : SameFor id a a')
    (hp : ∀ term base, a.elected term = some (id, base) → planned' term = planned term) :
    Speculates a' planned' id cpl := by
  rcases h with ⟨base, first, s, hel, hf, hr, hm, hl⟩
  have hlog := hs.leaderLog _ base hel
  have heq := hp _ base hel
  exact ⟨base, first, s, hs.grows.elected _ _ hel, hlog ▸ hf, heq ▸ hr, hm, heq ▸ hl⟩

theorem LeaderInv.other (h : LeaderInv a planned id node eal cpl) (hs : SameFor id a a')
    (hp : ∀ term base, a.elected term = some (id, base) → planned' term = planned term) :
    LeaderInv a' planned' id node eal cpl := by
  refine h.moves hs.grows le_rfl (fun _ hm => hm) ?_ ?_ ?_ ?_ ?_
  · rintro term ⟨base, hel, hst, heq⟩
    have hl := hs.leaderLog term base hel
    exact ⟨base, hs.grows.elected _ _ hel, hl ▸ hst, by rw [hl, hp term base hel, heq]⟩
  · exact fun hspec => hspec.other hs hp
  · intro term base hel entry he
    rwa [hp term base hel]
  · intro term base hel
    have hel' := hs.elected term base hel
    by_cases heq : planned term = a.leaderLog term
    · exact .inl (by rw [hp term base hel', heq, hs.leaderLog term base hel'])
    · exact .inr ⟨hel', heq⟩
  · exact fun hr => .inl ⟨hr, rfl⟩

open Classical in
/-- The plans after a step of raft. A plan that was no more than what was written follows what
is written, and so does one that was dropped. -/
noncomputable def replan (planned : Nat → List Entry) (a a' : Ghost size RaftPayload)
    (dropped : Nat → Prop) (term : Nat) : List Entry :=
  if planned term = a.leaderLog term ∨ dropped term then a'.leaderLog term else planned term

theorem replan_cases (planned : Nat → List Entry) (a a' : Ghost size RaftPayload)
    (dropped : Nat → Prop) (term : Nat) :
    replan planned a a' dropped term = a'.leaderLog term ∨
      (replan planned a a' dropped term = planned term ∧ planned term ≠ a.leaderLog term) := by
  unfold replan
  split
  · exact .inl rfl
  · next hn => exact .inr ⟨rfl, fun heq => hn (.inl heq)⟩

theorem replan_of_eq {dropped : Nat → Prop} {term : Nat} (heq : planned term = a.leaderLog term) :
    replan planned a a' dropped term = a'.leaderLog term :=
  if_pos (.inl heq)

theorem replan_of_other {dropped : Nat → Prop} {term : Nat} (hd : ¬ dropped term)
    (hl : a'.leaderLog term = a.leaderLog term) :
    replan planned a a' dropped term = planned term := by
  by_cases heq : planned term = a.leaderLog term
  · rw [replan_of_eq heq, hl, heq]
  · exact if_neg fun hor => hor.elim heq hd

theorem LeaderInv.supplies (h : LeaderInv a planned id node eal cpl)
    (ht : a.term id = node.log.currentTerm) : Supplies a planned id node.supply := by
  rintro base own entry ⟨hi, hn | ⟨requests, hr, request, hreq, rfl⟩⟩
  · exact ⟨hi, .inl hn⟩
  · refine ⟨hi, .inr ?_⟩
    rw [ht]
    have hm : request.entry ∈ inFlight node cpl.store.logStore := by
      simp only [inFlight, mem_append, mem_map, mem_flatten]
      exact .inl (.inl ⟨request, ⟨requests, hr, hreq⟩, rfl⟩)
    exact (h.requests _ hm).2

section Run

variable (hplan : Plan a planned) (hinv : GhostInv a)
  (hmoves : Moves id node.supply a a') (hsupply : Supplies a planned id node.supply)
include hplan hinv hmoves hsupply

theorem Starting.replan {term : Nat} (h : Starting a planned id term) (dropped : Nat → Prop) :
    Starting a' (replan planned a a' dropped) id term := by
  rcases h with ⟨base, hel, hs, heq⟩
  have hg := (frame hmoves hinv).toGrows
  have hel' := hg.elected _ _ hel
  refine ⟨base, hel', ?_, replan_of_eq heq⟩
  rcases hplan.wrote hinv hmoves hsupply hel' with ⟨_, hp⟩ | ⟨_, hs'⟩
  · rw [heq] at hp
    rwa [hp.eq_of_length_le (hg.leaderLog term).length_le]
  · exact hs'

theorem replan_of_started {term : Nat} {base : List Entry} {first : Entry}
    (hel : a.elected term = some (id, base)) (hf : base ++ [first] <+: a.leaderLog term) :
    replan planned a a' (fun _ => False) term = planned term := by
  by_cases heq : planned term = a.leaderLog term
  · refine replan_of_other (fun h => h) ?_
    have hp := (frame hmoves hinv).leaderLog term
    have hel' := (frame hmoves hinv).elected _ _ hel
    rcases hplan.wrote hinv hmoves hsupply hel' with ⟨_, hp'⟩ | ⟨_, hst⟩
    · rw [heq] at hp'
      exact hp'.eq_of_length_le hp.length_le
    · have hl := hst.length_le
      have hl' := hf.length_le
      simp at hl'
      exact (hp.eq_of_length_le (by omega)).symm
  · exact if_neg fun hor => hor.elim heq fun h => h

theorem Speculates.replan (h : Speculates a planned id cpl) :
    Speculates a' (replan planned a a' fun _ => False) id cpl := by
  rcases h with ⟨base, first, s, hel, hf, hr, hm, hl⟩
  have hg := (frame hmoves hinv).toGrows
  have heq := replan_of_started hplan hinv hmoves hsupply hel hf
  exact ⟨base, first, s, hg.elected _ _ hel, hf.trans (hg.leaderLog _), heq ▸ hr, hm, heq ▸ hl⟩

theorem LeaderInv.run (h : LeaderInv a planned id node eal cpl)
    (hterm : a.term id = node.log.currentTerm) (hv : VolatileRel id node a)
    (hv' : VolatileRel id node' a') (hkept : Kept node node') :
    LeaderInv a' (replan planned a a' fun _ => False) id node' eal cpl := by
  have hgrow := (frame hmoves hinv).toGrows
  refine h.moves hgrow hkept.term_le hkept.queue ?_ ?_ ?_ ?_ ?_
  · exact fun term hst => hst.replan hplan hinv hmoves hsupply _
  · exact fun hspec => hspec.replan hplan hinv hmoves hsupply
  · intro term base hel entry hent
    rcases replan_cases planned a a' (fun _ => False) term with heq | ⟨heq, _⟩
    · by_cases hsame : planned term = a.leaderLog term
      · rw [heq]
        rw [hsame] at hent
        exact (hgrow.leaderLog term).subset hent
      · rwa [replan, if_neg fun hor => hor.elim hsame fun h => h]
    · rwa [heq]
  · intro term base hel
    rcases replan_cases planned a a' (fun _ => False) term with heq | ⟨_, hne⟩
    · exact .inl heq
    · rcases hplan.wrote hinv hmoves hsupply hel with ⟨hel', _⟩ | ⟨heq, _⟩
      · exact .inr ⟨hel', hne⟩
      · exact absurd heq hne
  · intro hrole
    rcases (hv'.leader hrole).elected with ⟨base, hel⟩
    rcases hplan.wrote hinv hmoves hsupply hel with ⟨hel', _⟩ | ⟨heq, hst⟩
    · -- the term was led before, so the node led it already
      have hle := hinv.elected_term_le hel'
      have hsame : node'.log.currentTerm = node.log.currentTerm := by
        have hle' := hkept.term_le
        omega
      rcases hkept.standing hsame (.inl hrole) with hlead | hcand
      · exact .inl ⟨hlead, hsame⟩
      · rw [hsame] at hel'
        exact absurd hel' ((hv.candidate hcand).not_elected base)
    · exact .inr ⟨base, hel, hst, replan_of_eq heq⟩

end Run

theorem LeaderInv.start (hd : ∀ term base, a.elected term = some (id, base) →
      planned term = a.leaderLog term) (log : Log size RaftPayload) (incarnation : Nat)
    (eal : EventApplyLoop) : LeaderInv a planned id (Node.start log incarnation) eal {} where
  logStoreTerm := rfl
  logStoreRole := rfl
  elected hr := nomatch hr
  knows := trivial
  waiting hw := nomatch hw
  requests _ he := nomatch he
  ahead term base hel := .inl (hd term base hel)
  leads hr := nomatch hr
  speculates hr := nomatch hr

end MySuperLedger.Replica
