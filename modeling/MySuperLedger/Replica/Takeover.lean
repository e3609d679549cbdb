import MySuperLedger.Replica.Leader

/-! # Steps of the command process loop

The reads of `refresh` and of the wait, the swap, and the commands that are
executed ahead of the log.
-/

namespace MySuperLedger.Replica

open Consensus Ledger Raft List Function RaftCommandEventStore

variable {size : Nat} {a : Ghost size RaftPayload} {planned : Nat → List Entry} {id : Fin size}
  {node : Node size RaftPayload Unit} {eal eal' : EventApplyLoop} {cpl cpl' : CommandProcessLoop}

variable {term : Nat} {pc : CommandPc} {role : RaftRole} {command : Command} {popped : List Entry}
  {delivered : List Bundle} {lastIndex index : Nat} {log : List Entry} {entry : Entry}
  {events : List Event} {logStore : RaftLogStore} {payload : RaftPayload} {hint : ProcessHint}
  {machine : AppState} {now : UInt64}

theorem CommandProcessLoop.TookOver.of_store (h : cpl.TookOver term)
    (ht : cpl'.store.lastCheckedTerm = cpl.store.lastCheckedTerm)
    (hr : cpl'.store.lastCheckedRole = cpl.store.lastCheckedRole)
    (hpc : cpl.pc.isWaiting = false → cpl'.pc.isWaiting = false) : cpl'.TookOver term := by
  rcases h with hlt | ⟨heq, hl, hw⟩
  · exact .inl (ht ▸ hlt)
  · exact .inr ⟨heq.trans ht.symm, hr.trans hl, hpc hw⟩

theorem CommandProcessLoop.TookOver.setPc (h : cpl.TookOver term)
    (hpc : cpl.pc.isWaiting = false → pc.isWaiting = false) :
    ({ cpl with pc := pc } : CommandProcessLoop).TookOver term :=
  h.of_store rfl rfl hpc

theorem LeaderInv.setPc (h : LeaderInv a planned id node eal cpl)
    (hkn : Knows a planned id node eal { cpl with pc := pc } pc)
    (hpc : cpl.pc.isWaiting = false → pc.isWaiting = false)
    (hl : cpl.pc.isWaiting = true → pc.isWaiting = false →
      cpl.store.lastCheckedTerm < node.log.currentTerm) :
    LeaderInv a planned id node eal { cpl with pc := pc } where
  logStoreTerm := h.logStoreTerm
  logStoreRole := h.logStoreRole
  elected := h.elected
  knows := hkn
  waiting hw := by
    cases ho : cpl.pc.isWaiting with
    | true => exact h.waiting ho
    | false =>
      rw [show pc.isWaiting = true from hw] at hpc
      exact nomatch hpc ho
  requests := h.requests
  ahead term base hel := (h.ahead term base hel).imp_right fun ht => ht.setPc hpc
  leads hr := (h.leads hr).imp_left fun ht => ht.setPc hpc
  speculates hr hw := by
    cases ho : cpl.pc.isWaiting with
    | true => exact .inl (hl ho hw)
    | false => exact h.speculates hr ho

theorem LeaderInv.setPc_same (h : LeaderInv a planned id node eal cpl)
    (hk : Knows a planned id node eal { cpl with pc := pc } pc)
    (hpc : pc.isWaiting = cpl.pc.isWaiting) :
    LeaderInv a planned id node eal { cpl with pc := pc } := by
  refine h.setPc hk (fun ho => hpc.trans ho) fun ho hn => ?_
  rw [hpc, ho] at hn
  cases hn

/-- The store after a change of term or role was seen. -/
def RaftCommandEventStore.checked (store : RaftCommandEventStore) (term : Nat) (role : RaftRole) :
    RaftCommandEventStore :=
  { store with
    logStore := { store.logStore with logStoreTerm := term, logStoreRole := role }
    lastCheckedTerm := term
    lastCheckedRole := role }

def RaftTransition.isTakeover : RaftTransition → Bool
  | .FollowerToLeader => true
  | .OldLeaderToNewLeader => true
  | .OldFollowerToNewFollower => false
  | .LeaderToFollower => false
  | .SameFollower => false
  | .SameLeader => false

variable {store : RaftCommandEventStore} {committed : List Entry → Prop} {base : List Entry}
  {config : Config RaftPayload}

/-- The leader of the term goes on, or a change is seen. It is a takeover if the node leads. -/
theorem detectTransition_cases {store' : RaftCommandEventStore} {transition : RaftTransition}
    (hterm : store.logStore.logStoreTerm = store.lastCheckedTerm)
    (hrole : store.logStore.logStoreRole = store.lastCheckedRole)
    (hdet : ({ store with logStore := store.logStore.refresh term role } :
      RaftCommandEventStore).detectTransition = some (transition, store')) :
    (transition = .SameLeader ∧ store' = store ∧ store.lastCheckedRole = .Leader ∧
      store.lastCheckedTerm = term) ∨
    ((store.lastCheckedTerm < term ∨
        (store.lastCheckedTerm = term ∧ store.lastCheckedRole ≠ .Leader)) ∧
      store' = store.checked term role ∧ transition ≠ .SameLeader ∧
      (transition.isTakeover = true ↔ role = .Leader)) := by
  rcases store with ⟨⟨logTerm, logRole, queue, batch⟩, checkedTerm, checkedRole, tasks⟩
  simp only at hterm hrole
  subst hterm hrole
  unfold detectTransition RaftLogStore.refresh at hdet
  simp only at hdet
  -- `refresh` passes over a leader that steps down within its term
  by_cases hskip : logTerm = term ∧ logRole = .Leader ∧ role ≠ .Leader
  · rw [if_pos hskip] at hdet
    simp only [ne_eq, not_true_eq_false, if_false, hskip.2.1, if_true] at hdet
    cases hdet
    rcases hskip with ⟨rfl, rfl, _⟩
    exact .inl ⟨rfl, rfl, rfl, rfl⟩
  · rw [if_neg hskip] at hdet
    simp only at hdet
    split at hdet
    · split at hdet
      · rename_i hlt
        refine .inr ⟨.inl hlt, ?_⟩
        by_cases hlead : role = .Leader
        · simp only [hlead, if_true] at hdet
          split at hdet <;> cases hdet <;>
            simp [hlead, RaftTransition.isTakeover, checked]
        · simp only [hlead, if_false] at hdet
          split at hdet <;> cases hdet <;>
            simp [hlead, RaftTransition.isTakeover, checked]
      · cases hdet
    · rename_i hsame
      have hsame' : logTerm = term := not_not.mp hsame
      subst hsame'
      by_cases hold : logRole = .Leader
      · rw [if_pos hold] at hdet
        split at hdet
        · rename_i hlead
          cases hdet
          refine .inl ⟨rfl, ?_, hold, rfl⟩
          rw [hold, hlead]
        · cases hdet
      · rw [if_neg hold] at hdet
        refine .inr ⟨.inr ⟨rfl, hold⟩, ?_⟩
        split at hdet
        · rename_i hlead
          cases hdet
          simp [hlead, RaftTransition.isTakeover, checked]
        · rename_i hlead
          cases hdet
          simp [hlead, RaftTransition.isTakeover, checked]

theorem detectTransition_isSome (ht : store.logStore.logStoreTerm = store.lastCheckedTerm)
    (hr : store.logStore.logStoreRole = store.lastCheckedRole)
    (hle : store.lastCheckedTerm ≤ term) :
    ({ store with logStore := store.logStore.refresh term role } :
      RaftCommandEventStore).detectTransition.isSome = true := by
  unfold detectTransition RaftLogStore.refresh
  by_cases hs : store.logStore.logStoreTerm = term ∧ store.logStore.logStoreRole = .Leader ∧
      role ≠ .Leader
  · simp [hs, ← ht, ← hr]
  · simp only [hs, if_false, ne_eq]
    split
    · rename_i hne
      rw [if_pos (lt_of_le_of_ne hle hne)]
      split <;> split <;> rfl
    · rename_i hsame
      split
      · rename_i hl
        have hr' : role = .Leader := by
          by_contra hno
          exact hs ⟨ht.trans (not_not.mp hsame), hr.trans hl, hno⟩
        simp [hr']
      · split <;> rfl

theorem onRefreshed_inv (hterm : cpl.store.logStore.logStoreTerm = cpl.store.lastCheckedTerm)
    (hr : cpl.store.logStore.logStoreRole = cpl.store.lastCheckedRole)
    (hrun : cpl.onRefreshed command term role = some cpl') :
    (cpl' = { cpl with pc := .processing command } ∧ cpl.store.lastCheckedRole = .Leader ∧
      cpl.store.lastCheckedTerm = term) ∨
    ((cpl.store.lastCheckedTerm < term ∨
        (cpl.store.lastCheckedTerm = term ∧ cpl.store.lastCheckedRole ≠ .Leader)) ∧
      ((role = .Leader ∧
          cpl' = { cpl with store := cpl.store.checked term role, pc := .checkTerm command }) ∨
        (role ≠ .Leader ∧
          cpl' = { cpl with store := cpl.store.checked term role, pc := .idle }))) := by
  rcases Option.map_eq_some_iff.mp hrun with ⟨⟨transition, store⟩, hd, rfl⟩
  rcases detectTransition_cases hterm hr hd with ⟨rfl, rfl, hl, heq⟩ | ⟨hn, rfl, hne, ht⟩
  · exact .inl ⟨rfl, hl, heq⟩
  · refine .inr ⟨hn, ?_⟩
    cases transition with
    | FollowerToLeader | OldLeaderToNewLeader => exact .inl ⟨ht.mp rfl, rfl⟩
    | SameLeader => exact absurd rfl hne
    | _ => exact .inr ⟨fun hr => absurd (ht.mpr hr) Bool.false_ne_true, rfl⟩

theorem LeaderInv.checked (h : LeaderInv a planned id node eal cpl)
    (hpc : cpl.pc = .readTermAgain command term role) (hterm : node.log.currentTerm = term)
    (hnew : cpl.store.lastCheckedTerm < term ∨
      (cpl.store.lastCheckedTerm = term ∧ cpl.store.lastCheckedRole ≠ .Leader))
    (hnext : (role = .Leader ∧ pc = .checkTerm command) ∨ (role ≠ .Leader ∧ pc = .idle)) :
    LeaderInv a planned id node eal
      { cpl with store := cpl.store.checked term role, pc := pc } := by
  have hkn := h.knows
  rw [hpc] at hkn
  -- what was taken over before belongs to an earlier term
  have hearl : ∀ term', cpl.TookOver term' → term' < term := by
    rintro term' (hlt | ⟨rfl, hlead, _⟩)
    · rcases hnew with hlt' | ⟨heq, _⟩ <;> omega
    · exact hnew.resolve_right fun hno => hno.2 hlead
  have htook : ∀ term', cpl.TookOver term' →
      ({ cpl with store := cpl.store.checked term role, pc := pc } :
        CommandProcessLoop).TookOver term' :=
    fun term' ht => .inl (hearl term' ht)
  have hst : role = .Leader → Starting a planned id term := by
    intro hrole
    rcases hkn hrole with ⟨term', hle, hle', _, ht⟩
    have heq : term' = term := by omega
    rw [heq] at ht
    exact ht.resolve_left fun ht => absurd (hearl term ht) (Nat.lt_irrefl _)
  constructor
  · rfl
  · rfl
  · intro hrole
    rcases hst hrole with ⟨base, hel, _⟩
    exact ⟨base, hel⟩
  · rcases hnext with ⟨_, rfl⟩ | ⟨_, rfl⟩ <;> exact trivial
  · intro hwait
    rcases hnext with ⟨hrole, _⟩ | ⟨_, rfl⟩
    · exact ⟨hrole, hst hrole⟩
    · cases hwait
  · exact h.requests
  · exact fun term' base hel => (h.ahead term' base hel).imp_right (htook term')
  · exact fun hrole => (h.leads hrole).imp_left (htook _)
  · intro hrole hwait
    rcases hnext with ⟨_, rfl⟩ | ⟨hno, _⟩
    · cases hwait
    · exact absurd hrole hno

theorem LeaderInv.refreshed (h : LeaderInv a planned id node eal cpl)
    (hpc : cpl.pc = .readTermAgain command term role) (ht : node.log.currentTerm = term)
    (hrun : cpl.onRefreshed command term role = some cpl') :
    LeaderInv a planned id node eal cpl' := by
  rcases onRefreshed_inv h.logStoreTerm h.logStoreRole hrun with ⟨rfl, hl, _⟩ |
    ⟨hn, ⟨hr, rfl⟩ | ⟨hr, rfl⟩⟩
  · exact h.setPc_same hl (by rw [hpc]; rfl)
  · exact h.checked hpc ht hn (.inl ⟨hr, rfl⟩)
  · exact h.checked hpc ht hn (.inr ⟨hr, rfl⟩)

theorem scanned_init (he : eal.Inv committed popped delivered) (hs : Sound popped)
    (hr : eal.shouldRecover = false) (hle : lastIndex ≤ eal.store.loadedIndex) :
    Scanned committed eal lastIndex (eal.store.appliedIndex + 1) (popped ++ eal.store.waiting) := by
  have hl := he.lastId_le_length hs
  have ha := he.applied
  refine ⟨hr, hle, he.read, ?_, fun k entry hk hlt => ?_⟩
  · simp
    omega
  · omega

theorem Scanned.next {log' : List Entry} (h : Scanned committed eal lastIndex index log)
    (hc : committed log') (ht : log <+: log' ∨ log' <+: log) (hp : 1 ≤ index)
    (he : log'[index - 1]? = some entry) (hn : entry.noop = true) :
    Scanned committed eal lastIndex (index + 1) log' := by
  rcases h with ⟨hr, hl, _, hi, ha⟩
  rcases List.getElem?_eq_some_iff.mp he with ⟨hlt, _⟩
  refine ⟨hr, hl, hc, by omega, fun k other hk hk' ho => ?_⟩
  by_cases hlast : k = index - 1
  · rw [hlast, he] at ho
    cases ho
    exact hn
  · refine ha k other hk (by omega) ?_
    rcases ht with ⟨rest, rfl⟩ | ⟨rest, rfl⟩
    · rwa [List.getElem?_append_left (by omega)] at ho
    · rcases List.getElem?_eq_some_iff.mp ho with ⟨hlt', _⟩
      rwa [List.getElem?_append_left hlt']

theorem scan_store (hr : cpl.scan node command lastIndex index = some cpl') :
    cpl'.store = cpl.store := by
  unfold CommandProcessLoop.scan at hr
  split at hr
  · cases hr
    rfl
  · split at hr
    · rcases Option.map_eq_some_iff.mp hr with ⟨entry, _, rfl⟩
      split
      · rfl
      · split
        · rfl
        · rfl
    · cases hr

theorem LeaderInv.scan (h : LeaderInv a planned id node eal cpl) (hinv : GhostInv a)
    (hlog : LogRel id node.log a) (hv : VolatileRel id node a)
    (hpc : cpl.pc = .scanning command lastIndex index)
    (hrun : cpl.scan node command lastIndex index = some cpl') :
    LeaderInv a planned id node eal cpl' := by
  have hkn := h.knows
  rw [hpc] at hkn
  unfold CommandProcessLoop.scan at hrun
  split at hrun
  · cases hrun
    exact h.setPc_same trivial (by rw [hpc]; rfl)
  · rename_i hle
    split at hrun
    · rename_i hcom
      rcases Option.map_eq_some_iff.mp hrun with ⟨entry, hent, rfl⟩
      have hpos := hlog.whole.one_le_of_getEntry hent
      rw [hlog.whole.getEntry_eq hpos] at hent
      have hent' : (node.log.entries.take node.commitIndex)[index - 1]? = some entry := by
        rw [getElem?_take_of_lt (by omega)]
        exact hent
      rcases hkn (by omega) with ⟨log, hscan⟩
      have htot := hinv.committed_total majorities_meet hscan.2.2.1 hv.committed
      split
      · exact h.setPc_same trivial (by rw [hpc]; rfl)
      · rename_i hnoop
        have hnext := hscan.next hv.committed htot hpos hent' (by simpa using hnoop)
        split
        · rename_i hlast
          rcases hlast with ⟨rfl, hterm⟩
          exact h.setPc_same ⟨_, entry, hpos, hnext, hent', hterm⟩ (by rw [hpc]; rfl)
        · exact h.setPc_same (fun _ => ⟨_, hnext⟩) (by rw [hpc]; rfl)
    · cases hrun

/-- While the term lasts, the log that was waited for is all the leader has written. -/
theorem leaderLog_of_scanned (hi : GhostInv a) (hel : a.elected term = some (id, base))
    (hst : IsStart base (a.leaderLog term)) (hc : IsCommitted a term log)
    (hpos : 1 ≤ lastIndex) (he : log[lastIndex - 1]? = some entry) (ht : entry.term = term) :
    log = a.leaderLog term ∧ (a.leaderLog term).length = lastIndex ∧
      ∃ first, a.leaderLog term = base ++ [first] := by
  have hp := hi.committed_prefix_leaderLog majorities_meet hc le_rfl
    (by rw [hel]; exact Option.some_ne_none _)
  rcases List.getElem?_eq_some_iff.mp he with ⟨hlt, heq⟩
  have hcat : log.take (lastIndex - 1) ++ [entry] <+: a.leaderLog term := by
    rw [← heq, take_concat_get']
    exact (List.take_prefix _ _).trans hp
  have hl := hst.length_le
  have hl' := hp.length_le
  -- the entry is of the leader's own term, so it stands behind what the leader started with
  rcases hi.leader_entry term id base _ entry hel hcat with ⟨hlt', _⟩ | ⟨_, hb⟩
  · omega
  · have hbas := hb.length_le
    rw [length_take_of_le (by omega)] at hbas
    refine ⟨hp.eq_of_length_le (by omega), by omega, ?_⟩
    rcases hst with hn | ⟨first, _, _, hf⟩
    · rw [hn] at hl'
      omega
    · exact ⟨first, hf⟩

theorem LeaderInv.takeOver (h : LeaderInv a planned id node eal cpl) (hplan : Plan a planned)
    (hinv : GhostInv a) (he : eal.Inv (IsCommitted a node.log.currentTerm) popped delivered)
    (hpc : cpl.pc = .swapping command lastIndex) (hidle : eal.pc = .idle)
    (hterm : node.log.currentTerm = cpl.store.lastCheckedTerm) :
    Speculates a planned id
      { cpl with
        pc := .processing command
        lastCommandId := lastIndex
        machine := eal.machine.state
        snapshot := eal.machine.flushed.doneIds } := by
  have hkn := h.knows
  rw [hpc] at hkn
  rcases hkn with ⟨log, entry, hpos, hscan, hentry, hent⟩
  rcases hscan with ⟨hrec, hload, hcomm, _, hnoop⟩
  rcases (h.waiting (by rw [hpc]; rfl)).2 with ⟨base, hel, hst, hplanned⟩
  have hread := he.read
  rw [hterm] at hcomm hread
  rcases leaderLog_of_scanned hinv hel hst hcomm hpos hentry hent with
    ⟨hlog, hlen, first, hfst⟩
  -- the event apply loop has read this much, and there is no more
  have hpre := hinv.committed_prefix_leaderLog majorities_meet hread le_rfl
    (by rw [hel]; exact Option.some_ne_none _)
  have hreadLog : popped ++ eal.store.waiting = a.leaderLog cpl.store.lastCheckedTerm := by
    have hload' := he.loaded hrec
    exact hpre.eq_of_length_le (by omega)
  have hsnd : Sound (popped ++ eal.store.waiting) := hplan.sound_of_committed hinv hread
  rcases he.mirrors hidle hrec hsnd (by
    intro k other hk hoth
    rcases List.getElem?_eq_some_iff.mp hoth with ⟨hlt, _⟩
    rw [hreadLog, ← hlog] at hoth
    rw [hreadLog, hlen] at hlt
    exact events_of_noop (hnoop k other hk (by omega) hoth)) with ⟨s, hs, hmir⟩
  rw [hreadLog, ← hplanned] at hs
  refine ⟨base, first, s, hel, ?_, hs, hmir, ?_⟩
  · exact (show a.leaderLog cpl.store.lastCheckedTerm = base ++ [first] from hfst) ▸ prefix_rfl
  · show lastIndex = (planned cpl.store.lastCheckedTerm).length
    rw [hplanned, hlen]

theorem LeaderInv.swap (h : LeaderInv a planned id node eal cpl) (hplan : Plan a planned)
    (hinv : GhostInv a) (hnode : a.term id = node.log.currentTerm)
    (he : eal.Inv (IsCommitted a node.log.currentTerm) popped delivered)
    (hpc : cpl.pc = .swapping command lastIndex) (hidle : eal.pc = .idle) :
    LeaderInv a planned id node eal'
      { cpl with
        pc := .processing command
        lastCommandId := lastIndex
        machine := eal.machine.state
        snapshot := eal.machine.flushed.doneIds } := by
  rcases h.waiting (by rw [hpc]; rfl) with ⟨hlead, base, hel, _⟩
  constructor
  · exact h.logStoreTerm
  · exact h.logStoreRole
  · exact h.elected
  · exact hlead
  · exact nofun
  · exact h.requests
  · intro term base hel
    exact (h.ahead term base hel).imp_right fun ht => ht.of_store rfl rfl fun _ => rfl
  · intro hrole
    exact (h.leads hrole).imp_left fun ht => ht.of_store rfl rfl fun _ => rfl
  · intro _ _
    have hle := hinv.elected_term_le hel
    rw [hnode] at hle
    rcases Nat.eq_or_lt_of_le hle with heq | hlt
    · exact .inr (h.takeOver hplan hinv he hpc hidle heq.symm)
    · exact .inl hlt

/-- How a step of the command process loop may change the plans. Only a command that is
executed does, and only while its term lasts. -/
structure Replans (a : Ghost size RaftPayload) (id : Fin size)
    (node : Node size RaftPayload Unit) (cpl cpl' : CommandProcessLoop)
    (planned planned' : Nat → List Entry) : Prop where
  isPrefix : ∀ term, planned term <+: planned' term
  passed : ∀ term, term < node.log.currentTerm → planned' term = planned term
  other : ∀ term c base, c ≠ id → a.elected term = some (c, base) → planned' term = planned term
  idle : (∀ command, cpl.pc = .processing command → cpl'.pc = .processing command) →
    planned' = planned
  executed : ∀ persistEntry,
    cpl'.store.logStore.persistQueue = cpl.store.logStore.persistQueue ++ [persistEntry] →
    cpl.store.lastCheckedTerm < node.log.currentTerm ∨
      planned' cpl.store.lastCheckedTerm =
        planned cpl.store.lastCheckedTerm ++ [persistEntry.entry]

theorem Replans.refl (hq : cpl'.store.logStore.persistQueue.length ≤
      cpl.store.logStore.persistQueue.length) :
    Replans a id node cpl cpl' planned planned where
  isPrefix _ := prefix_rfl
  passed _ _ := rfl
  other _ _ _ _ _ := rfl
  idle _ := rfl
  executed persistEntry hn := by
    rw [hn] at hq
    simp at hq

theorem stampAll_ne_nil {commandId nextEventId : UInt64} (h : events ≠ []) :
    stampAll commandId nextEventId events ≠ [] := by
  cases events with
  | nil => exact absurd rfl h
  | cons event events => exact cons_ne_nil _ _

theorem mem_inFlight_persistAsync (h : entry ∈ inFlight node (logStore.persistAsync payload)) :
    entry ∈ inFlight node logStore ∨
      entry = PersistEntry.entry ⟨logStore.logStoreTerm, payload⟩ := by
  simp only [inFlight, RaftLogStore.persistAsync, map_append, mem_append,
    map_cons, map_nil, mem_singleton] at h ⊢
  rcases h with h | h | h
  · exact .inl (.inl h)
  · exact .inl (.inr h)
  · exact .inr h

/-- An entry of the term is on its way, planned unless the term has passed. -/
theorem LeaderInv.persistAsync {planned' : Nat → List Entry}
    (h : LeaderInv a planned id node eal cpl) {lastCommandId : Nat}
    (hpc : cpl.pc = .processing command)
    (hoth : ∀ term, term ≠ cpl.store.lastCheckedTerm → planned' term = planned term)
    (hmem : ∀ entry ∈ planned cpl.store.lastCheckedTerm, entry ∈ planned' cpl.store.lastCheckedTerm)
    (hplan : cpl.store.lastCheckedTerm < node.log.currentTerm ∨
      PersistEntry.entry ⟨cpl.store.lastCheckedTerm, payload⟩ ∈ planned' cpl.store.lastCheckedTerm)
    (hspec : cpl.store.lastCheckedTerm < node.log.currentTerm ∨ Speculates a planned' id
      { cpl with
        pc := .idle
        machine := machine
        lastCommandId := lastCommandId
        store := cpl.store.persistAsync payload hint }) :
    LeaderInv a planned' id node eal
      { cpl with
        pc := .idle
        machine := machine
        lastCommandId := lastCommandId
        store := cpl.store.persistAsync payload hint } := by
  have hkn := h.knows
  rw [hpc] at hkn
  have hlead : cpl.store.lastCheckedRole = .Leader := hkn
  have hmem' : ∀ term, ∀ entry ∈ planned term, entry ∈ planned' term := by
    intro term entry hent
    by_cases hterm : term = cpl.store.lastCheckedTerm
    · rw [hterm] at hent ⊢
      exact hmem entry hent
    · rwa [hoth term hterm]
  -- the loop has taken over its own term
  have hcur : ∀ term, planned' term = planned term ∨
      ({ cpl with
          pc := .idle
          machine := machine
          lastCommandId := lastCommandId
          store := cpl.store.persistAsync payload hint } : CommandProcessLoop).TookOver term := by
    intro term
    by_cases hterm : term = cpl.store.lastCheckedTerm
    · exact .inr (.inr ⟨hterm, hlead, rfl⟩)
    · exact .inl (hoth term hterm)
  constructor
  · exact h.logStoreTerm
  · exact h.logStoreRole
  · exact h.elected
  · exact trivial
  · exact nofun
  · intro entry hent
    rcases mem_inFlight_persistAsync hent with hold | rfl
    · rcases h.requests entry hold with ⟨hel, hplan'⟩
      exact ⟨hel, hplan'.imp_right (hmem' _ entry)⟩
    · rw [h.logStoreTerm]
      exact ⟨h.elected hlead, hplan⟩
  · intro term base hel
    rcases hcur term with heq | htook
    · rw [heq]
      exact (h.ahead term base hel).imp_right fun ht => ht.of_store rfl rfl fun _ => rfl
    · exact .inr htook
  · intro hrole
    rcases hcur node.log.currentTerm with heq | htook
    · rcases h.leads hrole with ht | ⟨base, hel, hst, hsame⟩
      · exact .inl (ht.of_store rfl rfl fun _ => rfl)
      · exact .inr ⟨base, hel, hst, heq.trans hsame⟩
    · exact .inl htook
  · exact fun _ _ => hspec

theorem Plan.extend (hplan : Plan a planned) {first : Entry}
    (hel : a.elected term = some (id, base)) (hfst : base ++ [first] <+: a.leaderLog term)
    (hsnd : Sound (planned term ++ [entry])) :
    Plan a (update planned term (planned term ++ [entry])) := by
  have hself : update planned term (planned term ++ [entry]) term =
      planned term ++ [entry] := update_self ..
  have hoth : ∀ term', term' ≠ term →
      update planned term (planned term ++ [entry]) term' = planned term' :=
    fun term' hne => update_of_ne hne _ _
  constructor
  · intro term'
    by_cases hterm : term' = term
    · rw [hterm, hself]
      exact hsnd
    · rw [hoth term' hterm]
      exact hplan.sound term'
  · intro term'
    by_cases hterm : term' = term
    · rw [hterm, hself]
      exact (hplan.leader term).trans (prefix_append _ _)
    · rw [hoth term' hterm]
      exact hplan.leader term'
  · intro term' hnone
    have hterm : term' ≠ term := by
      rintro rfl
      rw [hel] at hnone
      cases hnone
    rw [hoth term' hterm]
    exact hplan.unelected term' hnone
  · intro term' c base' hel' hne
    by_cases hterm : term' = term
    · subst hterm
      rw [hel] at hel'
      cases hel'
      exact ⟨first, hfst⟩
    · rw [hoth term' hterm] at hne
      exact hplan.started term' c base' hel' hne

/-- What a machine emits is the outcome of its command behind the plan it stands for. -/
theorem Mirrors.isOutcome {snapshot : DoneMap} {machine' s : AppState} (term : Nat)
    (hm : Mirrors snapshot machine s) (hr : replay log = some s)
    (hid : payload.id.toNat = log.length + 1) (hne : events ≠ [])
    (he : payload.events = stampAll payload.id 0 events)
    (hp : Ledger.processCommandAndApply now snapshot machine payload.command =
      some (hint, events, machine')) :
    IsOutcome log (PersistEntry.entry ⟨term, payload⟩) ∧
      ∃ s', replay (log ++ [PersistEntry.entry ⟨term, payload⟩]) = some s' ∧
        Mirrors snapshot machine' s' := by
  rcases hm.processCommandAndApply hp with ⟨s', hp', hm'⟩
  refine ⟨⟨hid, ?_, now, s, hint, events, s', hr, hp', he⟩, s', ?_, hm'⟩
  · show payload.events ≠ []
    rw [he]
    exact stampAll_ne_nil hne
  · rw [replay_append, hr, Option.bind_some, eventsIn_singleton, events_of_not_noop rfl]
    show stateAfter s payload.events = some s'
    rw [he, stateAfter_stampAll]
    exact (processCommandAndApply_stateAfter hp').2

/-- A command that emits events extends the plan, unless the term has passed. -/
theorem LeaderInv.execute (h : LeaderInv a planned id node eal cpl) (hplan : Plan a planned)
    (hpc : cpl.pc = .processing payload.command) (hid : payload.id.toNat = cpl.lastCommandId + 1)
    (hne : events ≠ []) (hevs : payload.events = stampAll payload.id 0 events)
    (hproc : processCommandAndApply now cpl.snapshot cpl.machine payload.command =
      some (hint, events, machine)) :
    ∃ planned', Plan a planned' ∧ LeaderInv a planned' id node eal
        { cpl with
          pc := .idle
          machine := machine
          lastCommandId := cpl.lastCommandId + 1
          store := cpl.store.persistAsync payload hint } ∧
      Replans a id node cpl
        { cpl with
          pc := .idle
          machine := machine
          lastCommandId := cpl.lastCommandId + 1
          store := cpl.store.persistAsync payload hint } planned planned' := by
  have hkn := h.knows
  rw [hpc] at hkn
  have hque : ∀ persistEntry,
      cpl.store.logStore.persistQueue ++ [⟨cpl.store.logStore.logStoreTerm, payload⟩] =
        cpl.store.logStore.persistQueue ++ [persistEntry] →
      persistEntry = ⟨cpl.store.lastCheckedTerm, payload⟩ := by
    intro persistEntry heq
    rw [← h.logStoreTerm]
    exact (singleton_inj.mp (append_cancel_left heq)).symm
  -- once its term has passed, what this leader persists is never accepted
  by_cases hlt : cpl.store.lastCheckedTerm < node.log.currentTerm
  · refine ⟨planned, hplan, h.persistAsync hpc (fun _ _ => rfl) (fun _ hmem => hmem)
      (.inl hlt) (.inl hlt), ?_⟩
    exact ⟨fun _ => prefix_rfl, fun _ _ => rfl, fun _ _ _ _ _ => rfl, fun _ => rfl,
      fun _ _ => .inl hlt⟩
  · rcases (h.speculates hkn (by rw [hpc]; rfl)).resolve_left hlt with
      ⟨base, first, s, hel, hfst, hrepl, hmir, hlast⟩
    rw [hlast] at hid
    rcases hmir.isOutcome cpl.store.lastCheckedTerm hrepl hid hne hevs hproc with
      ⟨hout, s', hrepl', hmir'⟩
    generalize hent : PersistEntry.entry ⟨cpl.store.lastCheckedTerm, payload⟩ = entry
      at hout hrepl'
    have hsnd : Sound (planned cpl.store.lastCheckedTerm ++ [entry]) :=
      (hplan.sound _).concat (by rw [← hent]; exact hid) fun _ => hout
    -- otherwise the plan of its term grows by the entry that the command is persisted as
    generalize hplan' : update planned cpl.store.lastCheckedTerm
      (planned cpl.store.lastCheckedTerm ++ [entry]) = planned'
    have hself : planned' cpl.store.lastCheckedTerm =
        planned cpl.store.lastCheckedTerm ++ [entry] := by
      rw [← hplan', update_self]
    have hoth : ∀ term, term ≠ cpl.store.lastCheckedTerm → planned' term = planned term := by
      intro term hterm
      rw [← hplan', update_of_ne hterm]
    refine ⟨planned', hplan' ▸ hplan.extend hel hfst hsnd, h.persistAsync hpc hoth ?_ (.inr ?_)
        (.inr ⟨base, first, s', hel, hfst, ?_, hmir', ?_⟩), ?_⟩
    · intro other hmem
      rw [hself]
      exact mem_append_left _ hmem
    · rw [hself, hent]
      simp
    · exact (congrArg replay hself).trans hrepl'
    · show cpl.lastCommandId + 1 = (planned' cpl.store.lastCheckedTerm).length
      rw [hself, length_append, hlast]
      rfl
    · constructor
      · intro term
        by_cases hterm : term = cpl.store.lastCheckedTerm
        · rw [hterm, hself]
          exact prefix_append _ _
        · rw [hoth term hterm]
      · intro term hpass
        exact hoth term fun heq => hlt (heq ▸ hpass)
      · intro term c base' hc hel'
        refine hoth term ?_
        rintro rfl
        rw [hel] at hel'
        cases hel'
        exact hc rfl
      · exact fun hsame => nomatch hsame _ hpc
      · intro persistEntry hnew
        rw [hque persistEntry hnew, hent]
        exact .inr hself

/-- A command is judged only, or what it emits is handed on under the next id. -/
theorem processCommand_cases (hrun : cpl.processCommand now command = some cpl') :
    (∃ hint, processCommandAndApply now cpl.snapshot cpl.machine command =
        some (hint, [], cpl.machine) ∧
      cpl' = { cpl with pc := .idle, store := cpl.store.pushTask cpl.lastCommandId hint }) ∨
    ∃ hint events machine payload, events ≠ [] ∧ payload.command = command ∧
      payload.id.toNat = cpl.lastCommandId + 1 ∧
      payload.events = stampAll payload.id 0 events ∧
      processCommandAndApply now cpl.snapshot cpl.machine command = some (hint, events, machine) ∧
      cpl' = { cpl with
        pc := .idle
        machine := machine
        lastCommandId := cpl.lastCommandId + 1
        store := cpl.store.persistAsync payload hint } := by
  rcases Option.bind_eq_some_iff.mp hrun with ⟨⟨hint, events, machine⟩, hproc, hrun⟩
  simp only at hrun
  split at hrun
  · rename_i hnil
    -- nothing was emitted, so nothing changed
    cases hrun
    subst hnil
    have hsame : cpl.machine = machine :=
      Option.some.inj (processCommandAndApply_stateAfter hproc).2
    subst hsame
    exact .inl ⟨hint, hproc, rfl⟩
  · rename_i hne
    split at hrun
    · rename_i hbd
      cases hrun
      exact .inr ⟨hint, events, machine, _, hne, rfl, UInt64.toNat_ofNat_of_lt' hbd, rfl,
        hproc, rfl⟩
    · cases hrun

theorem LeaderInv.processCommand (h : LeaderInv a planned id node eal cpl) (hplan : Plan a planned)
    (hpc : cpl.pc = .processing command) (hr : cpl.processCommand now command = some cpl') :
    ∃ planned', Plan a planned' ∧ LeaderInv a planned' id node eal cpl' ∧
      Replans a id node cpl cpl' planned planned' := by
  rcases processCommand_cases hr with ⟨hint, _, rfl⟩ |
    ⟨hint, events, machine, payload, hne, rfl, hid, he, hp, rfl⟩
  · have hi : LeaderInv a planned id node eal { cpl with pc := .idle } :=
      h.setPc_same trivial (by rw [hpc]; rfl)
    exact ⟨planned, hplan, ⟨hi.logStoreTerm, hi.logStoreRole, hi.elected, trivial, nofun,
      hi.requests, hi.ahead, hi.leads, hi.speculates⟩, Replans.refl le_rfl⟩
  · exact h.execute hplan hpc hid hne he hp

theorem dequeue_length_le {store : RaftLogStore} (hr : store.dequeue config = some logStore) :
    logStore.persistQueue.length ≤ store.persistQueue.length := by
  unfold RaftLogStore.dequeue at hr
  split at hr
  · cases hr
  · rename_i hq
    split at hr
    · cases hr
      simp [hq]
    · cases hr

theorem LeaderInv.dequeue (h : LeaderInv a planned id node eal cpl)
    (hr : cpl.store.logStore.dequeue config = some logStore) :
    LeaderInv a planned id node eal
      { cpl with store := { cpl.store with logStore := logStore } } := by
  unfold RaftLogStore.dequeue at hr
  rcases hq : cpl.store.logStore.persistQueue with _ | ⟨persistEntry, persistQueue⟩
  · rw [hq] at hr
    cases hr
  · rw [hq] at hr
    simp only at hr
    split at hr
    · cases hr
      have hm : ∀ entry ∈ inFlight node
          { cpl.store.logStore with
            persistQueue := persistQueue
            batch := cpl.store.logStore.batch ++ [⟨persistEntry.entry, none⟩] },
          entry ∈ inFlight node cpl.store.logStore := by
        intro entry he
        simpa [inFlight, hq, or_assoc] using he
      exact ⟨h.logStoreTerm, h.logStoreRole, h.elected, h.knows, h.waiting,
        fun entry he => h.requests entry (hm entry he), h.ahead, h.leads, h.speculates⟩
    · cases hr

section Run

variable (h : LeaderInv a planned id node eal cpl) (hplan : Plan a planned) (hinv : GhostInv a)
  (hlog : LogRel id node.log a) (hv : VolatileRel id node a)
  (he : eal.Inv (IsCommitted a node.log.currentTerm) popped delivered) {reading : Reading}
  (hrun : cpl.run node reading eal now = some (cpl', eal'))
include h hplan hinv hlog hv he hrun

/-- A step of `waitTillLeaderIsReadyOrStepDown`, or the swap behind it. -/
theorem LeaderInv.waitRun (hwait : cpl.pc.isWaiting = true) :
    LeaderInv a planned id node eal' cpl' ∧
      (∃ popped' delivered', eal'.Inv (IsCommitted a node.log.currentTerm) popped' delivered') ∧
      cpl'.store = cpl.store := by
  have hpop : IsCommitted a node.log.currentTerm popped :=
    he.read.of_isPrefix (prefix_append _ _)
  have hkn := h.knows
  cases hpc : cpl.pc with simp only [CommandProcessLoop.run, hpc] at hrun hwait
  | idle | readTerm command | readRole command term | readTermAgain command term role
  | processing command => cases hwait
  | checkTerm command =>
    split at hrun
    · cases hrun
      exact ⟨h.setPc_same trivial (by rw [hpc]; rfl), ⟨popped, delivered, he⟩, rfl⟩
    · rename_i hne
      cases hrun
      refine ⟨h.setPc trivial (fun _ => rfl) fun hwait _ => ?_, ⟨popped, delivered, he⟩, rfl⟩
      rcases (h.waiting hwait).2 with ⟨base, hel, _⟩
      have hle := hinv.elected_term_le hel
      rw [hlog.term] at hle
      omega
  | readLastIndex command | readCommitIndex command lastIndex =>
    cases hrun
    exact ⟨h.setPc_same trivial (by rw [hpc]; rfl), ⟨popped, delivered, he⟩, rfl⟩
  | readLoadedIndex command lastIndex commitIndex =>
    cases hrun
    refine ⟨h.setPc_same (fun hne => ?_) (by rw [hpc]; rfl), ⟨popped, delivered, he⟩, rfl⟩
    cases hrec : eal.shouldRecover with
    | false => exact ⟨rfl, le_rfl⟩
    | true =>
      rw [he.recovering hrec] at hne
      exact absurd rfl hne
  | readAppliedIndex command lastIndex commitIndex loadedIndex =>
    rw [hpc] at hkn
    split at hrun
    · rename_i hrdy
      cases hrun
      refine ⟨h.setPc_same (fun hne => ?_) (by rw [hpc]; rfl), ⟨popped, delivered, he⟩, rfl⟩
      rcases hkn (by omega) with ⟨hrec, hle⟩
      exact ⟨_, scanned_init he (hplan.sound_of_committed hinv hpop) hrec (by omega)⟩
    · cases hrun
      exact ⟨h.setPc_same trivial (by rw [hpc]; rfl), ⟨popped, delivered, he⟩, rfl⟩
  | scanning command lastIndex index =>
    rcases Option.map_eq_some_iff.mp hrun with ⟨_, hscan, heq⟩
    cases heq
    exact ⟨h.scan hinv hlog hv hpc hscan, ⟨popped, delivered, he⟩, scan_store hscan⟩
  | swapping command lastIndex =>
    simp only [CommandProcessLoop.swapStateAndTeardown] at hrun
    cases hidle : eal.pc with rw [hidle] at hrun
    | idle =>
      cases hrun
      have hinc := (hplan.sound_of_committed hinv hpop).genuine.increasing he.decrypted
      have hswap := he.swapState (fun _ _ hc hpre => hc.of_isPrefix hpre) hinc hidle cpl.machine
      rw [hidle] at hswap
      exact ⟨h.swap hplan hinv hlog.term he hpc hidle, ⟨_, _, hswap⟩, rfl⟩
    | applying events commandId | committing commandId => cases hrun

/-- A step of the command process loop, on the event apply loop too if it swaps. -/
theorem LeaderInv.cplRun (hread : reading.IsOf node) :
    ∃ planned', Plan a planned' ∧ LeaderInv a planned' id node eal' cpl' ∧
      (∃ popped' delivered', eal'.Inv (IsCommitted a node.log.currentTerm) popped' delivered') ∧
      Replans a id node cpl cpl' planned planned' := by
  have hkn := h.knows
  have hwait := h.waitRun hplan hinv hlog hv he hrun
  cases hpc : cpl.pc with simp only [CommandProcessLoop.run, hpc] at hrun
  | idle => cases hrun
  | readTerm command =>
    cases hrun
    exact ⟨planned, hplan, h.setPc_same le_rfl (by rw [hpc]; rfl), ⟨popped, delivered, he⟩,
      Replans.refl le_rfl⟩
  | readRole command term =>
    cases hrun
    rw [hpc] at hkn
    refine ⟨planned, hplan, h.setPc_same (fun hrole => ?_) (by rw [hpc]; rfl),
      ⟨popped, delivered, he⟩, Replans.refl le_rfl⟩
    have hlead := hread.1 hrole
    exact ⟨node.log.currentTerm, hkn, le_rfl, (hv.leader hlead).elected,
      (h.leads hlead).imp_left fun htook => htook.setPc fun _ => rfl⟩
  | readTermAgain command term role =>
    split at hrun
    · rename_i hterm
      rcases Option.map_eq_some_iff.mp hrun with ⟨_, hrefr, heq⟩
      cases heq
      refine ⟨planned, hplan, h.refreshed hpc hterm hrefr, ⟨popped, delivered, he⟩,
        Replans.refl (Nat.le_of_eq ?_)⟩
      rcases onRefreshed_inv h.logStoreTerm h.logStoreRole hrefr with ⟨rfl, _⟩ |
        ⟨_, ⟨_, rfl⟩ | ⟨_, rfl⟩⟩ <;> rfl
    · cases hrun
      exact ⟨planned, hplan, h.setPc_same trivial (by rw [hpc]; rfl), ⟨popped, delivered, he⟩,
        Replans.refl le_rfl⟩
  | processing command =>
    rcases Option.map_eq_some_iff.mp hrun with ⟨_, hproc, heq⟩
    cases heq
    rcases h.processCommand hplan hpc hproc with ⟨planned', hplan', h', hrepl⟩
    exact ⟨planned', hplan', h', ⟨popped, delivered, he⟩, hrepl⟩
  | _ =>
    obtain ⟨h', he', hstore⟩ := hwait (by rw [hpc]; rfl)
    exact ⟨planned, hplan, h', he', Replans.refl (by rw [hstore])⟩

end Run

end MySuperLedger.Replica
