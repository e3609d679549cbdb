import MySuperLedger.Collections.Numbered
import MySuperLedger.Control.Split
import MySuperLedger.Ledger.RocksDB
import MySuperLedger.Transition.System

/-! # Control state across takeover and recovery

Both state machines of a process hold ledger maps and a control state. Swapping,
clearing, flushing and loading are written for the maps one by one, and the
control state is in none of the lists: `swapState` leaves each machine its own,
`recoverSelf` keeps what happens to be there, and a new process starts with the
initial one. So the machine that processes commands has the control state of the
log only if the splits it made itself end like those of the log.
-/

namespace MySuperLedger.Control

open Ledger Collections Transition List Option

inductive AppEvent where
  | ledger (event : Event)
  | split (event : SplitEvent)

def splitsIn (events : List AppEvent) : List SplitEvent :=
  events.filterMap fun
    | .ledger _ => none
    | .split event => some event

structure AppBundle where
  id : UInt64
  events : List AppEvent

def splitsOf (bundles : List AppBundle) : List SplitEvent :=
  bundles.flatMap fun bundle => splitsIn bundle.events

structure MemoryMachine where
  ledger : AppState := {}
  ctrl : CtrlState

structure RocksDBMachine where
  ledger : RocksDBBacked := {}
  ctrl : CtrlState

namespace MemoryMachine

/-- `applyEvent`: control events go to the control state, the others to their applier. -/
def applyEvent (groupId : UInt64) (machine : MemoryMachine) : AppEvent → Option MemoryMachine
  | .ledger event =>
    (Ledger.applyEvent machine.ledger event).map fun (ledger, _) =>
      { machine with ledger := ledger }
  | .split event => (event.apply groupId machine.ctrl).map fun ctrl => { machine with ctrl := ctrl }

def applyEvents (groupId : UInt64) (machine : MemoryMachine) : List AppEvent → Option MemoryMachine
  | [] => some machine
  | event :: events =>
    (machine.applyEvent groupId event).bind fun machine => machine.applyEvents groupId events

end MemoryMachine

namespace RocksDBMachine

def applyEvent (groupId : UInt64) (machine : RocksDBMachine) : AppEvent → Option RocksDBMachine
  | .ledger event =>
    (machine.ledger.applyEvent event).map fun ledger => { machine with ledger := ledger }
  | .split event => (event.apply groupId machine.ctrl).map fun ctrl => { machine with ctrl := ctrl }

def applyEvents (groupId : UInt64) (machine : RocksDBMachine) :
    List AppEvent → Option RocksDBMachine
  | [] => some machine
  | event :: events =>
    (machine.applyEvent groupId event).bind fun machine => machine.applyEvents groupId events

def commit (machine : RocksDBMachine) (appliedIndex : UInt64) : RocksDBMachine :=
  { machine with ledger := machine.ledger.commit appliedIndex }

/-- `recoverSelf`: `clearState` and `loadFromRocksDB` pass the control state by. -/
def recoverSelf (machine : RocksDBMachine) : Option RocksDBMachine :=
  machine.ledger.recoverSelf.map fun ledger => { machine with ledger := ledger }

end RocksDBMachine

/-- `MemoryBackedAppStateMachine::swapState`: the three maps change hands. -/
def MemoryMachine.swapState (memory : MemoryMachine) (another : RocksDBMachine) :
    MemoryMachine × RocksDBMachine :=
  let (mine, yours) := RocksDBBacked.swapState memory.ledger another.ledger
  ({ memory with ledger := mine }, { another with ledger := yours })

/-- The two loops of a process, with a machine each. -/
structure Node where
  memory : MemoryMachine
  rocksDB : RocksDBMachine
  /-- `mLastAppliedLogEntryIndex` of the event apply loop. -/
  lastApplied : UInt64 := 0
  pending : List AppBundle := []
  shouldRecover : Bool := true
  /-- `mLastCommandId` of the command process loop, while it leads. -/
  leading : Option UInt64 := none
  /-- The splits that the memory-backed machine has made since the process started. This is
  history: no step reads it. -/
  made : List SplitEvent := []

inductive NodeAction where
  | applyBundle
  | takeOver
  | processCommand
  | stepDown
  | recover
  | crash

variable (groupId : UInt64) (initial : CtrlState) (bundles : List AppBundle)

namespace Node

def start (db : RocksDB) : Node where
  memory := { ctrl := initial }
  rocksDB := { ledger := { rocksDB := db }, ctrl := initial }

/-- One step of either loop over the committed log `bundles`. The apply loop holds
its mutex for a whole bundle, and a takeover waits until it has caught up. The
leader's next command is the next bundle of the log. -/
def step (node : Node) : NodeAction → Option Node
  | .applyBundle =>
    if node.shouldRecover then none
    else
      match node.pending with
      | [] => none
      | bundle :: pending =>
        (node.rocksDB.applyEvents groupId bundle.events).map fun rocksDB =>
          { node with
            rocksDB := rocksDB.commit bundle.id
            lastApplied := bundle.id
            pending := pending }
  | .takeOver =>
    if node.shouldRecover then none
    else
      let (memory, rocksDB) := node.memory.swapState node.rocksDB
      some { node with
        memory := memory, rocksDB := rocksDB
        leading := some node.lastApplied, shouldRecover := true }
  | .processCommand =>
    node.leading.bind fun lastCommandId =>
      match laterThan AppBundle.id bundles lastCommandId with
      | [] => none
      | bundle :: _ =>
        (node.memory.applyEvents groupId bundle.events).map fun memory =>
          { node with
            memory := memory
            leading := some bundle.id
            made := node.made ++ splitsIn bundle.events }
  | .stepDown => some { node with leading := none }
  | .recover =>
    if node.shouldRecover then
      node.rocksDB.recoverSelf.map fun rocksDB =>
        { node with
          rocksDB := rocksDB
          lastApplied := rocksDB.ledger.lastFlushedIndex
          pending := laterThan AppBundle.id bundles rocksDB.ledger.lastFlushedIndex
          shouldRecover := false }
    else none
  | .crash => some (start initial node.rocksDB.ledger.rocksDB)

def system : System Node :=
  System.ofStep (start initial {}) (step groupId initial bundles)

end Node

/-- `ctrl` is what the split events up to `index` lead to. -/
def HasLogControl (index : UInt64) (ctrl : CtrlState) : Prop :=
  ∃ reference, applySplits groupId initial (splitsOf (upTo AppBundle.id bundles index)) =
    some reference ∧ SameControl ctrl reference

/-- The machine that processes the next command has the control state of the log. -/
def Node.IsControlled (node : Node) : Prop :=
  ∀ lastCommandId, node.leading = some lastCommandId →
    HasLogControl groupId initial bundles lastCommandId node.memory.ctrl

/-- If the step is a takeover, every split of the log so far can be made, and the splits that
the memory-backed machine has made end like them: in the same routes by the last split, and in
the same epoch and plan by the last one that names the cluster. -/
def Node.TakesOverInControl (node : Node) : NodeAction → Prop
  | .takeOver =>
    (∀ split ∈ splitsOf (upTo AppBundle.id bundles node.lastApplied), split.IsSound groupId) ∧
      lastControl groupId initial node.made =
        lastControl groupId initial (splitsOf (upTo AppBundle.id bundles node.lastApplied))
  | _ => True

theorem MemoryMachine.applyEvents_ctrl {groupId : UInt64} {machine after : MemoryMachine}
    {events : List AppEvent} (h : machine.applyEvents groupId events = some after) :
    applySplits groupId machine.ctrl (splitsIn events) = some after.ctrl := by
  induction events generalizing machine with
  | nil =>
    cases h
    rfl
  | cons event events ih =>
    obtain ⟨next, hn, hr⟩ := bind_eq_some_iff.mp h
    cases event with
    | ledger event =>
      obtain ⟨⟨ledger, callbacks⟩, -, rfl⟩ := map_eq_some_iff.mp hn
      simpa [splitsIn] using ih hr
    | split event =>
      obtain ⟨ctrl, hc, rfl⟩ := map_eq_some_iff.mp hn
      simpa [splitsIn, applySplits, hc] using ih hr

section

variable {groupId initial bundles}

/-- A control state that comes from splits shows only how they end. -/
theorem hasLogControl_iff {made : List SplitEvent} {ctrl : CtrlState} (index : UInt64)
    (hm : applySplits groupId initial made = some ctrl) :
    HasLogControl groupId initial bundles index ctrl ↔
      (∀ split ∈ splitsOf (upTo AppBundle.id bundles index), split.IsSound groupId) ∧
        lastControl groupId initial made =
          lastControl groupId initial (splitsOf (upTo AppBundle.id bundles index)) := by
  rw [← applySplits_isSome_iff groupId initial, ← applySplits_control hm]
  constructor
  · rintro ⟨reference, hr, hs⟩
    rw [hr, ← applySplits_control hr]
    exact ⟨rfl, sameControl_iff.mp hs⟩
  · rintro ⟨hsome, hlast⟩
    obtain ⟨reference, hr⟩ := isSome_iff_exists.mp hsome
    refine ⟨reference, hr, sameControl_iff.mpr ?_⟩
    rw [hlast, applySplits_control hr]

theorem HasLogControl.next {index : UInt64} {ctrl after : CtrlState} {bundle : AppBundle}
    {rest : List AppBundle} (hi : Increasing AppBundle.id bundles)
    (hn : laterThan AppBundle.id bundles index = bundle :: rest)
    (hc : HasLogControl groupId initial bundles index ctrl)
    (h : applySplits groupId ctrl (splitsIn bundle.events) = some after) :
    HasLogControl groupId initial bundles bundle.id after := by
  obtain ⟨reference, hr, hsame⟩ := hc
  obtain ⟨reference', hr', hs'⟩ := applySplits_congr hsame h
  refine ⟨reference', ?_, hs'⟩
  have hs : splitsOf (upTo AppBundle.id bundles index ++ [bundle]) =
      splitsOf (upTo AppBundle.id bundles index) ++ splitsIn bundle.events := by
    simp [splitsOf]
  rw [upTo_next hi hn, hs, applySplits_append, hr, bind_some, hr']

/-- What a step can do to the control state of the memory-backed machine. -/
inductive Node.ControlMove (groupId : UInt64) (initial : CtrlState) (bundles : List AppBundle)
    (node after : Node) (action : NodeAction) : Prop where
  | keep (hctrl : after.memory.ctrl = node.memory.ctrl) (hmade : after.made = node.made)
      (hleading : after.leading = node.leading ∨ after.leading = none)
  | takeOver (haction : action = .takeOver) (hctrl : after.memory.ctrl = node.memory.ctrl)
      (hmade : after.made = node.made) (hleading : after.leading = some node.lastApplied)
  | process {lastCommandId : UInt64} {bundle : AppBundle} {rest : List AppBundle}
      (hbefore : node.leading = some lastCommandId)
      (hnext : laterThan AppBundle.id bundles lastCommandId = bundle :: rest)
      (happly : applySplits groupId node.memory.ctrl (splitsIn bundle.events) =
        some after.memory.ctrl)
      (hmade : after.made = node.made ++ splitsIn bundle.events)
      (hleading : after.leading = some bundle.id)
  | restart (hctrl : after.memory.ctrl = initial) (hmade : after.made = [])
      (hleading : after.leading = none)

variable {after node : Node} {action : NodeAction}

theorem Node.step_controlMove (h : node.step groupId initial bundles action = some after) :
    ControlMove groupId initial bundles node after action := by
  cases action with
  | applyBundle =>
    simp only [Node.step] at h
    split_ifs at h
    split at h
    · cases h
    · obtain ⟨rocksDB, -, rfl⟩ := map_eq_some_iff.mp h
      exact .keep rfl rfl (.inl rfl)
  | takeOver =>
    simp only [Node.step] at h
    split_ifs at h
    cases h
    exact .takeOver rfl rfl rfl rfl
  | processCommand =>
    obtain ⟨lastCommandId, hpre, h⟩ := bind_eq_some_iff.mp h
    split at h
    · cases h
    · rename_i bundle rest hnext
      obtain ⟨memory, hmem, rfl⟩ := map_eq_some_iff.mp h
      exact .process hpre hnext (MemoryMachine.applyEvents_ctrl hmem) rfl rfl
  | stepDown =>
    cases h
    exact .keep rfl rfl (.inr rfl)
  | recover =>
    simp only [Node.step] at h
    split_ifs at h
    obtain ⟨rocksDB, -, rfl⟩ := map_eq_some_iff.mp h
    exact .keep rfl rfl (.inl rfl)
  | crash =>
    cases h
    exact .restart rfl rfl rfl

/-- The control state of the memory-backed machine comes from the splits in its history. -/
def Node.HasMadeControl (groupId : UInt64) (initial : CtrlState) (node : Node) : Prop :=
  applySplits groupId initial node.made = some node.memory.ctrl

theorem Node.HasMadeControl.step (hm : node.HasMadeControl groupId initial)
    (h : node.step groupId initial bundles action = some after) :
    after.HasMadeControl groupId initial := by
  unfold HasMadeControl at hm ⊢
  cases Node.step_controlMove h with
  | keep hc hmade _ => rw [hc, hmade, hm]
  | takeOver _ hc hmade _ => rw [hc, hmade, hm]
  | process _ _ happ hmade _ => rw [hmade, applySplits_append, hm, bind_some, happ]
  | restart hc hmade _ => rw [hc, hmade, applySplits]

theorem Node.isControlled_of_not_leading (h : node.leading = none) :
    node.IsControlled groupId initial bundles := by
  intro lastCommandId hl
  simp [h] at hl

theorem Node.IsControlled.step (hinc : Increasing AppBundle.id bundles)
    (hm : node.HasMadeControl groupId initial) (hi : node.IsControlled groupId initial bundles)
    (hok : node.TakesOverInControl groupId initial bundles action)
    (h : node.step groupId initial bundles action = some after) :
    after.IsControlled groupId initial bundles := by
  cases Node.step_controlMove h with
  | keep hc _ hl =>
    rcases hl with hl | hl
    · simpa only [IsControlled, hc, hl] using hi
    · exact Node.isControlled_of_not_leading hl
  | takeOver ha hc _ hl =>
    subst ha
    intro lastCommandId heq
    obtain rfl : node.lastApplied = lastCommandId := some.inj (hl.symm.trans heq)
    rw [hc]
    exact (hasLogControl_iff node.lastApplied hm).mpr hok
  | process hp hn happ _ hl =>
    intro lastCommandId heq
    obtain rfl := some.inj (hl.symm.trans heq)
    exact (hi _ hp).next hinc hn happ
  | restart _ _ hl => exact Node.isControlled_of_not_leading hl

/-- The runs whose takeovers all find the control state in place. -/
def Node.controlledSystem (groupId : UInt64) (initial : CtrlState) (bundles : List AppBundle) :
    System Node :=
  System.ofGuardedStep (Node.start initial {}) (Node.TakesOverInControl groupId initial bundles)
    (Node.step groupId initial bundles)

theorem Node.not_isControlled_of_takeOver (hm : node.HasMadeControl groupId initial)
    (h : node.step groupId initial bundles action = some after)
    (ho : ¬ node.TakesOverInControl groupId initial bundles action) :
    ¬ after.IsControlled groupId initial bundles := by
  obtain rfl : action = .takeOver := by
    cases action <;> simp_all [TakesOverInControl]
  simp only [Node.step] at h
  split_ifs at h
  cases h
  exact fun hc => ho ((hasLogControl_iff node.lastApplied hm).mp (hc node.lastApplied rfl))

end

/-- While every takeover is in control, the machine that takes commands has the
control state of the log; a takeover that is not leaves it without. -/
theorem control_survives (hinc : Increasing AppBundle.id bundles) :
    (∀ node, (Node.controlledSystem groupId initial bundles).Reachable node →
      node.IsControlled groupId initial bundles) ∧
    (∀ node action after, (Node.system groupId initial bundles).Reachable node →
      node.step groupId initial bundles action = some after →
      ¬ node.TakesOverInControl groupId initial bundles action →
      ¬ after.IsControlled groupId initial bundles) := by
  constructor
  · intro node hr
    refine (hr.invariant (fun node => node.HasMadeControl groupId initial ∧
      node.IsControlled groupId initial bundles) ?_ ?_).2
    · rintro node rfl
      exact ⟨rfl, nofun⟩
    · rintro node after ⟨hm, hi⟩ ⟨action, hok, hs⟩
      exact ⟨hm.step hs, hi.step hinc hm hok hs⟩
  · intro node action after hr hs ho
    refine Node.not_isControlled_of_takeOver (hr.invariant _ ?_ ?_) hs ho
    · rintro node rfl
      rfl
    · rintro node after hm ⟨action, hs⟩
      exact Node.HasMadeControl.step hm hs

/-- A split that gives this cluster group 3, and a new account. -/
def splitLog : List AppBundle :=
  [⟨1, [.split ⟨1, ⟨1, "plan-1", [⟨⟨0, [3], 8⟩, 0, false⟩]⟩⟩]⟩,
   ⟨2, [.ledger (.ofPayload 0 (.accountCreated ⟨1, .asset, 1001, "cash", "", 840, {}⟩))]⟩]

def initialCtrl : CtrlState := { clusterId := 0, startIndex := 0 }

theorem increasing_splitLog : Increasing AppBundle.id splitLog := by
  unfold Increasing splitLog
  decide

instance (event : SplitEvent) : Decidable (event.IsSound groupId) :=
  inferInstanceAs (Decidable (∀ impact ∈ _, _ → _ → _))

instance (node : Node) (action : NodeAction) :
    Decidable (node.TakesOverInControl groupId initial bundles action) := by
  cases action <;> unfold Node.TakesOverInControl <;> infer_instance

/-- The leader makes the split itself, and takes over once more after it. -/
theorem control_survives_ownSplit : Increasing AppBundle.id splitLog ∧ ∃ node,
      (Node.controlledSystem 0 initialCtrl splitLog).Reachable node ∧
      node.leading = some 1 ∧ node.memory.ctrl.epoch = 1 ∧
      node.IsControlled 0 initialCtrl splitLog := by
  obtain ⟨node, he, hl, hep⟩ : ∃ node,
      System.exec (System.guardStep (Node.TakesOverInControl 0 initialCtrl splitLog)
        (Node.step 0 initialCtrl splitLog)) (Node.start initialCtrl {})
        [.recover, .takeOver, .processCommand, .stepDown, .recover, .applyBundle, .takeOver] =
          some node ∧
      node.leading = some 1 ∧ node.memory.ctrl.epoch = 1 := ⟨_, rfl, rfl, rfl⟩
  have hr : (Node.controlledSystem 0 initialCtrl splitLog).Reachable node :=
    ⟨_, rfl, System.guarded_runs_of_exec he⟩
  exact ⟨increasing_splitLog, node, hr, hl, hep,
    (control_survives 0 initialCtrl splitLog increasing_splitLog).1 node hr⟩

/-- The apply loop makes the split, and the leader takes over without it. -/
theorem not_isControlled_splitLog :
    Increasing AppBundle.id splitLog ∧ ∃ node, (Node.system 0 initialCtrl splitLog).Reachable node ∧
      ¬ node.IsControlled 0 initialCtrl splitLog := by
  obtain ⟨node, hexec, hl, he⟩ : ∃ node,
      System.exec (Node.step 0 initialCtrl splitLog) (Node.start initialCtrl {})
        [.recover, .applyBundle, .takeOver] = some node ∧
      node.leading = some 1 ∧ node.memory.ctrl.epoch = 0 := ⟨_, rfl, rfl, rfl⟩
  refine ⟨increasing_splitLog, node, ⟨_, rfl, System.runs_of_exec hexec⟩, fun hc => ?_⟩
  obtain ⟨reference, hr, hsame, -⟩ := hc 1 hl
  have hs : (applySplits 0 initialCtrl (splitsOf (upTo AppBundle.id splitLog 1))).map
      CtrlState.epoch = some 1 := by decide
  simp [hr, ← hsame, he] at hs

end MySuperLedger.Control
