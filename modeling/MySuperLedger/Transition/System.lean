import Mathlib.Logic.Relation

/-! # Transition systems

States, initial states and a step relation, with the two rules every later
argument uses: an invariant that holds initially and is kept by a step holds in
every reachable state, and a simulation carries runs of one system to runs of
another. A system whose steps are computed from labels can be run on a list of
them.
-/

namespace Transition

open Option

structure System (State : Type) where
  init : State → Prop
  step : State → State → Prop

namespace System

variable {State Abstract : Type}

/-- `after` comes later in a run that passes through `s`. -/
def Runs (system : System State) (s after : State) : Prop :=
  Relation.ReflTransGen system.step s after

def Reachable (system : System State) (s : State) : Prop :=
  ∃ start, system.init start ∧ system.Runs start s

theorem Runs.refl (system : System State) (s : State) : system.Runs s s :=
  Relation.ReflTransGen.refl

variable {system : System State} {s after : State} {Label : Type} {start : State}
  {labels : List Label} {ok : State → Label → Prop}

theorem Runs.step (h : system.step s after) : system.Runs s after :=
  Relation.ReflTransGen.single h

theorem Runs.trans {middle : State} (hf : system.Runs s middle)
    (hs : system.Runs middle after) : system.Runs s after :=
  Relation.ReflTransGen.trans hf hs

theorem Reachable.runs (hs : system.Reachable s) (hr : system.Runs s after) :
    system.Reachable after := by
  rcases hs with ⟨start, hi, hst⟩
  exact ⟨start, hi, hst.trans hr⟩

theorem Reachable.step (hs : system.Reachable s) (hstep : system.step s after) :
    system.Reachable after :=
  hs.runs (Runs.step hstep)

theorem Reachable.init (h : system.init s) : system.Reachable s :=
  ⟨s, h, Runs.refl system s⟩

theorem Runs.invariant (inv : State → Prop)
    (hstep : ∀ {s after}, inv s → system.step s after → inv after) (hr : system.Runs s after)
    (hs : inv s) : inv after := by
  induction hr with
  | refl => exact hs
  | tail _ hl ih => exact hstep ih hl

theorem Reachable.invariant (inv : State → Prop) (hi : ∀ {s}, system.init s → inv s)
    (hstep : ∀ {s after}, inv s → system.step s after → inv after) (hs : system.Reachable s) :
    inv s := by
  rcases hs with ⟨start, hst, hr⟩
  exact Runs.invariant inv hstep hr (hi hst)

/-- If there is always a step that lowers a rank or reaches the goal, some run reaches it. -/
theorem Runs.exists_of_rank {Rank : Type} {lt : Rank → Rank → Prop} (hwf : WellFounded lt)
    (rank : State → Rank) (inv goal : State → Prop)
    (hstep : ∀ {s}, inv s → ∃ after, system.step s after ∧
      (goal after ∨ inv after ∧ lt (rank after) (rank s))) (hs : inv s) :
    ∃ after, system.Runs s after ∧ goal after := by
  induction hr : rank s using hwf.induction generalizing s with
  | _ _ ih =>
    obtain ⟨next, hn, hg | ⟨hi, hlt⟩⟩ := hstep hs
    · exact ⟨next, Runs.step hn, hg⟩
    · obtain ⟨after, hruns, hg⟩ := ih _ (hr ▸ hlt) hi rfl
      exact ⟨after, (Runs.step hn).trans hruns, hg⟩

/-- The system of a step function. -/
def ofStep {Label : Type} (start : State) (step : State → Label → Option State) : System State where
  init s := s = start
  step s after := ∃ label, step s label = some after

/-- The state after a list of labels, if every step can be taken. -/
def exec {Label : Type} (step : State → Label → Option State) (s : State) :
    List Label → Option State
  | [] => some s
  | label :: labels => (step s label).bind fun next => exec step next labels

theorem runs_of_exec {step : State → Label → Option State} (h : exec step s labels = some after) :
    (ofStep start step).Runs s after := by
  induction labels generalizing s with
  | nil =>
    cases h
    exact Runs.refl _ _
  | cons label labels ih =>
    rcases bind_eq_some_iff.mp h with ⟨next, hs, hr⟩
    have ho : (ofStep start step).step s next := ⟨label, hs⟩
    exact (Runs.step ho).trans (ih hr)

theorem runs_of_isSome (other : State) {step : State → Label → Option State}
    (h : (exec step s labels).isSome = true) :
    (ofStep start step).Runs s ((exec step s labels).getD other) := by
  rcases isSome_iff_exists.mp h with ⟨after, he⟩
  rw [he]
  exact runs_of_exec he

/-- The runs of a step function whose steps all meet `ok`. -/
def ofGuardedStep {Label : Type} (start : State) (ok : State → Label → Prop)
    (step : State → Label → Option State) : System State where
  init s := s = start
  step s after := ∃ label, ok s label ∧ step s label = some after

theorem Reachable.of_guarded {step : State → Label → Option State}
    (hs : (ofGuardedStep start ok step).Reachable s) : (ofStep start step).Reachable s := by
  rcases hs with ⟨first, hi, hr⟩
  refine ⟨first, hi, ?_⟩
  induction hr with
  | refl => exact Runs.refl _ _
  | tail _ hl ih =>
    rcases hl with ⟨label, -, hstep⟩
    have ho : (ofStep start step).step _ _ := ⟨label, hstep⟩
    exact ih.trans (Runs.step ho)

/-- The step function that refuses the steps outside `ok`. -/
def guardStep {Label : Type} (ok : State → Label → Prop) [∀ s label, Decidable (ok s label)]
    (step : State → Label → Option State) (s : State) (label : Label) : Option State :=
  if ok s label then step s label else none

theorem guarded_runs_of_exec [∀ s label, Decidable (ok s label)]
    {step : State → Label → Option State} (h : exec (guardStep ok step) s labels = some after) :
    (ofGuardedStep start ok step).Runs s after := by
  induction labels generalizing s with
  | nil =>
    cases h
    exact Runs.refl _ _
  | cons label labels ih =>
    rcases bind_eq_some_iff.mp h with ⟨next, hs, hr⟩
    rcases ite_none_right_eq_some.mp hs with ⟨hok, hs⟩
    have ho : (ofGuardedStep start ok step).step s next := ⟨label, hok, hs⟩
    exact (Runs.step ho).trans (ih hr)

/-- Every step of `concrete` from a related state is matched by a run of
`abstract` that ends in a related state. -/
structure Simulation (concrete : System State) (abstract : System Abstract)
    (related : State → Abstract → Prop) : Prop where
  init : ∀ {s}, concrete.init s → ∃ a, abstract.init a ∧ related s a
  step : ∀ {s after a}, related s a → concrete.step s after →
    ∃ a', abstract.Runs a a' ∧ related after a'

namespace Simulation

variable {concrete : System State} {abstract : System Abstract} {related : State → Abstract → Prop}
  {s : State}

theorem runs (sim : Simulation concrete abstract related) {after : State} {a : Abstract}
    (hrel : related s a) (hr : concrete.Runs s after) :
    ∃ a', abstract.Runs a a' ∧ related after a' := by
  induction hr with
  | refl => exact ⟨a, Runs.refl abstract a, hrel⟩
  | tail _ hl ih =>
    rcases ih with ⟨a', ha, hr'⟩
    rcases sim.step hr' hl with ⟨a'', ha', hr''⟩
    exact ⟨a'', ha.trans ha', hr''⟩

theorem reachable (sim : Simulation concrete abstract related) (hs : concrete.Reachable s) :
    ∃ a, abstract.Reachable a ∧ related s a := by
  rcases hs with ⟨start, hi, hr⟩
  rcases sim.init hi with ⟨a, ha, hrel⟩
  rcases sim.runs hrel hr with ⟨a', hr', hrel'⟩
  exact ⟨a', (Reachable.init ha).runs hr', hrel'⟩

end Simulation

end System

end Transition
