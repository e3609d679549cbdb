import MySuperLedger.Control.Commands
import MySuperLedger.Transition.System

/-! # Split plans over time

A cluster takes split commands one after the other: a command that was verified is
processed against the control state, and if it is accepted, its event is applied.
Whether a command is accepted depends on the epoch of the control state. An event
sets that epoch only if it names this cluster, so a plan for other clusters leaves
no trace and its epoch can be used again.
-/

namespace MySuperLedger.Control

open Ledger (ProcessHint)
open Ledger.Request (kVerifiedSuccess)
open Transition List Option SplitEvent SplitCommand

def CtrlState.hasState (state : CtrlState) : Bool := 0 < state.epoch

namespace SplitCommand

/-- `SplitCommand::process`, with the requests of the events it pushes. -/
def process (request : Protos.SplitRequest) (state : CtrlState) :
    ProcessHint × List Protos.SplitRequest :=
  if state.hasState then
    if request.epoch < state.epoch then
      (⟨400, "epoch should be greater than " ++ toString state.epoch⟩, [])
    else if request.epoch = state.epoch then
      if request.planId = state.planId then (⟨201, "deduped"⟩, [])
      else (⟨400, "plan id should be " ++ state.planId⟩, [])
    else (⟨200, "ok"⟩, [request])
  else (⟨200, "ok"⟩, [request])

variable {request : Protos.SplitRequest} {state : CtrlState}

theorem process_of_lt (h : state.epoch < request.epoch) :
    process request state = (⟨200, "ok"⟩, [request]) := by
  have hn : ¬ request.epoch < state.epoch := UInt64.lt_asymm h
  have hne : request.epoch ≠ state.epoch := (UInt64.ne_of_lt h).symm
  simp [process, hn, hne]

theorem process_of_le (hpos : 0 < request.epoch) (h : request.epoch ≤ state.epoch) :
    (process request state).2 = [] ∧
      ((request.epoch = state.epoch → request.planId ≠ state.planId) →
        (process request state).1.code = 400) := by
  have hst : state.hasState = true := by
    simpa [CtrlState.hasState] using UInt64.lt_of_lt_of_le hpos h
  unfold process
  rw [if_pos hst]
  split
  · exact ⟨rfl, fun _ => rfl⟩
  · rename_i hlt
    have heq : request.epoch = state.epoch := UInt64.le_antisymm h (UInt64.not_lt.mp hlt)
    rw [if_pos heq]
    split
    · next hp => exact ⟨rfl, fun ho => absurd hp (ho heq)⟩
    · exact ⟨rfl, fun _ => rfl⟩

end SplitCommand

namespace SplitEvent

variable {groupId : UInt64} {state after : CtrlState} {event : SplitEvent}

theorem apply_of_impacted (hi : event.impacted groupId = true)
    (h : event.apply groupId state = some after) :
    after.epoch = event.request.epoch ∧ after.planId = event.request.planId := by
  obtain ⟨written, _, rfl⟩ := map_eq_some_iff.mp h
  rw [if_pos hi]
  exact ⟨rfl, rfl⟩

theorem apply_of_not_impacted (hm : event.impacted groupId = false)
    (h : event.apply groupId state = some after) :
    after.epoch = state.epoch ∧ after.planId = state.planId := by
  obtain ⟨written, hw, rfl⟩ := map_eq_some_iff.mp h
  have hf := (applyImpacts_control hw).2
  simp only [hm, Bool.false_eq_true, if_false]
  exact hf

end SplitEvent

structure Planned where
  ctrl : CtrlState
  /-- All events so far. -/
  emitted : List SplitEvent := []

namespace Planned

variable (groupId : UInt64)

/-- A verified command is processed, and its events are applied. They get the id of the command. -/
def step (s : Planned) : Protos.SplitRequest × UInt64 → Option Planned
  | (request, commandId) =>
    if verifyCommand request = kVerifiedSuccess then
      let events := (process request s.ctrl).2.map (SplitEvent.mk commandId)
      (applySplits groupId s.ctrl events).map fun ctrl => ⟨ctrl, s.emitted ++ events⟩
    else none

def start (clusterId startIndex : UInt64) : Planned where
  ctrl := { clusterId := clusterId, startIndex := startIndex }

def system (clusterId startIndex : UInt64) : System Planned :=
  .ofStep (start clusterId startIndex) (step groupId)

/-- A plan with a new epoch names this cluster. -/
def Concerns (s : Planned) : Protos.SplitRequest × UInt64 → Prop
  | (request, _) => s.ctrl.epoch < request.epoch →
      ∃ impact ∈ request.impacts, impact.clusterId = groupId

instance (s : Planned) (command : Protos.SplitRequest × UInt64) :
    Decidable (s.Concerns groupId command) :=
  inferInstanceAs (Decidable (s.ctrl.epoch < command.1.epoch →
    ∃ impact ∈ command.1.impacts, impact.clusterId = groupId))

/-- The runs in which all accepted plans name this cluster. -/
def concerned (clusterId startIndex : UInt64) : System Planned :=
  .ofGuardedStep (start clusterId startIndex) (Concerns groupId) (step groupId)

def EpochsIncrease (s : Planned) : Prop :=
  s.emitted.Pairwise fun first second => first.request.epoch < second.request.epoch

variable {groupId} {clusterId startIndex : UInt64} {s s' : Planned}
  {request : Protos.SplitRequest} {commandId : UInt64}

/-- Everything a step can do: the command changes nothing, or it is accepted. -/
theorem step_inv (h : s.step groupId (request, commandId) = some s') :
    verifyCommand request = kVerifiedSuccess ∧ 0 < request.epoch ∧
      ((request.epoch ≤ s.ctrl.epoch ∧ s' = s) ∨ (s.ctrl.epoch < request.epoch ∧ ∃ ctrl,
          apply ⟨commandId, request⟩ groupId s.ctrl = some ctrl ∧
          s' = ⟨ctrl, s.emitted ++ [⟨commandId, request⟩]⟩)) := by
  simp only [step] at h
  split at h
  · rename_i hv
    have hp := (verifyCommand_eq_success_iff.mp hv).2.1
    refine ⟨hv, hp, ?_⟩
    by_cases hle : request.epoch ≤ s.ctrl.epoch
    · rw [(process_of_le hp hle).1] at h
      simp only [map_nil, applySplits, map_some, append_nil, Option.some.injEq] at h
      exact .inl ⟨hle, h.symm⟩
    · have hlt : s.ctrl.epoch < request.epoch := UInt64.not_le.mp hle
      rw [process_of_lt hlt] at h
      obtain ⟨ctrl, hc, heq⟩ := map_eq_some_iff.mp h
      simp only [map_cons, map_nil, applySplits, bind_fun_some] at hc
      exact .inr ⟨hlt, ctrl, hc, heq.symm⟩
  · cases h

/-- The control state has the epoch of the last event, and the plan that goes with it. -/
structure Inv (s : Planned) : Prop where
  increase : s.EpochsIncrease
  pos : ∀ event ∈ s.emitted, 0 < event.request.epoch
  le : ∀ event ∈ s.emitted, event.request.epoch ≤ s.ctrl.epoch
  planId : ∀ event ∈ s.emitted, event.request.epoch = s.ctrl.epoch →
    event.request.planId = s.ctrl.planId

theorem Inv.step (h : Inv s) (hconc : s.Concerns groupId (request, commandId))
    (hstep : s.step groupId (request, commandId) = some s') : Inv s' := by
  obtain ⟨_, hpos, ⟨_, rfl⟩ | ⟨hlt, ctrl, happ, rfl⟩⟩ := step_inv hstep
  · exact h
  · have himp : impacted ⟨commandId, request⟩ groupId = true := by
      simpa [impacted] using hconc hlt
    obtain ⟨hep, hplan⟩ := apply_of_impacted himp happ
    have hbel : ∀ event ∈ s.emitted, event.request.epoch < request.epoch := fun event hev =>
      UInt64.lt_of_le_of_lt (h.le event hev) hlt
    constructor
    · refine pairwise_append.mpr ⟨h.increase, pairwise_singleton _ _, ?_⟩
      intro first hfst second hsnd
      rw [mem_singleton.mp hsnd]
      exact hbel first hfst
    · simpa [or_imp, forall_and, hpos] using h.pos
    · intro event hev
      rw [hep]
      rcases mem_append.mp hev with hold | hnew
      · exact UInt64.le_of_lt (hbel event hold)
      · rw [mem_singleton.mp hnew]
        exact UInt64.le_refl _
    · intro event hev heq
      rw [hplan]
      rcases mem_append.mp hev with hold | hnew
      · rw [hep] at heq
        exact absurd heq (UInt64.ne_of_lt (hbel event hold))
      · rw [mem_singleton.mp hnew]

theorem inv_of_concerned (hs : (concerned groupId clusterId startIndex).Reachable s) : Inv s := by
  refine hs.invariant Inv ?_ ?_
  · rintro s rfl
    exact ⟨.nil, by simp [start], by simp [start], by simp [start]⟩
  · rintro s s' hi ⟨⟨request, commandId⟩, hc, hstep⟩
    exact hi.step hc hstep

theorem step_of_lt {ctrl : CtrlState} (hv : verifyCommand request = kVerifiedSuccess)
    (hlt : s.ctrl.epoch < request.epoch)
    (ha : SplitEvent.apply ⟨commandId, request⟩ groupId s.ctrl = some ctrl) :
    s.step groupId (request, commandId) =
      some ⟨ctrl, s.emitted ++ [⟨commandId, request⟩]⟩ := by
  simp [step, hv, process_of_lt hlt, applySplits, ha]

/-- A plan that gives this cluster nothing. -/
def emptyPlan (groupId epoch : UInt64) : Protos.SplitRequest :=
  ⟨epoch, "empty", [{ clusterId := groupId }]⟩

theorem verifyCommand_emptyPlan {epoch : UInt64} (hp : 0 < epoch) :
    verifyCommand (emptyPlan groupId epoch) = kVerifiedSuccess := by
  rw [verifyCommand_eq_success_iff]
  exact ⟨by simp [emptyPlan], hp, pairwise_singleton _ _,
    by simp [emptyPlan, routeGroups]⟩

/-- After a plan that does not name this cluster, another plan with its epoch is accepted. -/
theorem exists_repeated_epoch (clusterId startIndex : UInt64)
    (hmiss : ¬ s.Concerns groupId (request, commandId))
    (hstep : s.step groupId (request, commandId) = some s') :
    ∃ s'', (concerned groupId clusterId startIndex).Runs s' s'' ∧ ¬ s''.EpochsIncrease := by
  simp only [Concerns, Classical.not_imp, not_exists, not_and] at hmiss
  obtain ⟨hlt, hmiss⟩ := hmiss
  obtain ⟨_, hpos, ⟨hle, _⟩ | ⟨_, ctrl, happ, rfl⟩⟩ := step_inv hstep
  · exact absurd hlt (UInt64.not_lt.mpr hle)
  · have hnot : impacted ⟨commandId, request⟩ groupId = false := by
      simpa [impacted] using hmiss
    have hep := (apply_of_not_impacted hnot happ).1
    have hlt' : ctrl.epoch < (emptyPlan groupId request.epoch).epoch := by
      rw [hep]
      exact hlt
    have hsnd : SplitEvent.IsSound ⟨commandId, emptyPlan groupId request.epoch⟩ groupId := by
      simp [SplitEvent.IsSound, emptyPlan]
    obtain ⟨ctrl', happ'⟩ := isSome_iff_exists.mp ((apply_isSome_iff _ groupId ctrl).mpr hsnd)
    let accepted : Planned := ⟨ctrl, s.emitted ++ [⟨commandId, request⟩]⟩
    have hconc : accepted.Concerns groupId (emptyPlan groupId request.epoch, commandId) :=
      fun _ => ⟨_, mem_singleton.mpr rfl, rfl⟩
    have hagn := step_of_lt (s := accepted) (verifyCommand_emptyPlan hpos) hlt' happ'
    refine ⟨_, System.Runs.step ⟨_, hconc, hagn⟩, fun hinc => ?_⟩
    have hlast := (pairwise_append.mp hinc).2.2 ⟨commandId, request⟩ (by simp [accepted])
      _ (mem_singleton.mpr rfl)
    exact UInt64.lt_irrefl _ hlast

/-- While all accepted plans name this cluster, epochs increase, a command with an epoch that was
used is not accepted, and it is refused if its plan is another one. A step keeps epochs
increasing, whatever such plans follow, exactly if its plan names this cluster or is not
accepted. -/
theorem plans_apply_once_iff (hs : (concerned groupId clusterId startIndex).Reachable s) :
    s.EpochsIncrease ∧
    (∀ event ∈ s.emitted, ∀ request : Protos.SplitRequest, request.epoch = event.request.epoch →
        (process request s.ctrl).2 = [] ∧
        (request.planId ≠ event.request.planId → (process request s.ctrl).1.code = 400)) ∧
    ∀ request commandId s', s.step groupId (request, commandId) = some s' →
      ((∀ s'', (concerned groupId clusterId startIndex).Runs s' s'' → s''.EpochsIncrease) ↔
        s.Concerns groupId (request, commandId)) := by
  have hinv := inv_of_concerned hs
  refine ⟨hinv.increase, ?_, ?_⟩
  · intro event hev request hep
    have hpos : 0 < request.epoch := hep ▸ hinv.pos event hev
    have hle : request.epoch ≤ s.ctrl.epoch := hep ▸ hinv.le event hev
    have hproc := process_of_le hpos hle
    refine ⟨hproc.1, fun hplan => hproc.2 fun hlast => ?_⟩
    rw [← hinv.planId event hev (hep ▸ hlast)]
    exact hplan
  · intro request commandId s' hstep
    constructor
    · intro hsafe
      by_contra hmiss
      obtain ⟨s'', hruns, hnot⟩ := exists_repeated_epoch clusterId startIndex hmiss hstep
      exact hnot (hsafe s'' hruns)
    · intro hconc s'' hruns
      have hone : (concerned groupId clusterId startIndex).step s s' := ⟨_, hconc, hstep⟩
      exact (inv_of_concerned (hs.runs ((System.Runs.step hone).trans hruns))).increase

theorem exec_twoPlans : (System.exec (System.guardStep (Concerns 0) (step 0)) (start 0 0)
      [(emptyPlan 0 1, 1), (emptyPlan 0 2, 2)]).map Planned.emitted =
        some [⟨1, emptyPlan 0 1⟩, ⟨2, emptyPlan 0 2⟩] := by
  decide +kernel

theorem exec_samePlanTwice :
    (System.exec (step 0) (start 0 0) [(emptyPlan 1 1, 1), (emptyPlan 1 1, 2)]).map
      Planned.emitted = some [⟨1, emptyPlan 1 1⟩, ⟨2, emptyPlan 1 1⟩] := by
  decide +kernel

theorem plans_apply_once_twoPlans : ∃ s : Planned, (concerned 0 0 0).Reachable s ∧
      s.emitted = [⟨1, emptyPlan 0 1⟩, ⟨2, emptyPlan 0 2⟩] ∧ s.EpochsIncrease ∧
      (process (emptyPlan 0 1) s.ctrl).2 = [] := by
  obtain ⟨s, hexec, he⟩ := map_eq_some_iff.mp exec_twoPlans
  have hs : (concerned 0 0 0).Reachable s := ⟨start 0 0, rfl, System.guarded_runs_of_exec hexec⟩
  obtain ⟨hi, hr, -⟩ := plans_apply_once_iff hs
  exact ⟨s, hs, he, hi, (hr ⟨1, emptyPlan 0 1⟩ (by simp [he]) (emptyPlan 0 1) rfl).1⟩

theorem plan_applied_twice : ∃ s : Planned, (system 0 0 0).Reachable s ∧
      s.emitted = [⟨1, emptyPlan 1 1⟩, ⟨2, emptyPlan 1 1⟩] ∧ ¬ s.EpochsIncrease := by
  obtain ⟨s, hexec, he⟩ := map_eq_some_iff.mp exec_samePlanTwice
  refine ⟨s, ⟨start 0 0, rfl, System.runs_of_exec hexec⟩, he, ?_⟩
  rw [EpochsIncrease, he]
  decide

end Planned

end MySuperLedger.Control
