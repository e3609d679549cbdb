import Mathlib.Data.Finmap
import Mathlib.Data.Finset.Basic

/-! # Control state and split events

The control state of a cluster says which groups it serves: a map of routes,
the epoch and the plan of the last split that concerned it. It changes by split
events only. What an event leaves depends on the event, the cluster's own id and
the control state before, and whether it trips its assertion on nothing but the
event and the id.
-/

namespace MySuperLedger.Control

open Option

namespace Protos

structure Route where
  type : UInt32 := 0
  groups : List UInt64 := []
  groupTotal : UInt64 := 0
  deriving DecidableEq, Repr

structure Impact where
  route : Route := {}
  clusterId : UInt64 := 0
  newCluster : Bool := false
  deriving DecidableEq, Repr

/-- `Scale.SplitRequest`. -/
structure SplitRequest where
  epoch : UInt64 := 0
  planId : String := ""
  impacts : List Impact := []
  deriving DecidableEq, Repr

end Protos

structure Route where
  groups : Finset UInt64
  groupTotal : UInt64
  type : UInt32
  deriving DecidableEq

def Route.ofProto (proto : Protos.Route) : Route where
  groups := proto.groups.toFinset
  groupTotal := proto.groupTotal
  type := proto.type

abbrev RouteMap := Finmap fun _ : UInt32 => Route

/-- A route without groups takes the old one away. -/
def RouteMap.applyRoute (map : RouteMap) (type : UInt32) (route : Route) : RouteMap :=
  if route.groups = ∅ then map.erase type else map.insert type route

/-- `mClusterId` and `mStartIndex` have no initializer. -/
structure CtrlState where
  routeMap : RouteMap := ∅
  epoch : UInt64 := 0
  planId : String := ""
  clusterId : UInt64
  startIndex : UInt64

namespace CtrlState

def clearRoutes (state : CtrlState) : CtrlState := { state with routeMap := ∅ }

def applyRoute (state : CtrlState) (proto : Protos.Route) : CtrlState :=
  { state with routeMap := RouteMap.applyRoute state.routeMap proto.type (.ofProto proto) }

end CtrlState

def SameControl (left right : CtrlState) : Prop :=
  left.epoch = right.epoch ∧ left.planId = right.planId ∧ left.routeMap = right.routeMap

instance (left right : CtrlState) : Decidable (SameControl left right) :=
  inferInstanceAs (Decidable (_ ∧ _ ∧ _))

structure SplitEvent where
  commandId : UInt64
  request : Protos.SplitRequest
  deriving DecidableEq, Repr

namespace SplitEvent

/-- One round of the loop over the impacts. A new cluster is never cluster 0. -/
def applyImpact (groupId commandId : UInt64) (state : CtrlState) (impact : Protos.Impact) :
    Option CtrlState :=
  if impact.clusterId ≠ groupId then some state
  else if impact.newCluster then
    if impact.clusterId = 0 then none
    else some { state.applyRoute impact.route with
      clusterId := impact.clusterId, startIndex := commandId + 1 }
  else some { state.applyRoute impact.route with clusterId := impact.clusterId }

def applyImpacts (groupId commandId : UInt64) (state : CtrlState) :
    List Protos.Impact → Option CtrlState
  | [] => some state
  | impact :: impacts =>
    (applyImpact groupId commandId state impact).bind fun state =>
      applyImpacts groupId commandId state impacts

def impacted (event : SplitEvent) (groupId : UInt64) : Bool :=
  event.request.impacts.any fun impact => impact.clusterId = groupId

/-- `SplitEvent::apply`. The routes are cleared whether or not the request names
this cluster. -/
def apply (event : SplitEvent) (groupId : UInt64) (state : CtrlState) : Option CtrlState :=
  (applyImpacts groupId event.commandId state.clearRoutes event.request.impacts).map fun state =>
    if event.impacted groupId then
      { state with epoch := event.request.epoch, planId := event.request.planId }
    else state

/-- No impact on this cluster trips the assertion. -/
def IsSound (event : SplitEvent) (groupId : UInt64) : Prop :=
  ∀ impact ∈ event.request.impacts, impact.clusterId = groupId → impact.newCluster = true →
    impact.clusterId ≠ 0

theorem applyImpact_isSome_iff (groupId commandId : UInt64) (state : CtrlState)
    (impact : Protos.Impact) :
    (applyImpact groupId commandId state impact).isSome ↔
      (impact.clusterId = groupId → impact.newCluster = true → impact.clusterId ≠ 0) := by
  unfold applyImpact
  split_ifs with ho hn hz <;> simp_all

theorem applyImpacts_isSome_iff (groupId commandId : UInt64) (state : CtrlState)
    (impacts : List Protos.Impact) :
    (applyImpacts groupId commandId state impacts).isSome ↔
      ∀ impact ∈ impacts, impact.clusterId = groupId → impact.newCluster = true →
        impact.clusterId ≠ 0 := by
  induction impacts generalizing state with
  | nil => simp [applyImpacts]
  | cons impact impacts ih =>
    rw [List.forall_mem_cons, ← applyImpact_isSome_iff groupId commandId state impact, applyImpacts]
    cases applyImpact groupId commandId state impact with
    | none => simp
    | some next => simpa using ih next

theorem apply_isSome_iff (event : SplitEvent) (groupId : UInt64) (state : CtrlState) :
    (event.apply groupId state).isSome ↔ event.IsSound groupId := by
  rw [apply, isSome_map]
  exact applyImpacts_isSome_iff ..

/-- The routes after the impacts on this cluster. -/
def routesFrom (groupId : UInt64) (routeMap : RouteMap) (impacts : List Protos.Impact) : RouteMap :=
  (impacts.filter fun impact => impact.clusterId = groupId).foldl
    (fun map impact => RouteMap.applyRoute map impact.route.type (.ofProto impact.route)) routeMap

def routes (event : SplitEvent) (groupId : UInt64) : RouteMap :=
  routesFrom groupId ∅ event.request.impacts

/-- The loop writes the routes and nothing else that a client can see. -/
theorem applyImpacts_control {groupId commandId : UInt64} {state after : CtrlState}
    {impacts : List Protos.Impact} (h : applyImpacts groupId commandId state impacts = some after) :
    after.routeMap = routesFrom groupId state.routeMap impacts ∧ after.epoch = state.epoch ∧
      after.planId = state.planId := by
  induction impacts generalizing state with
  | nil =>
    cases h
    exact ⟨rfl, rfl, rfl⟩
  | cons impact impacts ih =>
    obtain ⟨next, hn, hr⟩ := bind_eq_some_iff.mp h
    obtain ⟨hrout, hep, hp⟩ := ih hr
    rw [hrout, hep, hp]
    unfold applyImpact at hn
    split_ifs at hn with ho <;> cases hn <;>
      simp_all [routesFrom, CtrlState.applyRoute]

theorem apply_control {event : SplitEvent} {groupId : UInt64} {state after : CtrlState}
    (h : event.apply groupId state = some after) :
    after.routeMap = event.routes groupId ∧ (after.epoch, after.planId) =
      if event.impacted groupId then (event.request.epoch, event.request.planId)
      else (state.epoch, state.planId) := by
  obtain ⟨written, hw, rfl⟩ := map_eq_some_iff.mp h
  obtain ⟨hrout, hep, hp⟩ := applyImpacts_control hw
  split_ifs
  · exact ⟨hrout, rfl⟩
  · exact ⟨hrout, Prod.ext hep hp⟩

end SplitEvent

def applySplits (groupId : UInt64) (state : CtrlState) : List SplitEvent → Option CtrlState
  | [] => some state
  | event :: events =>
    (event.apply groupId state).bind fun state => applySplits groupId state events

theorem applySplits_append (groupId : UInt64) (state : CtrlState) (first second : List SplitEvent) :
    applySplits groupId state (first ++ second) =
      (applySplits groupId state first).bind fun state => applySplits groupId state second := by
  induction first generalizing state with
  | nil => rfl
  | cons event events ih => simp [applySplits, bind_assoc, ih]

theorem applySplits_isSome_iff (groupId : UInt64) (state : CtrlState) (events : List SplitEvent) :
    (applySplits groupId state events).isSome ↔ ∀ event ∈ events, event.IsSound groupId := by
  induction events generalizing state with
  | nil => simp [applySplits]
  | cons event events ih =>
    rw [List.forall_mem_cons, ← event.apply_isSome_iff groupId state, applySplits]
    cases event.apply groupId state with
    | none => simp
    | some next => simpa using ih next

/-- Routes come from the last split, epoch and plan from the last one that names the cluster. -/
def lastControl (groupId : UInt64) (initial : CtrlState) (events : List SplitEvent) :
    RouteMap × UInt64 × String :=
  (match events.getLast? with
    | none => initial.routeMap
    | some event => event.routes groupId,
   match (events.filter fun event => event.impacted groupId).getLast? with
    | none => (initial.epoch, initial.planId)
    | some event => (event.request.epoch, event.request.planId))

theorem applySplits_control {groupId : UInt64} {initial after : CtrlState}
    {events : List SplitEvent} (h : applySplits groupId initial events = some after) :
    (after.routeMap, after.epoch, after.planId) = lastControl groupId initial events := by
  induction events using List.reverseRecOn generalizing after with
  | nil =>
    cases h
    rfl
  | append_singleton events event ih =>
    rw [applySplits_append] at h
    obtain ⟨middle, hm, hl⟩ := bind_eq_some_iff.mp h
    obtain ⟨last, hl, hlast⟩ := bind_eq_some_iff.mp hl
    cases hlast
    obtain ⟨hrout, hplan⟩ := SplitEvent.apply_control hl
    have hbefore : (middle.epoch, middle.planId) = (lastControl groupId initial events).2 :=
      congrArg Prod.snd (ih hm)
    rw [hrout, hplan, hbefore]
    simp only [lastControl, List.getLast?_concat, List.filter_append]
    by_cases hi : event.impacted groupId = true
    · simp [hi]
    · simp [hi]

theorem sameControl_iff {left right : CtrlState} : SameControl left right ↔
      (left.routeMap, left.epoch, left.planId) = (right.routeMap, right.epoch, right.planId) := by
  simp only [SameControl, Prod.mk.injEq]
  tauto

theorem applySplits_congr {groupId : UInt64} {left right after : CtrlState}
    {events : List SplitEvent} (hs : SameControl left right)
    (h : applySplits groupId left events = some after) :
    ∃ after', applySplits groupId right events = some after' ∧ SameControl after after' := by
  have hsound := (applySplits_isSome_iff groupId left events).mp (by rw [h]; rfl)
  obtain ⟨after', h'⟩ :=
    isSome_iff_exists.mp ((applySplits_isSome_iff groupId right events).mpr hsound)
  refine ⟨after', h', sameControl_iff.mpr ?_⟩
  obtain ⟨hep, hp, hrout⟩ := hs
  rw [applySplits_control h, applySplits_control h']
  simp only [lastControl, hep, hp, hrout]

end MySuperLedger.Control
