import MySuperLedger.Control.Split
import MySuperLedger.Ledger.Codec

/-! # What a control state shows

Clients of a control state ask for its epoch, plan, cluster and start index, for the
group total of a type and for whether it has a group. `SplitEvent::apply` clears the
routes of every cluster, also of one that the plan does not name. A control state is
stored as a `SplitState` message; decoding one adds its routes to those that are
there.
-/

namespace MySuperLedger.Control

open List Option SplitEvent
open Ledger (Serializer)

namespace RouteMap

def groupTotal (map : RouteMap) (type : UInt32) : UInt64 :=
  (map.lookup type).elim 0 Route.groupTotal

def hasGroup (map : RouteMap) (type : UInt32) (group : UInt64) : Bool :=
  (map.lookup type).elim false fun route => group ∈ route.groups

end RouteMap

namespace CtrlState

def groupTotal (state : CtrlState) (type : UInt32) : UInt64 :=
  RouteMap.groupTotal state.routeMap type

def hasGroup (state : CtrlState) (type : UInt32) (group : UInt64) : Bool :=
  RouteMap.hasGroup state.routeMap type group

end CtrlState

structure SameView (left right : CtrlState) : Prop where
  epoch : left.epoch = right.epoch
  planId : left.planId = right.planId
  clusterId : left.clusterId = right.clusterId
  startIndex : left.startIndex = right.startIndex
  groupTotal : ∀ type, left.groupTotal type = right.groupTotal type
  hasGroup : ∀ type group, left.hasGroup type group = right.hasGroup type group

def Route.IsBlank (route : Route) : Prop := route.groupTotal = 0 ∧ route.groups = ∅

/-- The answers that a route gives, or its absence. -/
def answers (route? : Option Route) : UInt64 × (UInt64 → Bool) :=
  (route?.elim 0 Route.groupTotal, fun group => route?.elim false fun route => group ∈ route.groups)

theorem answers_eq_none_iff {route? : Option Route} :
    answers route? = answers none ↔ ∀ route, route? = some route → route.IsBlank := by
  cases route? with
  | none => simp
  | some route =>
    simp [answers, Route.IsBlank, Finset.eq_empty_iff_forall_notMem, funext_iff]

theorem sameView_iff {left right : CtrlState} : SameView left right ↔
      (left.epoch = right.epoch ∧ left.planId = right.planId ∧ left.clusterId = right.clusterId ∧
        left.startIndex = right.startIndex) ∧
      ∀ type, answers (left.routeMap.lookup type) = answers (right.routeMap.lookup type) := by
  constructor
  · intro h
    exact ⟨⟨h.epoch, h.planId, h.clusterId, h.startIndex⟩, fun type =>
      Prod.ext (h.groupTotal type) (funext (h.hasGroup type))⟩
  · intro ⟨⟨he, hp, hc, hs⟩, ha⟩
    exact ⟨he, hp, hc, hs, fun type => congrArg Prod.fst (ha type),
      fun type group => congrFun (congrArg Prod.snd (ha type)) group⟩

namespace SplitEvent

variable {groupId : UInt64}

theorem applyImpacts_of_misses {commandId : UInt64} {state : CtrlState}
    {impacts : List Protos.Impact} (hm : ∀ impact ∈ impacts, impact.clusterId ≠ groupId) :
    applyImpacts groupId commandId state impacts = some state := by
  induction impacts with
  | nil => rfl
  | cons impact impacts ih =>
    rw [forall_mem_cons] at hm
    simp [applyImpacts, applyImpact, hm.1, ih hm.2]

theorem apply_of_misses {event : SplitEvent} (state : CtrlState)
    (hm : ∀ impact ∈ event.request.impacts, impact.clusterId ≠ groupId) :
    event.apply groupId state = some state.clearRoutes := by
  have hn : event.impacted groupId = false := by
    simpa [impacted] using hm
  simp [apply, applyImpacts_of_misses hm, hn]

/-- A split that does not name this cluster changes no answer exactly if there is no route that
shows. -/
theorem unconcerned_split_frame_iff (event : SplitEvent) (groupId : UInt64) (state : CtrlState)
    (hmisses : ∀ impact ∈ event.request.impacts, impact.clusterId ≠ groupId) :
    ∃ after, event.apply groupId state = some after ∧ (SameView after state ↔
        ∀ type route, state.routeMap.lookup type = some route → route.IsBlank) := by
  have hc : ∀ type, state.clearRoutes.routeMap.lookup type = none := fun type =>
    Finmap.lookup_empty type
  refine ⟨state.clearRoutes, apply_of_misses state hmisses, ?_⟩
  rw [sameView_iff]
  simp only [hc, eq_comm (a := answers none), answers_eq_none_iff]
  exact ⟨fun h => h.2, fun h => ⟨⟨rfl, rfl, rfl, rfl⟩, h⟩⟩

end SplitEvent

/-- A cluster that serves one group of two. -/
def servingCtrl : CtrlState where
  routeMap := Finmap.singleton 1 ⟨{7}, 2, 1⟩
  epoch := 1
  planId := "first"
  clusterId := 0
  startIndex := 0

def otherPlan : SplitEvent := ⟨5, ⟨2, "second", [⟨⟨1, [8], 2⟩, 1, false⟩]⟩⟩

theorem unconcerned_split_frame_unsplit :
    ∃ after, otherPlan.apply 0 { clusterId := 0, startIndex := 0 } = some after ∧
      SameView after { clusterId := 0, startIndex := 0 } := by
  obtain ⟨after, ha, hs⟩ := unconcerned_split_frame_iff otherPlan 0
    { clusterId := 0, startIndex := 0 } (by decide)
  refine ⟨after, ha, hs.mpr fun type route hr => ?_⟩
  rw [Finmap.lookup_empty] at hr
  cases hr

theorem unconcerned_split_clears_routes :
    (∀ impact ∈ otherPlan.request.impacts, impact.clusterId ≠ 0) ∧
      servingCtrl.hasGroup 1 7 = true ∧ servingCtrl.groupTotal 1 = 2 ∧
      ∃ after, otherPlan.apply 0 servingCtrl = some after ∧ after.hasGroup 1 7 = false ∧
        after.groupTotal 1 = 0 := by
  refine ⟨by decide, by decide, by decide, servingCtrl.clearRoutes, ?_, by decide, by decide⟩
  exact apply_of_misses servingCtrl (by decide)

structure Protos.SplitState where
  routes : List Protos.Route := []
  epoch : UInt64 := 0
  planId : String := ""
  clusterId : UInt64 := 0
  startIndex : UInt64 := 0
  deriving DecidableEq, Repr

/-- Only fields with a value are written, so the message without any is the empty string. -/
structure StateSerializer (Bytes : Type) extends Serializer Bytes Protos.SplitState where
  empty : Bytes → Bool
  empty_serialize : ∀ message, empty (serializeAsString message) = true ↔ message = {}

def StateSerializer.verbatim : StateSerializer Protos.SplitState where
  serializeAsString := id
  parseFromString := id
  parse_serialize _ := rfl
  empty message := message = {}
  empty_serialize _ := decide_eq_true_iff

/-- The orders in which the hash containers are walked. -/
structure Iteration where
  routes : RouteMap → List Route
  groups : Finset UInt64 → List UInt64
  routes_eq : ∀ map : RouteMap, (routes map : Multiset Route) = map.entries.map Sigma.snd
  groups_eq : ∀ set : Finset UInt64, (groups set : Multiset UInt64) = set.val

section

variable {Bytes : Type} (serializer : StateSerializer Bytes) (iteration : Iteration)
  (groupId : UInt64)

def Route.buildProto (route : Route) : Protos.Route where
  type := route.type
  groups := iteration.groups route.groups
  groupTotal := route.groupTotal

def RouteMap.buildProto (map : RouteMap) : List Protos.Route :=
  (iteration.routes map).map (Route.buildProto iteration)

def RouteMap.parseFromProto (map : RouteMap) : List Protos.Route → RouteMap
  | [] => map
  | proto :: protos => parseFromProto (map.insert proto.type (.ofProto proto)) protos

namespace CtrlState

def buildProto (state : CtrlState) : Protos.SplitState where
  routes := RouteMap.buildProto iteration state.routeMap
  epoch := state.epoch
  planId := state.planId
  clusterId := state.clusterId
  startIndex := state.startIndex

/-- An epoch is never below 0. -/
def encodeToString (state : CtrlState) : Bytes :=
  serializer.serializeAsString (state.buildProto iteration)

def decodeFromString (state : CtrlState) (view : Bytes) : CtrlState :=
  if serializer.empty view then state
  else
    let decodeState := serializer.parseFromString view
    if decodeState.clusterId = groupId then
      { routeMap := RouteMap.parseFromProto state.routeMap decodeState.routes
        planId := decodeState.planId
        clusterId := decodeState.clusterId
        epoch := decodeState.epoch
        startIndex := decodeState.startIndex }
    else state

end CtrlState

end

def RouteMap.IsKeyed (map : RouteMap) : Prop :=
  ∀ type route, map.lookup type = some route → route.type = type

section

variable {Bytes : Type} {serializer : StateSerializer Bytes} {iteration : Iteration}
  {groupId : UInt64} {map : RouteMap}

theorem Route.ofProto_buildProto (route : Route) :
    Route.ofProto (route.buildProto iteration) = route := by
  have hg : (iteration.groups route.groups).toFinset = route.groups := by
    ext group
    rw [List.mem_toFinset, ← Multiset.mem_coe, iteration.groups_eq, Finset.mem_val]
  simp [Route.ofProto, Route.buildProto, hg]

variable {route : Route} {type : UInt32} {state after : CtrlState}

theorem mem_routes_iff : route ∈ iteration.routes map ↔ ∃ type, map.lookup type = some route := by
  rw [← Multiset.mem_coe, iteration.routes_eq, Multiset.mem_map]
  constructor
  · rintro ⟨⟨type, found⟩, hm, rfl⟩
    exact ⟨type, Finmap.mem_lookup_iff.mpr hm⟩
  · rintro ⟨type, hl⟩
    exact ⟨⟨type, route⟩, Finmap.mem_lookup_iff.mp hl, rfl⟩

variable {protos : List Protos.Route} {commandId : UInt64} {impacts : List Protos.Impact}
  {events : List SplitEvent} {stored : CtrlState}

theorem lookup_parseFromProto_of_ne (hne : ∀ proto ∈ protos, proto.type ≠ type) :
    (RouteMap.parseFromProto map protos).lookup type = map.lookup type := by
  induction protos generalizing map with
  | nil => rfl
  | cons proto protos ih =>
    rw [forall_mem_cons] at hne
    rw [RouteMap.parseFromProto, ih hne.2, Finmap.lookup_insert_of_ne _ hne.1.symm]

theorem lookup_parseFromProto_of_mem (hsome : ∃ proto ∈ protos, proto.type = type)
    (hs : ∀ proto ∈ protos, proto.type = type → Route.ofProto proto = route) :
    (RouteMap.parseFromProto map protos).lookup type = some route := by
  induction protos generalizing map with
  | nil => simp at hsome
  | cons proto protos ih =>
    rw [forall_mem_cons] at hs
    by_cases hl : ∃ proto ∈ protos, proto.type = type
    · exact ih hl hs.2
    · have hf : proto.type = type := by
        rcases hsome with ⟨found, hm, ht⟩
        rcases mem_cons.mp hm with rfl | hm
        · exact ht
        · exact absurd ⟨found, hm, ht⟩ hl
      rw [RouteMap.parseFromProto, lookup_parseFromProto_of_ne fun found hm ht =>
        hl ⟨found, hm, ht⟩, ← hf, Finmap.lookup_insert, hs.1 hf]

theorem lookup_parseFromProto_buildProto {map' : RouteMap} (hkeyed : RouteMap.IsKeyed map)
    (type : UInt32) :
    (RouteMap.parseFromProto map' (RouteMap.buildProto iteration map)).lookup type =
      (map.lookup type).or (map'.lookup type) := by
  have hmem : ∀ proto, proto ∈ RouteMap.buildProto iteration map ↔
      ∃ type route, map.lookup type = some route ∧ route.buildProto iteration = proto := by
    intro proto
    simp only [RouteMap.buildProto, List.mem_map, mem_routes_iff]
    grind
  cases hlook : map.lookup type with
  | none =>
    rw [Option.none_or]
    refine lookup_parseFromProto_of_ne fun proto hprot htype => ?_
    obtain ⟨key, route, hrt, rfl⟩ := (hmem proto).mp hprot
    have hkey : key = type := (hkeyed key route hrt).symm.trans htype
    rw [hkey, hlook] at hrt
    cases hrt
  | some route =>
    rw [Option.some_or]
    refine lookup_parseFromProto_of_mem ⟨route.buildProto iteration,
      (hmem _).mpr ⟨type, route, hlook, rfl⟩, hkeyed type route hlook⟩ ?_
    intro proto hprot htype
    obtain ⟨key, found, hfnd, rfl⟩ := (hmem proto).mp hprot
    have hkey : key = type := (hkeyed key found hfnd).symm.trans htype
    rw [hkey, hlook] at hfnd
    cases hfnd
    exact Route.ofProto_buildProto route

theorem RouteMap.IsKeyed.applyRoute (h : RouteMap.IsKeyed map) (ht : route.type = type) :
    RouteMap.IsKeyed (RouteMap.applyRoute map type route) := by
  intro key found hf
  unfold RouteMap.applyRoute at hf
  by_cases hk : key = type
  · subst hk
    split at hf
    · rw [Finmap.lookup_erase] at hf
      cases hf
    · rw [Finmap.lookup_insert] at hf
      cases hf
      exact ht
  · split at hf
    · rw [Finmap.lookup_erase_ne hk] at hf
      exact h key found hf
    · rw [Finmap.lookup_insert_of_ne _ hk] at hf
      exact h key found hf

theorem SplitEvent.isKeyed_applyImpacts (hk : RouteMap.IsKeyed state.routeMap)
    (h : applyImpacts groupId commandId state impacts = some after) :
    RouteMap.IsKeyed after.routeMap := by
  induction impacts generalizing state with
  | nil =>
    cases h
    exact hk
  | cons impact impacts ih =>
    obtain ⟨next, hn, hr⟩ := bind_eq_some_iff.mp h
    refine ih ?_ hr
    unfold applyImpact at hn
    split_ifs at hn <;> cases hn
    · exact hk
    · exact hk.applyRoute rfl
    · exact hk.applyRoute rfl

theorem isKeyed_empty : RouteMap.IsKeyed ∅ := by
  intro type route hr
  rw [Finmap.lookup_empty] at hr
  cases hr

theorem isKeyed_applySplits (hk : RouteMap.IsKeyed state.routeMap)
    (h : applySplits groupId state events = some after) : RouteMap.IsKeyed after.routeMap := by
  induction events generalizing state with
  | nil =>
    cases h
    exact hk
  | cons event events ih =>
    obtain ⟨next, hn, hr⟩ := bind_eq_some_iff.mp h
    obtain ⟨written, hw, rfl⟩ := map_eq_some_iff.mp hn
    have hk' := isKeyed_applyImpacts isKeyed_empty hw
    refine ih ?_ hr
    split <;> exact hk'

theorem SplitEvent.clusterId_applyImpacts
    (h : applyImpacts groupId commandId state impacts = some after)
    (hnam : state.clusterId = groupId ∨ ∃ impact ∈ impacts, impact.clusterId = groupId) :
    after.clusterId = groupId := by
  induction impacts generalizing state with
  | nil =>
    cases h
    simpa using hnam
  | cons impact impacts ih =>
    obtain ⟨next, hn, hr⟩ := bind_eq_some_iff.mp h
    refine ih hr ?_
    unfold applyImpact at hn
    split_ifs at hn with ho hnew hz <;> cases hn
    · simpa [ho] using hnam
    · exact .inl (not_not.mp ho)
    · exact .inl (not_not.mp ho)

theorem clusterId_applySplits (he : ∀ event ∈ events, event.impacted groupId = true)
    (h : applySplits groupId state events = some after)
    (hnam : state.clusterId = groupId ∨ events ≠ []) : after.clusterId = groupId := by
  induction events generalizing state with
  | nil =>
    cases h
    simpa using hnam
  | cons event events ih =>
    obtain ⟨next, hn, hr⟩ := bind_eq_some_iff.mp h
    rw [forall_mem_cons] at he
    obtain ⟨written, hwr, rfl⟩ := map_eq_some_iff.mp hn
    have hc := clusterId_applyImpacts hwr (.inr (by simpa [impacted] using he.1))
    refine ih he.2 hr (.inl ?_)
    split <;> exact hc

/-- The state of a cluster that nothing was ever written to. -/
def CtrlState.IsDefault (state : CtrlState) : Prop :=
  state.epoch = 0 ∧ state.planId = "" ∧ state.clusterId = 0 ∧ state.startIndex = 0 ∧
    state.routeMap = ∅

theorem buildProto_eq_default_iff : state.buildProto iteration = {} ↔ state.IsDefault := by
  have hr : RouteMap.buildProto iteration state.routeMap = [] ↔ state.routeMap = ∅ := by
    rw [RouteMap.buildProto, map_eq_nil_iff, ← Multiset.coe_eq_zero, iteration.routes_eq,
      Multiset.map_eq_zero]
    exact ⟨fun h => Finmap.ext h, fun h => by rw [h]; rfl⟩
  simp only [CtrlState.buildProto, Protos.SplitState.mk.injEq, hr, CtrlState.IsDefault]
  grind

/-- What decoding `stored` over `state` takes to restore it: a state that is ignored is there
already, and any other has a route for each one that shows. -/
def RestoresOver (groupId : UInt64) (stored state : CtrlState) : Prop :=
  (stored.IsDefault ∨ stored.clusterId ≠ groupId → SameView state stored) ∧
  (¬ stored.IsDefault → stored.clusterId = groupId →
    ∀ type route, state.routeMap.lookup type = some route →
      stored.routeMap.lookup type = none → route.IsBlank)

theorem answers_or_eq_iff {route? old? : Option Route} : answers (route?.or old?) = answers route? ↔
      ∀ route, old? = some route → route? = none → route.IsBlank := by
  cases route? with
  | none =>
    rw [none_or, answers_eq_none_iff]
    simp
  | some route => simp

theorem decode_encode_of_ignored (state : CtrlState)
    (h : stored.IsDefault ∨ stored.clusterId ≠ groupId) :
    state.decodeFromString serializer groupId (stored.encodeToString serializer iteration) =
      state := by
  unfold CtrlState.decodeFromString CtrlState.encodeToString
  split
  · rfl
  · rename_i he
    rw [serializer.empty_serialize, buildProto_eq_default_iff] at he
    rw [serializer.parse_serialize]
    exact if_neg (h.resolve_left he)

theorem decode_encode (state : CtrlState) (hd : ¬ stored.IsDefault)
    (hc : stored.clusterId = groupId) :
    state.decodeFromString serializer groupId (stored.encodeToString serializer iteration) =
      { stored with
        routeMap := RouteMap.parseFromProto state.routeMap
          (RouteMap.buildProto iteration stored.routeMap) } := by
  unfold CtrlState.decodeFromString CtrlState.encodeToString
  split
  · rename_i hn
    rw [serializer.empty_serialize, buildProto_eq_default_iff] at hn
    exact absurd hn hd
  · rw [serializer.parse_serialize]
    exact if_pos hc

/-- Decoding a stored state restores it exactly if `RestoresOver` holds; after a plan that names
this cluster, the state is for this cluster. -/
theorem codec_restores_iff (serializer : StateSerializer Bytes) (iteration : Iteration)
    (groupId clusterId startIndex : UInt64) {events : List SplitEvent} {stored : CtrlState}
    (hevents : ∀ event ∈ events, event.impacted groupId = true)
    (hstored : applySplits groupId { clusterId := clusterId, startIndex := startIndex } events =
      some stored) (state : CtrlState) :
    (SameView (state.decodeFromString serializer groupId
        (stored.encodeToString serializer iteration)) stored ↔
      RestoresOver groupId stored state) ∧
    (events ≠ [] → stored.clusterId = groupId) := by
  refine ⟨?_, fun hne => clusterId_applySplits hevents hstored (.inr hne)⟩
  unfold RestoresOver
  by_cases hign : stored.IsDefault ∨ stored.clusterId ≠ groupId
  · rw [decode_encode_of_ignored state hign]
    constructor
    · intro hsame
      exact ⟨fun _ => hsame, fun hdef hclu =>
        absurd hclu (hign.resolve_left hdef)⟩
    · intro h
      exact h.1 hign
  · have hdef : ¬ stored.IsDefault := fun h => hign (.inl h)
    have hclu : stored.clusterId = groupId := not_not.mp fun h => hign (.inr h)
    have hkey := isKeyed_applySplits isKeyed_empty hstored
    rw [decode_encode state hdef hclu, sameView_iff]
    simp only [lookup_parseFromProto_buildProto hkey, answers_or_eq_iff]
    constructor
    · intro h
      exact ⟨fun hnot => absurd hnot hign, fun _ _ => h.2⟩
    · intro h
      exact ⟨by simp, h.2 hdef hclu⟩

end

/-- Some order. -/
noncomputable def Iteration.arbitrary : Iteration where
  routes map := (map.entries.map Sigma.snd).toList
  groups set := set.toList
  routes_eq _ := Multiset.coe_toList _
  groups_eq _ := Multiset.coe_toList _

def typePlan (type : UInt32) : SplitEvent := ⟨5, ⟨1, "plan", [⟨⟨type, [7], 2⟩, 0, false⟩]⟩⟩

def typeCtrl (type : UInt32) : CtrlState where
  routeMap := (∅ : RouteMap).insert type ⟨{7}, 2, type⟩
  epoch := 1
  planId := "plan"
  clusterId := 0
  startIndex := 0

theorem applySplits_typePlan (type : UInt32) :
    applySplits 0 { clusterId := 0, startIndex := 0 } [typePlan type] = some (typeCtrl type) := by
  simp [applySplits, apply, applyImpacts, applyImpact, typePlan,
    typeCtrl, impacted, CtrlState.applyRoute, CtrlState.clearRoutes,
    RouteMap.applyRoute, Route.ofProto]

theorem not_isDefault_typeCtrl (type : UInt32) : ¬ (typeCtrl type).IsDefault := by
  simp [CtrlState.IsDefault, typeCtrl]

theorem codec_restores_sameType : SameView ((typeCtrl 1).decodeFromString .verbatim 0
      ((typeCtrl 1).encodeToString .verbatim .arbitrary)) (typeCtrl 1) := by
  have hr := (codec_restores_iff .verbatim .arbitrary 0 0 0
    (by decide : ∀ event ∈ [typePlan 1], event.impacted 0 = true) (applySplits_typePlan 1)
    (typeCtrl 1)).1
  refine hr.mpr ⟨?_, ?_⟩
  · intro hi
    exact absurd rfl (hi.resolve_left (not_isDefault_typeCtrl 1))
  · intro _ _ type route hrt hn
    rw [hrt] at hn
    cases hn

/-- The group of type 2 outlives the decoding of a state without one. -/
theorem decode_keeps_old_routes :
    applySplits 0 { clusterId := 0, startIndex := 0 } [typePlan 1] = some (typeCtrl 1) ∧
      applySplits 0 { clusterId := 0, startIndex := 0 } [typePlan 2] = some (typeCtrl 2) ∧
      (typeCtrl 1).hasGroup 2 7 = false ∧
      ((typeCtrl 2).decodeFromString .verbatim 0
        ((typeCtrl 1).encodeToString .verbatim .arbitrary)).hasGroup 2 7 = true := by
  refine ⟨applySplits_typePlan 1, applySplits_typePlan 2, by decide, ?_⟩
  have hk := isKeyed_applySplits isKeyed_empty (applySplits_typePlan 1)
  have hc : (typeCtrl 1).clusterId = 0 := rfl
  rw [decode_encode (typeCtrl 2) (not_isDefault_typeCtrl 1) hc]
  simp only [CtrlState.hasGroup, RouteMap.hasGroup, lookup_parseFromProto_buildProto hk]
  decide

end MySuperLedger.Control
