import MySuperLedger.Control.Split
import MySuperLedger.Ledger.Requests

/-! # Split commands

A split command is verified when it arrives and processed against the control
state; if it is accepted, its event is applied at once. The loop of
`verifyCommand` remembers the group total of a type that it has seen last, and 0
stands for none. So a total of 0 is forgotten by the next impact of that type,
and then the order of the impacts matters.
-/

namespace MySuperLedger.Control

open Ledger.Request (kVerifiedSuccess)
open List Function

namespace SplitCommand

/-- The two maps of the loop; a missing key is a default value. -/
structure Seen where
  groupTotals : UInt32 → UInt64 := fun _ => 0
  groups : UInt32 → Finset UInt64 := fun _ => ∅

def Seen.record (seen : Seen) (route : Protos.Route) (groups : Finset UInt64) : Seen where
  groupTotals := update seen.groupTotals route.type route.groupTotal
  groups := update seen.groups route.type groups

def verifyGroups (type : UInt32) (seen : Finset UInt64) :
    List UInt64 → Except String (Finset UInt64)
  | [] => .ok seen
  | group :: groups =>
    if group ∈ seen then
      .error ("duplicated group :" ++ toString group ++ "with type " ++ toString type)
    else verifyGroups type (insert group seen) groups

def verifyImpact (seen : Seen) (route : Protos.Route) : Except String Seen :=
  if 0 < seen.groupTotals route.type ∧ seen.groupTotals route.type ≠ route.groupTotal then
    .error ("group total should be same with " ++ toString (seen.groupTotals route.type))
  else
    (verifyGroups route.type (seen.groups route.type) route.groups).map (seen.record route)

def verifyImpacts (seen : Seen) : List Protos.Impact → Except String Seen
  | [] => .ok seen
  | impact :: impacts =>
    (verifyImpact seen impact.route).bind fun seen => verifyImpacts seen impacts

def verifyCommand (request : Protos.SplitRequest) : String :=
  if request.planId = "" then "planId is empty"
  else if request.epoch ≤ 0 then "epoch should greater than 0"
  else
    match verifyImpacts {} request.impacts with
    | .ok _ => kVerifiedSuccess
    | .error message => message

variable {type : UInt32} {seen : Finset UInt64} {groups : List UInt64} {impact : Protos.Impact}
  {message : String}

theorem verifyGroups_eq_ok_iff {after : Finset UInt64} : verifyGroups type seen groups = .ok after ↔
      groups.Nodup ∧ (∀ group ∈ groups, group ∉ seen) ∧ after = seen ∪ groups.toFinset := by
  induction groups generalizing seen with
  | nil => simp [verifyGroups, eq_comm]
  | cons group groups ih =>
    unfold verifyGroups
    split
    · next hm => simp [hm]
    · rename_i hm
      rw [ih, nodup_cons, toFinset_cons, Finset.insert_union, Finset.union_insert]
      simp only [Finset.mem_insert, forall_mem_cons, hm, not_false_eq_true, true_and, not_or]
      grind

def routeGroups (impacts : List Protos.Impact) : List (UInt32 × UInt64) :=
  impacts.flatMap fun impact => impact.route.groups.map (impact.route.type, ·)

/-- The total of the first route is forgotten, or the second route has it, too. -/
def Follows (first second : Protos.Impact) : Prop :=
  first.route.type = second.route.type →
    first.route.groupTotal = 0 ∨ first.route.groupTotal = second.route.groupTotal

theorem verifyImpact_eq_ok_iff {seen after : Seen} {route : Protos.Route} :
    verifyImpact seen route = .ok after ↔
      (seen.groupTotals route.type = 0 ∨ seen.groupTotals route.type = route.groupTotal) ∧
      route.groups.Nodup ∧ (∀ group ∈ route.groups, group ∉ seen.groups route.type) ∧
      after = seen.record route (seen.groups route.type ∪ route.groups.toFinset) := by
  unfold verifyImpact
  split
  · rename_i hoth
    have hne : seen.groupTotals route.type ≠ 0 := (UInt64.pos_iff_ne_zero).mp hoth.1
    simp [hne, hoth.2]
  · rename_i hsame
    have hsame : seen.groupTotals route.type = 0 ∨
        seen.groupTotals route.type = route.groupTotal := by
      by_contra hnot
      rw [not_or] at hnot
      exact hsame ⟨UInt64.pos_iff_ne_zero.mpr hnot.1, hnot.2⟩
    simp only [hsame, true_and]
    cases hgrp : verifyGroups route.type (seen.groups route.type) route.groups with
    | error message =>
      simp only [Except.map, reduceCtorEq, false_iff]
      rintro ⟨hnd, hfr, -⟩
      rw [verifyGroups_eq_ok_iff.mpr ⟨hnd, hfr, rfl⟩] at hgrp
      cases hgrp
    | ok groups =>
      obtain ⟨hnd, hfr, rfl⟩ := verifyGroups_eq_ok_iff.mp hgrp
      simp only [Except.map, Except.ok.injEq]
      exact ⟨fun h => ⟨hnd, hfr, h.symm⟩, fun h => h.2.2.symm⟩

/-- No total contradicts what was seen last for its type. -/
def TotalsFollow (seen : UInt32 → UInt64) (impacts : List Protos.Impact) : Prop :=
  impacts.Pairwise Follows ∧ ∀ impact ∈ impacts,
    seen impact.route.type = 0 ∨ seen impact.route.type = impact.route.groupTotal

/-- No group comes twice, nor was it seen before. -/
def GroupsAreFresh (seen : UInt32 → Finset UInt64) (impacts : List Protos.Impact) : Prop :=
  (routeGroups impacts).Nodup ∧ ∀ key ∈ routeGroups impacts, key.2 ∉ seen key.1

variable {impacts : List Protos.Impact} {request : Protos.SplitRequest}

theorem totalsFollow_cons {seen : UInt32 → UInt64} : TotalsFollow seen (impact :: impacts) ↔
      (seen impact.route.type = 0 ∨ seen impact.route.type = impact.route.groupTotal) ∧
      TotalsFollow (update seen impact.route.type impact.route.groupTotal) impacts := by
  unfold TotalsFollow
  rw [pairwise_cons, forall_mem_cons]
  constructor
  · rintro ⟨⟨hfol, hpair⟩, htot, hseen⟩
    refine ⟨htot, hpair, fun later hlate => ?_⟩
    rw [update_apply]
    split
    · next htype => exact hfol later hlate htype.symm
    · exact hseen later hlate
  · rintro ⟨htot, hpair, hseen⟩
    have hfol : ∀ later ∈ impacts, Follows impact later := by
      intro later hlate htype
      have hlast := hseen later hlate
      rw [← htype, update_self] at hlast
      exact hlast
    refine ⟨⟨hfol, hpair⟩, htot, fun later hlate => ?_⟩
    by_cases htype : impact.route.type = later.route.type
    · -- a total that was seen is that of the impact, so it is passed on
      have hlast := hfol later hlate htype
      rw [← htype]
      grind
    · have hlast := hseen later hlate
      rw [update_of_ne (Ne.symm htype)] at hlast
      exact hlast

theorem groupsAreFresh_cons {seen : UInt32 → Finset UInt64} :
    GroupsAreFresh seen (impact :: impacts) ↔ impact.route.groups.Nodup ∧
      (∀ group ∈ impact.route.groups, group ∉ seen impact.route.type) ∧
      GroupsAreFresh (update seen impact.route.type
        (seen impact.route.type ∪ impact.route.groups.toFinset)) impacts := by
  have hinj : Function.Injective fun group : UInt64 => (impact.route.type, group) := by
    intro group group' heq
    exact congrArg Prod.snd heq
  have hcons : routeGroups (impact :: impacts) =
      impact.route.groups.map (impact.route.type, ·) ++ routeGroups impacts := by
    simp [routeGroups]
  unfold GroupsAreFresh
  rw [hcons, nodup_append', nodup_map_iff hinj]
  simp only [mem_append, mem_map, List.Disjoint, update_apply]
  constructor
  · rintro ⟨⟨hnd, hlate, hap⟩, hfr⟩
    refine ⟨hnd, fun group hgrp => ?_, hlate, fun key hkey => ?_⟩
    · exact hfr (impact.route.type, group) (.inl ⟨group, hgrp, rfl⟩)
    · split
      · rename_i htype
        rw [Finset.mem_union, mem_toFinset, not_or, ← htype]
        refine ⟨hfr key (.inr hkey), fun hgrp => hap ⟨key.2, hgrp, ?_⟩ hkey⟩
        rw [← htype]
      · exact hfr key (.inr hkey)
  · rintro ⟨hnd, hfst, hlate, hfr⟩
    refine ⟨⟨hnd, hlate, ?_⟩, ?_⟩
    · rintro key ⟨group, hgrp, rfl⟩ hkey
      have hnot := hfr _ hkey
      rw [if_pos rfl, Finset.mem_union, mem_toFinset] at hnot
      exact hnot (.inr hgrp)
    · rintro key (⟨group, hgrp, rfl⟩ | hkey)
      · exact hfst group hgrp
      · intro hseen
        have hnot := hfr key hkey
        split at hnot
        · rename_i htype
          rw [Finset.mem_union, ← htype] at hnot
          exact hnot (.inl hseen)
        · exact hnot hseen

theorem verifyImpacts_isOk_iff {seen : Seen} {impacts : List Protos.Impact} :
    (∃ after, verifyImpacts seen impacts = .ok after) ↔
      TotalsFollow seen.groupTotals impacts ∧ GroupsAreFresh seen.groups impacts := by
  induction impacts generalizing seen with
  | nil => simp [verifyImpacts, routeGroups, TotalsFollow, GroupsAreFresh]
  | cons impact impacts ih =>
    rw [totalsFollow_cons, groupsAreFresh_cons]
    constructor
    · rintro ⟨after, ha⟩
      cases hi : verifyImpact seen impact.route with
      | error message =>
        rw [verifyImpacts, hi] at ha
        cases ha
      | ok next =>
        rw [verifyImpacts, hi] at ha
        obtain ⟨htot, hnd, hfr, rfl⟩ := verifyImpact_eq_ok_iff.mp hi
        obtain ⟨ht, hg⟩ := ih.mp ⟨after, ha⟩
        exact ⟨⟨htot, ht⟩, hnd, hfr, hg⟩
    · rintro ⟨⟨htot, ht⟩, hnd, hfr, hg⟩
      have hi := verifyImpact_eq_ok_iff.mpr ⟨htot, hnd, hfr, rfl⟩
      rw [verifyImpacts, hi]
      exact ih.mpr ⟨ht, hg⟩

theorem length_of_verifyGroups_error (h : verifyGroups type seen groups = .error message) :
    kVerifiedSuccess.length < message.length := by
  induction groups generalizing seen with
  | nil => cases h
  | cons group groups ih =>
    unfold verifyGroups at h
    split at h
    · cases h
      simp only [String.length_append]
      have hl : kVerifiedSuccess.length < "duplicated group :".length := by decide
      omega
    · exact ih h

theorem length_of_verifyImpacts_error {seen : Seen}
    (h : verifyImpacts seen impacts = .error message) :
    kVerifiedSuccess.length < message.length := by
  induction impacts generalizing seen with
  | nil => cases h
  | cons impact impacts ih =>
    cases himp : verifyImpact seen impact.route with
    | ok next =>
      rw [verifyImpacts, himp] at h
      exact ih h
    | error first =>
      rw [verifyImpacts, himp] at h
      cases h
      unfold verifyImpact at himp
      split at himp
      · cases himp
        simp only [String.length_append]
        have hlen : kVerifiedSuccess.length <
            "group total should be same with ".length := by decide
        omega
      · cases hgrp : verifyGroups impact.route.type (seen.groups impact.route.type)
            impact.route.groups with
        | ok groups =>
          rw [hgrp] at himp
          cases himp
        | error second =>
          rw [hgrp] at himp
          cases himp
          exact length_of_verifyGroups_error hgrp

theorem verifyCommand_eq_success_iff : verifyCommand request = kVerifiedSuccess ↔
      request.planId ≠ "" ∧ 0 < request.epoch ∧ request.impacts.Pairwise Follows ∧
        (routeGroups request.impacts).Nodup := by
  have hloop := @verifyImpacts_isOk_iff {} request.impacts
  have htots : TotalsFollow (Seen.groupTotals {}) request.impacts ↔
      request.impacts.Pairwise Follows := by
    simp [TotalsFollow]
  have hgrp : GroupsAreFresh (Seen.groups {}) request.impacts ↔
      (routeGroups request.impacts).Nodup := by
    simp [GroupsAreFresh]
  rw [htots, hgrp] at hloop
  rw [← hloop]
  unfold verifyCommand
  split
  · next hplan => simp [hplan, kVerifiedSuccess]
  · rename_i hplan
    split
    · rename_i hep
      have hzero : ¬ 0 < request.epoch := by simpa using hep
      simp [hzero, kVerifiedSuccess]
    · rename_i hep
      have hpos : 0 < request.epoch := UInt64.not_le.mp hep
      cases hres : verifyImpacts {} request.impacts with
      | ok after => simp [hplan, hpos]
      | error message =>
        have hlen := length_of_verifyImpacts_error hres
        have hne : message ≠ kVerifiedSuccess := by
          intro heq
          rw [heq] at hlen
          omega
        simp [hne]

/-- What a valid request is, whatever the order of its impacts. -/
structure IsValid (request : Protos.SplitRequest) : Prop where
  planId : request.planId ≠ ""
  epoch : 0 < request.epoch
  totals : ∀ first ∈ request.impacts, ∀ second ∈ request.impacts,
    first.route.type = second.route.type → first.route.groupTotal = second.route.groupTotal
  groups : (routeGroups request.impacts).Nodup

/-- A fault that no order of the impacts hides. -/
def HasFault (request : Protos.SplitRequest) : Prop :=
  request.planId = "" ∨ request.epoch = 0 ∨ ¬ (routeGroups request.impacts).Nodup ∨
  ∃ first ∈ request.impacts, ∃ second ∈ request.impacts,
    first.route.type = second.route.type ∧ first.route.groupTotal ≠ 0 ∧
      second.route.groupTotal ≠ 0 ∧ first.route.groupTotal ≠ second.route.groupTotal

/-- No type has totals of 0 beside others. -/
def IsUnmixed (request : Protos.SplitRequest) : Prop :=
  ∀ first ∈ request.impacts, ∀ second ∈ request.impacts,
    first.route.type = second.route.type → first.route.groupTotal = 0 → second.route.groupTotal = 0

theorem nodup_routeGroups_of_perm {impacts' : List Protos.Impact} (hp : impacts'.Perm impacts) :
    (routeGroups impacts').Nodup ↔ (routeGroups impacts).Nodup :=
  (hp.flatMap_right _).nodup_iff

/-- With zeros first, totals follow each other if those that are not 0 agree. -/
theorem pairwise_follows_zerosFirst
    (ha : ∀ first ∈ impacts, ∀ second ∈ impacts, first.route.type = second.route.type →
      first.route.groupTotal ≠ 0 → second.route.groupTotal ≠ 0 →
      first.route.groupTotal = second.route.groupTotal) :
    (impacts.filter (fun impact => impact.route.groupTotal = 0) ++
      impacts.filter (fun impact => ¬ impact.route.groupTotal = 0)).Pairwise Follows := by
  have hz : ∀ first ∈ impacts.filter (fun impact => impact.route.groupTotal = 0),
      ∀ second, Follows first second := by
    intro first hf second _
    exact .inl (by simpa using (mem_filter.mp hf).2)
  rw [pairwise_append]
  refine ⟨?_, ?_, fun first hf second _ => hz first hf second⟩
  · exact pairwise_of_forall_mem_list fun first hf second _ => hz first hf second
  · refine pairwise_of_forall_mem_list fun first hf second hs ht => ?_
    rw [mem_filter, decide_eq_true_eq] at hf hs
    exact .inr (ha first hf.1 second hs.1 ht hf.2 hs.2)

theorem totals_agree_of_pairwise (h : impacts.Pairwise Follows) {first second : Protos.Impact}
    (hfst : first ∈ impacts) (hs : second ∈ impacts)
    (ht : first.route.type = second.route.type) (hne : first.route.groupTotal ≠ 0)
    (hne' : second.route.groupTotal ≠ 0) : first.route.groupTotal = second.route.groupTotal := by
  by_cases heq : first = second
  · rw [heq]
  · have hsymm : Std.Symm fun first second => Follows first second ∨ Follows second first :=
      ⟨fun _ _ h => h.symm⟩
    have he : impacts.Pairwise fun first second =>
        Follows first second ∨ Follows second first := h.imp Or.inl
    rcases he.forall hfst hs heq with hf | hf
    · exact (hf ht).resolve_left hne
    · exact ((hf ht.symm).resolve_left hne').symm

theorem verifyCommand_of_isValid (h : IsValid request) :
    verifyCommand request = kVerifiedSuccess := by
  refine verifyCommand_eq_success_iff.mpr ⟨h.planId, h.epoch, ?_, h.groups⟩
  refine pairwise_of_forall_mem_list fun first hf second hs ht => ?_
  exact .inr (h.totals first hf second hs ht)

/-- Without totals of 0 beside others, the loop checks what it should. -/
theorem isValid_of_verifyCommand (hu : IsUnmixed request)
    (h : verifyCommand request = kVerifiedSuccess) : IsValid request := by
  obtain ⟨hp, he, hfol, hg⟩ := verifyCommand_eq_success_iff.mp h
  refine ⟨hp, he, fun first hf second hs ht => ?_, hg⟩
  by_cases hz : first.route.groupTotal = 0
  · rw [hz, hu first hf second hs ht hz]
  · have hne : second.route.groupTotal ≠ 0 := fun hz' =>
      hz (hu second hs first hf ht.symm hz')
    exact totals_agree_of_pairwise hfol hf hs ht hz hne

theorem IsValid.of_perm (h : IsValid request) (hp : impacts.Perm request.impacts) :
    IsValid { request with impacts := impacts } where
  planId := h.planId
  epoch := h.epoch
  totals first hf second hs :=
    h.totals first (hp.mem_iff.mp hf) second (hp.mem_iff.mp hs)
  groups := (nodup_routeGroups_of_perm hp).mpr h.groups

theorem HasFault.of_perm (h : HasFault request) (hp : impacts.Perm request.impacts) :
    HasFault { request with impacts := impacts } := by
  rcases h with hplan | he | hg | ⟨first, hf, second, hs, ht⟩
  · exact .inl hplan
  · exact .inr (.inl he)
  · exact .inr (.inr (.inl fun h => hg ((nodup_routeGroups_of_perm hp).mp h)))
  · exact .inr (.inr (.inr ⟨first, hp.mem_iff.mpr hf, second, hp.mem_iff.mpr hs, ht⟩))

theorem HasFault.verifyCommand_ne (h : HasFault request) :
    verifyCommand request ≠ kVerifiedSuccess := by
  rw [ne_eq, verifyCommand_eq_success_iff]
  rintro ⟨hp, he, hfol, hg⟩
  rcases h with hf | hf | hf | ⟨first, hfst, second, hs, hf⟩
  · exact hp hf
  · rw [hf] at he
    exact absurd he (by decide)
  · exact hf hg
  · obtain ⟨ht, hne, hne', ho⟩ := hf
    exact ho (totals_agree_of_pairwise hfol hfst hs ht hne hne')

/-- Without a fault, the order that puts totals of 0 first is accepted. -/
theorem exists_perm_accepted (h : ¬ HasFault request) :
    ∃ impacts : List Protos.Impact, impacts.Perm request.impacts ∧
      verifyCommand { request with impacts := impacts } = kVerifiedSuccess := by
  simp only [HasFault, not_or, not_not] at h
  obtain ⟨hplan, hep, hg, ha⟩ := h
  have hp : (request.impacts.filter (fun impact => impact.route.groupTotal = 0) ++
      request.impacts.filter (fun impact => ¬ impact.route.groupTotal = 0)).Perm
        request.impacts := by
    simpa using filter_append_perm (fun impact => impact.route.groupTotal = 0) request.impacts
  refine ⟨_, hp, verifyCommand_eq_success_iff.mpr ⟨hplan, UInt64.pos_iff_ne_zero.mpr hep,
    pairwise_follows_zerosFirst ?_, (nodup_routeGroups_of_perm hp).mpr hg⟩⟩
  intro first hf second hs ht hne hne'
  by_contra ho
  exact ha ⟨first, hf, second, hs, ht, hne, hne', ho⟩

/-- Verification means what it should and does not depend on the order of the impacts exactly if
no type has totals of 0 beside others, or if there is another fault. -/
theorem verification_ignores_order_iff (request : Protos.SplitRequest) :
    ((verifyCommand request = kVerifiedSuccess ↔ IsValid request) ∧
      ∀ impacts : List Protos.Impact, impacts.Perm request.impacts →
        (verifyCommand { request with impacts := impacts } = kVerifiedSuccess ↔
          verifyCommand request = kVerifiedSuccess)) ↔
      HasFault request ∨ IsUnmixed request := by
  constructor
  · rintro ⟨hval, hord⟩
    by_cases hflt : HasFault request
    · exact .inl hflt
    · obtain ⟨impacts, hperm, hacc⟩ := exists_perm_accepted hflt
      have htots := (hval.mp ((hord impacts hperm).mp hacc)).totals
      refine .inr fun first hfst second hsnd htype hzero => ?_
      rw [← htots first hfst second hsnd htype, hzero]
  · rintro (hflt | hunm)
    · have hne := hflt.verifyCommand_ne
      refine ⟨⟨fun h => absurd h hne, fun h => absurd (verifyCommand_of_isValid h) hne⟩, ?_⟩
      intro impacts hperm
      exact ⟨fun h => absurd h (hflt.of_perm hperm).verifyCommand_ne, fun h => absurd h hne⟩
    · refine ⟨⟨isValid_of_verifyCommand hunm, verifyCommand_of_isValid⟩, ?_⟩
      intro impacts hperm
      have hunm' : IsUnmixed { request with impacts := impacts } :=
        fun first hfst second hsnd =>
          hunm first (hperm.mem_iff.mp hfst) second (hperm.mem_iff.mp hsnd)
      constructor
      · intro h
        exact verifyCommand_of_isValid ((isValid_of_verifyCommand hunm' h).of_perm hperm.symm)
      · intro h
        exact verifyCommand_of_isValid ((isValid_of_verifyCommand hunm h).of_perm hperm)

/-- A total of 0, and then another one for the same type. -/
def zeroFirst : List Protos.Impact :=
  [⟨⟨1, [1], 0⟩, 0, false⟩, ⟨⟨1, [2], 5⟩, 1, false⟩]

theorem verification_depends_on_order : verifyCommand ⟨1, "plan", zeroFirst⟩ = kVerifiedSuccess ∧
      verifyCommand ⟨1, "plan", zeroFirst.reverse⟩ = "group total should be same with 5" ∧
      ¬ IsValid ⟨1, "plan", zeroFirst⟩ := by
  refine ⟨by decide, by decide +kernel, fun h => ?_⟩
  have ht := h.totals ⟨⟨1, [1], 0⟩, 0, false⟩ (by decide) ⟨⟨1, [2], 5⟩, 1, false⟩ (by decide) rfl
  exact absurd ht (by decide)

end SplitCommand

end MySuperLedger.Control
