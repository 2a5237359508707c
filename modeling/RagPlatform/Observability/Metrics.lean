import Mathlib.Data.List.Sublists
import Mathlib.Data.Set.Finite.Lattice
import RagPlatform.Lib.Replace
import RagPlatform.RatelimitLaws

/-! The route labels of the metrics. -/

namespace RagPlatform

open Lib

structure Scope where
  hasRoute : Bool
  path : Str
  pathParams : Option (Dict Str Str)

/-- `"{" + name + "}"` -/
def placeholder (name : Str) : Str := '{' :: name ++ ['}']

def routeTemplate (scope : Scope) : Str :=
  if scope.hasRoute then
    (scope.pathParams.getD []).foldl
      (fun path param => replace param.2 (placeholder param.1) path) scope.path
  else "unmatched".toList

structure PathRoute where
  before : List Str
  param : Str
  after : List Str
  plain : ∀ part ∈ before ++ after, '/' ∉ part ∧ '{' ∉ part := by decide
  named : '/' ∉ param := by decide

namespace PathRoute

def parts (route : PathRoute) : List Str := route.before ++ route.after

def fill (route : PathRoute) (part : Str) : Str :=
  (route.before ++ part :: route.after).flatMap ('/' :: ·)

def template (route : PathRoute) : Str := route.fill (placeholder route.param)

def scope (route : PathRoute) (value : Str) : Scope :=
  ⟨true, route.fill value, some [(route.param, value)]⟩

end PathRoute

/-- Also that of `delete_document`. -/
def getDocumentRoute : PathRoute where
  before := ["v1".toList, "documents".toList]
  param := "document_id".toList
  after := []

def documentEventsRoute : PathRoute where
  before := ["v1".toList, "documents".toList]
  param := "document_id".toList
  after := ["events".toList]

def parameterisedRoutes : List PathRoute := [getDocumentRoute, documentEventsRoute]

example : getDocumentRoute.template = "/v1/documents/{document_id}".toList := by decide

section

variable {route : PathRoute} {value : Str}

theorem label_eq (hvalue : value ≠ []) (hslash : '/' ∉ value) :
    routeTemplate (route.scope value) =
      (route.before.map (replace value (placeholder route.param)) ++ placeholder route.param ::
        route.after.map (replace value (placeholder route.param))).flatMap ('/' :: ·) := by
  change replace value (placeholder route.param) (route.fill value) = _
  rw [PathRoute.fill, replace_parts hvalue hslash, List.map_append, List.map_cons,
    replace_self hvalue]

theorem slash_not_mem_placeholder (route : PathRoute) : '/' ∉ placeholder route.param := by
  have := route.named
  simp [placeholder, this]

theorem slash_not_mem_replace (hvalue : value ≠ []) {part : Str} (hpart : part ∈ route.parts) :
    '/' ∉ replace value (placeholder route.param) part := fun h =>
  (mem_replace hvalue h).elim (slash_not_mem_placeholder route) (route.plain part hpart).1

theorem replace_eq_self_iff (hvalue : value ≠ []) {part : Str} (hpart : part ∈ route.parts) :
    replace value (placeholder route.param) part = part ↔ ¬value <:+: part := by
  refine ⟨fun heq h => ?_, replace_of_not_infix⟩
  have hbrace : '{' ∈ replace value (placeholder route.param) part :=
    (infix_replace hvalue h).subset List.mem_cons_self
  rw [heq] at hbrace
  exact (route.plain part hpart).2 hbrace

theorem map_replace_eq_iff (hvalue : value ≠ []) {parts : List Str}
    (hparts : ∀ part ∈ parts, part ∈ route.parts) :
    parts.map (replace value (placeholder route.param)) = parts ↔
      ∀ part ∈ parts, ¬value <:+: part := by
  have hmap : parts.map (replace value (placeholder route.param)) = parts.map id ↔
      ∀ part ∈ parts, replace value (placeholder route.param) part = id part := List.map_inj_left
  rw [List.map_id] at hmap
  exact hmap.trans (forall₂_congr fun part hpart => replace_eq_self_iff hvalue (hparts part hpart))

theorem label_eq_template_iff (hvalue : value ≠ []) (hslash : '/' ∉ value) :
    routeTemplate (route.scope value) = route.template ↔
      ∀ part ∈ route.parts, ¬value <:+: part := by
  have hbefore (part : Str) (h : part ∈ route.before) : part ∈ route.parts :=
    List.mem_append_left _ h
  have hafter (part : Str) (h : part ∈ route.after) : part ∈ route.parts :=
    List.mem_append_right _ h
  rw [label_eq hvalue hslash, PathRoute.template, PathRoute.fill, PathRoute.parts,
    List.forall_mem_append, ← map_replace_eq_iff hvalue hbefore, ← map_replace_eq_iff hvalue hafter]
  constructor
  · intro heq
    have hparts := parts_injective (fun part hpart => ?_) (fun part hpart => ?_) heq
    · obtain ⟨hfirst, hrest⟩ := List.append_inj hparts (List.length_map _)
      exact ⟨hfirst, List.tail_eq_of_cons_eq hrest⟩
    · obtain hpart | hpart := List.mem_append.mp hpart
      · obtain ⟨part, hmem, rfl⟩ := List.mem_map.mp hpart
        exact slash_not_mem_replace hvalue (hbefore part hmem)
      · obtain rfl | hpart := List.mem_cons.mp hpart
        · exact slash_not_mem_placeholder route
        · obtain ⟨part, hmem, rfl⟩ := List.mem_map.mp hpart
          exact slash_not_mem_replace hvalue (hafter part hmem)
    · obtain hpart | hpart := List.mem_append.mp hpart
      · exact (route.plain part (hbefore part hpart)).1
      · obtain rfl | hpart := List.mem_cons.mp hpart
        · exact slash_not_mem_placeholder route
        · exact (route.plain part (hafter part hpart)).1
  · rintro ⟨hfirst, hrest⟩
    rw [hfirst, hrest]

theorem finite_labels (route : PathRoute) :
    {label | ∃ value, value ≠ [] ∧ '/' ∉ value ∧
      routeTemplate (route.scope value) = label}.Finite := by
  let inner := route.parts.flatMap List.sublists
  have hinner : ((fun value => routeTemplate (route.scope value)) '' {value | value ∈ inner}).Finite :=
    (List.finite_toSet inner).image _
  refine (hinner.insert route.template).subset ?_
  rintro label ⟨value, hvalue, hslash, rfl⟩
  by_cases h : ∀ part ∈ route.parts, ¬value <:+: part
  · exact .inl ((label_eq_template_iff hvalue hslash).mpr h)
  · push Not at h
    obtain ⟨part, hpart, hocc⟩ := h
    exact .inr ⟨value, List.mem_flatMap.mpr ⟨part, hpart, List.mem_sublists.mpr hocc.sublist⟩, rfl⟩

end

theorem slash_not_mem_str (u : Uuid) : '/' ∉ u.str := by
  intro h
  obtain h | h := Uuid.mem_str h
  · exact absurd h (by decide)
  · exact absurd (Uuid.digit_of_mem_hex h) (by decide)

theorem length_str (u : Uuid) : 36 ≤ u.str.length := by
  have hhex : 32 ≤ u.hex.length := by
    simp only [Uuid.hex, List.length_append, List.length_replicate]
    omega
  rw [Uuid.str_eq]
  simp only [List.length_append, List.length_cons, List.length_take, List.length_drop]
  omega

theorem label_of_long {route : PathRoute} (hroute : route ∈ parameterisedRoutes) {value : Str}
    (hslash : '/' ∉ value) (hlong : 9 < value.length) :
    routeTemplate (route.scope value) = route.template := by
  have hvalue : value ≠ [] := by
    rintro rfl
    exact absurd hlong (by decide)
  have hshort : ∀ route ∈ parameterisedRoutes, ∀ part ∈ route.parts, part.length ≤ 9 := by decide
  refine (label_eq_template_iff hvalue hslash).mpr fun part hpart hocc => ?_
  exact absurd (hocc.length_le.trans (hshort route hroute part hpart)) (not_le.mpr hlong)

/-- The label is the template but for what stands in a static part; ids are longer than those, and
whatever is requested the labels are finitely many. -/
theorem route_labels :
    (∀ route ∈ parameterisedRoutes, ∀ value, value ≠ [] → '/' ∉ value →
      (routeTemplate (route.scope value) = route.template ↔
        ∀ part ∈ route.parts, ¬value <:+: part)) ∧
    (∀ route ∈ parameterisedRoutes, ∀ value, '/' ∉ value → 9 < value.length →
      routeTemplate (route.scope value) = route.template) ∧
    (∀ route ∈ parameterisedRoutes, ∀ id : Uuid,
      routeTemplate (route.scope id.str) = route.template) ∧
    {label | ∃ route ∈ parameterisedRoutes, ∃ value, value ≠ [] ∧ '/' ∉ value ∧
      routeTemplate (route.scope value) = label}.Finite := by
  refine ⟨fun route _ value => label_eq_template_iff, fun route hroute value => label_of_long hroute,
    fun route hroute id => label_of_long hroute (slash_not_mem_str id) ?_, ?_⟩
  · exact Nat.lt_of_lt_of_le (by decide) (length_str id)
  · refine ((List.finite_toSet parameterisedRoutes).biUnion fun route _ =>
      finite_labels route).subset ?_
    rintro label ⟨route, hroute, hlabel⟩
    exact Set.mem_biUnion hroute hlabel

/-- The client asks for the document v1. -/
theorem label_of_v1 : ¬∀ route ∈ parameterisedRoutes, ∀ value, value ≠ [] → '/' ∉ value →
    routeTemplate (route.scope value) = route.template := by
  intro h
  exact absurd (h getDocumentRoute List.mem_cons_self "v1".toList (by decide) (by decide)) (by decide)

end RagPlatform
