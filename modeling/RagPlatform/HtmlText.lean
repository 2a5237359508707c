import Mathlib.Data.List.Lex
import Mathlib.Data.List.Nodup
import RagPlatform.MarkdownText

/-! What becomes of the text of an element tree. -/

namespace RagPlatform

open Lib Lib.Outline

/-- A string of the tree: its place, child by child from the top, and the tags around it, outermost
first. -/
structure TextAt where
  place : List Nat
  around : List Str
  text : Str

mutual

def Html.texts (place : List Nat) (around : List Str) : Html → List TextAt
  | .text s => [⟨place, around, s⟩]
  | .other => []
  | .element name children => Html.textsAll place 0 (around ++ [name]) children

/-- The strings of these children, the first of which has the number `i`. -/
def Html.textsAll (place : List Nat) (i : Nat) (around : List Str) : List Html → List TextAt
  | [] => []
  | node :: nodes => node.texts (place ++ [i]) around ++ Html.textsAll place (i + 1) around nodes

end

namespace TextAt

/-- The place of the outermost text element around the string. -/
def owner (x : TextAt) : Option (List Nat) :=
  (x.around.findIdx? (· ∈ textTags)).map fun i => x.place.take (i + 1)

def Kept (x : TextAt) : Prop := (∀ name ∈ x.around, name ∉ droppedTags) ∧ Str.HasText x.text

instance (x : TextAt) : Decidable x.Kept := inferInstanceAs (Decidable (_ ∧ _))

end TextAt

def content (soup : List Html) : List TextAt :=
  (Html.textsAll [] 0 [] soup).filter fun x => x.Kept ∧ x.owner.isSome

/-- One block for each owner of a string, with its strings and no others, in document order. -/
def TakenOnce (content : List TextAt) (blocks : List Block) : Prop :=
  ∃ owners : List (List Nat), owners.Pairwise (List.Lex (· < ·)) ∧
    (∀ o, o ∈ owners ↔ ∃ x ∈ content, x.owner = some o) ∧
    List.Forall₂ (fun o b => b.text =
      Str.join [' '] ((content.filter (·.owner = some o)).map fun x => Str.strip x.text)) owners blocks

mutual

/-- The outermost text elements below a node, each with the strings kept in it. -/
def Html.outer (place : List Nat) (around : List Str) : Html → List (List Nat × List TextAt)
  | .text _ => []
  | .other => []
  | .element name children =>
    if name ∈ droppedTags then []
    else if name ∈ textTags then
      [(place, (Html.textsAll place 0 (around ++ [name]) children).filter (·.Kept))]
    else Html.outerAll place 0 (around ++ [name]) children

def Html.outerAll (place : List Nat) (i : Nat) (around : List Str) :
    List Html → List (List Nat × List TextAt)
  | [] => []
  | node :: nodes => node.outer (place ++ [i]) around ++ Html.outerAll place (i + 1) around nodes

end

mutual

theorem Html.mem_texts {x : TextAt} (node : Html) (place : List Nat) (around : List Str)
    (hx : x ∈ node.texts place around) : place <+: x.place ∧ around <+: x.around := by
  cases node with
  | text s =>
    rw [Html.texts, List.mem_singleton] at hx
    exact hx ▸ ⟨List.prefix_rfl, List.prefix_rfl⟩
  | other =>
    rw [Html.texts] at hx
    cases hx
  | element name children =>
    rw [Html.texts] at hx
    obtain ⟨hplace, haround⟩ := Html.mem_textsAll children place 0 _ hx
    exact ⟨hplace, (List.prefix_append _ _).trans haround⟩

theorem Html.mem_textsAll {x : TextAt} (nodes : List Html) (place : List Nat) (i : Nat)
    (around : List Str) (hx : x ∈ Html.textsAll place i around nodes) :
    place <+: x.place ∧ around <+: x.around := by
  cases nodes with
  | nil =>
    rw [Html.textsAll] at hx
    cases hx
  | cons node nodes =>
    rw [Html.textsAll, List.mem_append] at hx
    cases hx with
    | inl hx =>
      obtain ⟨hplace, haround⟩ := Html.mem_texts node (place ++ [i]) around hx
      exact ⟨(List.prefix_append _ _).trans hplace, haround⟩
    | inr hx => exact Html.mem_textsAll nodes place (i + 1) around hx

end

section

variable {place : List Nat} {around : List Str} {name : Str} {x : TextAt}

theorem TextAt.owner_eq_none : x.owner = none ↔ ∀ name ∈ x.around, name ∉ textTags := by
  simp [owner]

theorem TextAt.owner_of_outermost (hlength : place.length = around.length + 1)
    (haround : ∀ name ∈ around, name ∉ textTags) (hname : name ∈ textTags)
    (hx : place <+: x.place ∧ around ++ [name] <+: x.around) : x.owner = some place := by
  obtain ⟨⟨q, hplace⟩, inner, hinner⟩ := hx
  have hnone : around.findIdx? (· ∈ textTags) = none := by simpa using haround
  have hfind : x.around.findIdx? (· ∈ textTags) = some around.length := by
    rw [← hinner, List.append_assoc, List.findIdx?_append, hnone, List.singleton_append,
      List.findIdx?_cons]
    simp [hname]
  rw [owner, hfind, Option.map_some, ← hlength, ← hplace, List.take_left]

end

structure Splits (place : List Nat) (xs : List TextAt) (ps : List (List Nat × List TextAt)) :
    Prop where
  content : xs.filter (fun x => x.Kept ∧ x.owner.isSome) = ps.flatMap Prod.snd
  owner : ∀ p ∈ ps, ∀ x ∈ p.2, x.owner = some p.1
  below : ∀ p ∈ ps, place <+: p.1
  increasing : (ps.map Prod.fst).Pairwise (List.Lex (· < ·))

theorem Splits.nil (place : List Nat) {xs : List TextAt}
    (h : ∀ x ∈ xs, x.Kept → x.owner = none) : Splits place xs [] where
  content := by
    rw [List.filter_eq_nil_iff.mpr fun x hx => by simpa using h x hx]
    rfl
  owner p hp := by cases hp
  below p hp := by cases hp
  increasing := .nil

theorem Splits.single {place : List Nat} {xs : List TextAt}
    (h : ∀ x ∈ xs, x.owner = some place) : Splits place xs [(place, xs.filter (·.Kept))] where
  content := by
    rw [List.flatMap_singleton]
    exact List.filter_congr fun x hx => by simp [h x hx]
  owner p hp x hx := by
    obtain rfl := List.mem_singleton.mp hp
    exact h x (List.mem_filter.mp hx).1
  below p hp := List.mem_singleton.mp hp ▸ List.prefix_rfl
  increasing := List.pairwise_singleton ..

theorem Splits.append {place : List Nat} {i : Nat} {xs ys : List TextAt}
    {ps qs : List (List Nat × List TextAt)} (hx : Splits (place ++ [i]) xs ps)
    (hy : Splits place ys qs) (hlater : ∀ q ∈ qs, ∃ j, i < j ∧ place ++ [j] <+: q.1) :
    Splits place (xs ++ ys) (ps ++ qs) where
  content := by rw [List.filter_append, List.flatMap_append, hx.content, hy.content]
  owner p hp := (List.mem_append.mp hp).elim (hx.owner p) (hy.owner p)
  below p hp := (List.mem_append.mp hp).elim
    (fun hp => (List.prefix_append _ _).trans (hx.below p hp)) (hy.below p)
  increasing := by
    rw [List.map_append, List.pairwise_append]
    refine ⟨hx.increasing, hy.increasing, fun a ha b hb => ?_⟩
    obtain ⟨p, hp, rfl⟩ := List.mem_map.mp ha
    obtain ⟨q, hq, rfl⟩ := List.mem_map.mp hb
    obtain ⟨more, hp⟩ := hx.below p hp
    obtain ⟨j, hij, more', hq⟩ := hlater q hq
    rw [← hp, ← hq, List.append_assoc, List.append_assoc]
    exact List.Lex.append_left _ (List.Lex.rel hij) place

mutual

theorem Html.splits (node : Html) {place : List Nat} {around : List Str}
    (hlength : place.length = around.length + 1)
    (haround : ∀ name ∈ around, name ∉ textTags) :
    Splits place (node.texts place around) (node.outer place around) := by
  cases node with
  | text s =>
    refine .nil place fun x hx _ => TextAt.owner_eq_none.mpr ?_
    rw [Html.texts, List.mem_singleton] at hx
    exact hx ▸ haround
  | other => exact .nil place fun x hx => by rw [Html.texts] at hx; cases hx
  | element name children =>
    rw [Html.texts, Html.outer]
    split
    · next hdropped =>
      refine .nil place fun x hx hkept => absurd hdropped (hkept.1 name ?_)
      exact (Html.mem_textsAll children place 0 _ hx).2.subset (by simp)
    split
    · next hname =>
      exact .single fun x hx => TextAt.owner_of_outermost hlength haround hname
        (Html.mem_textsAll children place 0 _ hx)
    · next hname =>
      refine (Html.splitsAll children 0 ?_ ?_).1
      · rw [hlength, List.length_append, List.length_singleton]
      · intro tag htag
        rw [List.mem_append, List.mem_singleton] at htag
        exact htag.elim (haround tag) fun heq => heq ▸ hname

theorem Html.splitsAll (nodes : List Html) {place : List Nat} {around : List Str} (i : Nat)
    (hlength : place.length = around.length)
    (haround : ∀ name ∈ around, name ∉ textTags) :
    Splits place (Html.textsAll place i around nodes) (Html.outerAll place i around nodes) ∧
      ∀ p ∈ Html.outerAll place i around nodes, ∃ j, i ≤ j ∧ place ++ [j] <+: p.1 := by
  cases nodes with
  | nil =>
    rw [Html.textsAll, Html.outerAll]
    exact ⟨.nil place fun x hx => (by cases hx), fun p hp => (by cases hp)⟩
  | cons node nodes =>
    have hnode : Splits (place ++ [i]) (node.texts (place ++ [i]) around)
        (node.outer (place ++ [i]) around) :=
      Html.splits node (by rw [List.length_append, List.length_singleton, hlength]) haround
    obtain ⟨hnodes, hlater⟩ := Html.splitsAll nodes (i + 1) hlength haround
    rw [Html.textsAll, Html.outerAll]
    refine ⟨hnode.append hnodes hlater, fun p hp => ?_⟩
    rw [List.mem_append] at hp
    cases hp with
    | inl hp => exact ⟨i, le_refl i, hnode.below p hp⟩
    | inr hp =>
      obtain ⟨j, hij, hp⟩ := hlater p hp
      exact ⟨j, Nat.le_of_succ_le hij, hp⟩

end

theorem Html.stringsAll_append (xs ys : List Html) :
    Html.stringsAll (xs ++ ys) = Html.stringsAll xs ++ Html.stringsAll ys := by
  induction xs with
  | nil => rfl
  | cons x xs ih => rw [List.cons_append, Html.stringsAll, ih, Html.stringsAll, List.append_assoc]

theorem Html.tagsAll_append (ancestors : List Str) (xs ys : List Html) :
    Html.tagsAll ancestors (xs ++ ys) = Html.tagsAll ancestors xs ++ Html.tagsAll ancestors ys := by
  induction xs with
  | nil => rfl
  | cons x xs ih => rw [List.cons_append, Html.tagsAll, ih, Html.tagsAll, List.append_assoc]

def withText (strings : List Str) : List Str := strings.filter fun s => Str.HasText s

mutual

theorem Html.strings_prune (node : Html) {place : List Nat} {around : List Str}
    (haround : ∀ name ∈ around, name ∉ droppedTags) :
    withText (Html.stringsAll node.prune) =
      ((node.texts place around).filter (·.Kept)).map (·.text) := by
  cases node with
  | text s =>
    rw [Html.prune, Html.texts, Html.stringsAll, Html.strings, Html.stringsAll, List.append_nil,
      withText]
    by_cases hs : Str.HasText s
    · have hkept : TextAt.Kept ⟨place, around, s⟩ := ⟨haround, hs⟩
      simp [hs, hkept]
    · simp [hs, TextAt.Kept]
  | other =>
    rw [Html.prune, Html.texts, Html.stringsAll, Html.strings, Html.stringsAll]
    rfl
  | element name children =>
    rw [Html.prune, Html.texts]
    split
    · next hdropped =>
      refine (List.map_eq_nil_iff.mpr (List.filter_eq_nil_iff.mpr fun x hx hkept => ?_)).symm
      have hname := (of_decide_eq_true hkept).1 name
      exact hname ((Html.mem_textsAll children place 0 _ hx).2.subset (by simp)) hdropped
    · next hname =>
      rw [Html.stringsAll, Html.strings, Html.stringsAll, List.append_nil]
      refine Html.strings_pruneAll children 0 fun tag htag => ?_
      rw [List.mem_append, List.mem_singleton] at htag
      exact htag.elim (haround tag) fun heq => heq ▸ hname

theorem Html.strings_pruneAll (nodes : List Html) {place : List Nat} {around : List Str} (i : Nat)
    (haround : ∀ name ∈ around, name ∉ droppedTags) :
    withText (Html.stringsAll (Html.pruneAll nodes)) =
      ((Html.textsAll place i around nodes).filter (·.Kept)).map (·.text) := by
  cases nodes with
  | nil =>
    rw [Html.pruneAll, Html.textsAll, Html.stringsAll]
    rfl
  | cons node nodes =>
    rw [Html.pruneAll, Html.textsAll, Html.stringsAll_append, List.filter_append, List.map_append,
      ← Html.strings_prune node haround, ← Html.strings_pruneAll nodes (i + 1) haround, withText,
      List.filter_append]
    rfl

end

def Tag.outermost (el : Tag) : Bool := el.name ∈ textTags ∧ ¬el.ancestors.any (· ∈ textTags)

mutual

theorem Html.ancestors_tags {el : Tag} (node : Html) (ancestors : List Str)
    (h : el ∈ node.tags ancestors) : ancestors <:+ el.ancestors := by
  cases node with
  | text s => rw [Html.tags] at h; cases h
  | other => rw [Html.tags] at h; cases h
  | element name children =>
    rw [Html.tags, List.mem_cons] at h
    cases h with
    | inl h => exact h ▸ List.suffix_rfl
    | inr h => exact (List.suffix_cons name _).trans (Html.ancestors_tagsAll children _ h)

theorem Html.ancestors_tagsAll {el : Tag} (nodes : List Html) (ancestors : List Str)
    (h : el ∈ Html.tagsAll ancestors nodes) : ancestors <:+ el.ancestors := by
  cases nodes with
  | nil => rw [Html.tagsAll] at h; cases h
  | cons node nodes =>
    rw [Html.tagsAll, List.mem_append] at h
    exact h.elim (Html.ancestors_tags node ancestors) (Html.ancestors_tagsAll nodes ancestors)

end

theorem Html.no_outermost {name : Str} (hname : name ∈ textTags) (ancestors : List Str)
    (nodes : List Html) : (Html.tagsAll (name :: ancestors) nodes).filter Tag.outermost = [] := by
  refine List.filter_eq_nil_iff.mpr fun el hel houter => (of_decide_eq_true houter).2 ?_
  have hmem : name ∈ el.ancestors := (Html.ancestors_tagsAll nodes _ hel).subset List.mem_cons_self
  exact List.any_eq_true.mpr ⟨name, hmem, decide_eq_true hname⟩

def Tag.strings (el : Tag) : List Str := withText (Html.stringsAll el.children)

mutual

theorem Html.outermost_tags (node : Html) {place : List Nat} {around ancestors : List Str}
    (haround : ∀ name ∈ around, name ∉ droppedTags)
    (hancestors : ¬ancestors.any (· ∈ textTags)) :
    ((Html.tagsAll ancestors node.prune).filter Tag.outermost).map Tag.strings =
      (node.outer place around).map fun p => p.2.map (·.text) := by
  cases node with
  | text s => simp [Html.prune, Html.tagsAll, Html.tags, Html.outer]
  | other => simp [Html.prune, Html.tagsAll, Html.tags, Html.outer]
  | element name children =>
    rw [Html.prune, Html.outer]
    split
    · rfl
    next hdropped =>
    have haround' : ∀ tag ∈ around ++ [name], tag ∉ droppedTags := by
      intro tag htag
      rw [List.mem_append, List.mem_singleton] at htag
      exact htag.elim (haround tag) fun heq => heq ▸ hdropped
    rw [Html.tagsAll, Html.tags, Html.tagsAll, List.append_nil]
    by_cases hname : name ∈ textTags
    · have houter : Tag.outermost ⟨ancestors, name, Html.pruneAll children⟩ = true :=
        decide_eq_true ⟨hname, hancestors⟩
      rw [if_pos hname, List.filter_cons_of_pos houter, Html.no_outermost hname, List.map_singleton,
        List.map_singleton, Tag.strings, Html.strings_pruneAll children 0 haround']
    · have houter : ¬Tag.outermost ⟨ancestors, name, Html.pruneAll children⟩ = true := by
        simp [Tag.outermost, hname]
      rw [if_neg hname, List.filter_cons_of_neg houter]
      exact Html.outermost_tagsAll children 0 haround' (by simpa [hname] using hancestors)

theorem Html.outermost_tagsAll (nodes : List Html) {place : List Nat} {around ancestors : List Str}
    (i : Nat) (haround : ∀ name ∈ around, name ∉ droppedTags)
    (hancestors : ¬ancestors.any (· ∈ textTags)) :
    ((Html.tagsAll ancestors (Html.pruneAll nodes)).filter Tag.outermost).map Tag.strings =
      (Html.outerAll place i around nodes).map fun p => p.2.map (·.text) := by
  cases nodes with
  | nil =>
    rw [Html.pruneAll, Html.outerAll, Html.tagsAll]
    rfl
  | cons node nodes =>
    rw [Html.pruneAll, Html.outerAll, Html.tagsAll_append, List.filter_append, List.map_append,
      List.map_append, Html.outermost_tags node haround hancestors,
      Html.outermost_tagsAll nodes (i + 1) haround hancestors]

end

/-- `get_text(" ", strip=True)` of the strings with text. -/
def render (strings : List Str) : Str := Str.join [' '] (strings.map Str.strip)

theorem getText_eq (children : List Html) :
    getText children = render (withText (Html.stringsAll children)) := by
  rw [getText, render, withText, List.filter_map]
  refine congrArg (fun ss => Str.join [' '] (List.map Str.strip ss)) (List.filter_congr fun s _ => ?_)
  simp [Str.strip_eq_nil]

theorem render_eq_nil {strings : List Str} (h : ∀ s ∈ strings, Str.HasText s) :
    render strings = [] ↔ strings = [] := by
  constructor
  · intro hnil
    by_contra hne
    refine (hasText_join (fun p hp => ?_) (by simpa using hne)).ne_nil hnil
    obtain ⟨s, hs, rfl⟩ := List.mem_map.mp hp
    exact Str.hasText_strip.mpr (h s hs)
  · rintro rfl
    rfl

theorem isPassage_eq (el : Tag) :
    (el.name ∈ headingTags ++ textTags ∧ isPassage el) ↔
      el.outermost ∧ render el.strings ≠ [] := by
  have hdisjoint : ∀ name ∈ textTags, name ∉ headingTags := by decide
  simp only [isPassage, Tag.outermost, Tag.strings, ← getText_eq, decide_eq_true_eq,
    List.mem_append]
  constructor
  · rintro ⟨hname, hheading, hrest⟩
    exact ⟨⟨hname.resolve_left hheading, hrest.1⟩, hrest.2⟩
  · rintro ⟨⟨hname, hancestors⟩, htext⟩
    exact ⟨.inr hname, hdisjoint _ hname, hancestors, htext⟩

theorem texts_passages (soup : List Html) :
    ((passages (elements soup)).map passageBlock).map (·.text) =
      ((((Html.tagsAll [] (Html.pruneAll soup)).filter Tag.outermost).map Tag.strings).filter
        fun ss => render ss ≠ []).map render := by
  have hpassages : (passages (elements soup)).map Prod.snd = (elements soup).filter isPassage := by
    conv_rhs => rw [← map_snd_inContext (elements soup), List.filter_map]
    rfl
  have helements : (elements soup).filter isPassage =
      ((Html.tagsAll [] (Html.pruneAll soup)).filter Tag.outermost).filter
        fun el => render el.strings ≠ [] := by
    rw [elements, findAll, List.filter_filter, List.filter_filter]
    refine List.filter_congr fun el _ => ?_
    rw [Bool.eq_iff_iff, Bool.and_eq_true, Bool.and_eq_true, decide_eq_true_eq, decide_eq_true_eq,
      and_comm, isPassage_eq, and_comm]
  rw [List.map_map, List.filter_map, List.map_map]
  have htext : (fun b : Block => b.text) ∘ passageBlock =
      (fun el => render el.strings) ∘ Prod.snd := by
    funext e
    exact getText_eq e.2.children
  rw [htext, ← List.map_map, hpassages, helements]
  rfl

theorem Splits.filter_owner {place : List Nat} {xs : List TextAt}
    {ps : List (List Nat × List TextAt)} (h : Splits place xs ps) {p : List Nat × List TextAt}
    (hp : p ∈ ps) : (ps.flatMap Prod.snd).filter (·.owner = some p.1) = p.2 := by
  have hself : p.2.filter (·.owner = some p.1) = p.2 :=
    List.filter_eq_self.mpr fun x hx => decide_eq_true (h.owner p hp x hx)
  have howner := h.owner
  have hnodup : (ps.map Prod.fst).Nodup := by
    refine h.increasing.imp fun hlt => ?_
    rintro rfl
    exact List.lex_irrefl Nat.lt_irrefl _ hlt
  obtain ⟨l, r, rfl⟩ := List.append_of_mem hp
  rw [List.map_append, List.map_cons, List.nodup_middle, List.nodup_cons] at hnodup
  have hother (qs : List (List Nat × List TextAt)) (hqs : ∀ q ∈ qs, q ∈ l ++ r) :
      (qs.flatMap Prod.snd).filter (·.owner = some p.1) = [] := by
    refine List.filter_eq_nil_iff.mpr fun x hx heq => hnodup.1 ?_
    obtain ⟨q, hq, hxq⟩ := List.mem_flatMap.mp hx
    have hmem : q ∈ l ++ p :: r := by
      have := hqs q hq
      simp only [List.mem_append, List.mem_cons] at this ⊢
      tauto
    have hkey : q.1 = p.1 :=
      Option.some.inj ((howner q hmem x hxq).symm.trans (of_decide_eq_true heq))
    rw [← hkey, ← List.map_append]
    exact List.mem_map_of_mem (hqs q hq)
  rw [List.flatMap_append, List.flatMap_cons, List.filter_append, List.filter_append, hself,
    hother l (fun q hq => List.mem_append_left r hq),
    hother r (fun q hq => List.mem_append_right l hq), List.nil_append, List.append_nil]

theorem splits_soup (soup : List Html) :
    Splits [] (Html.textsAll [] 0 [] soup) (Html.outerAll [] 0 [] soup) :=
  (Html.splitsAll soup 0 rfl (by simp)).1

theorem hasText_outerAll {soup : List Html} {p : List Nat × List TextAt}
    (hp : p ∈ Html.outerAll [] 0 [] soup) : ∀ s ∈ p.2.map (·.text), Str.HasText s := by
  intro s hs
  obtain ⟨x, hx, rfl⟩ := List.mem_map.mp hs
  have hcontent : x ∈ (Html.outerAll [] 0 [] soup).flatMap Prod.snd := List.mem_flatMap.mpr ⟨p, hp, hx⟩
  rw [← (splits_soup soup).content] at hcontent
  exact (of_decide_eq_true (List.mem_filter.mp hcontent).2).1.2

def owners (soup : List Html) : List (List Nat × List TextAt) :=
  (Html.outerAll [] 0 [] soup).filter fun p => p.2 ≠ []

theorem texts_owners (soup : List Html) :
    ((passages (elements soup)).map passageBlock).map (·.text) =
      (owners soup).map fun p => render (p.2.map (·.text)) := by
  rw [texts_passages, @Html.outermost_tagsAll soup [] [] [] 0 (by simp) (by simp), List.filter_map,
    List.map_map, owners]
  refine congrArg _ (List.filter_congr fun p hp => decide_eq_decide.mpr ?_)
  exact not_congr ((render_eq_nil (hasText_outerAll hp)).trans List.map_eq_nil_iff)

theorem mem_owners {soup : List Html} {o : List Nat} :
    o ∈ (owners soup).map Prod.fst ↔ ∃ x ∈ content soup, x.owner = some o := by
  have hsplits := splits_soup soup
  have hcontent : content soup = (Html.outerAll [] 0 [] soup).flatMap Prod.snd := hsplits.content
  rw [hcontent]
  constructor
  · intro ho
    obtain ⟨p, hp, rfl⟩ := List.mem_map.mp ho
    obtain ⟨hp, hne⟩ := List.mem_filter.mp hp
    obtain ⟨x, hx⟩ := List.exists_mem_of_ne_nil p.2 (of_decide_eq_true hne)
    exact ⟨x, List.mem_flatMap.mpr ⟨p, hp, hx⟩, hsplits.owner p hp x hx⟩
  · rintro ⟨x, hx, hkey⟩
    obtain ⟨p, hp, hxp⟩ := List.mem_flatMap.mp hx
    have hpo : p.1 = o := Option.some.inj ((hsplits.owner p hp x hxp).symm.trans hkey)
    rw [← hpo]
    exact List.mem_map_of_mem
      (List.mem_filter.mpr ⟨hp, decide_eq_true (List.ne_nil_of_mem hxp)⟩)

theorem takenOnce_passages (soup : List Html) :
    TakenOnce (content soup) ((passages (elements soup)).map passageBlock) := by
  have hsplits := splits_soup soup
  have hcontent : content soup = (Html.outerAll [] 0 [] soup).flatMap Prod.snd := hsplits.content
  have htexts : ((owners soup).map Prod.fst).map (fun o => Str.join [' ']
      (((content soup).filter (·.owner = some o)).map fun x => Str.strip x.text)) =
      ((passages (elements soup)).map passageBlock).map (·.text) := by
    rw [texts_owners, List.map_map]
    refine List.map_congr_left fun p hp => ?_
    rw [Function.comp_apply, hcontent, hsplits.filter_owner (List.mem_filter.mp hp).1, render,
      List.map_map]
    rfl
  refine ⟨(owners soup).map Prod.fst, ?_, fun o => mem_owners, ?_⟩
  · exact hsplits.increasing.sublist (List.filter_sublist.map _)
  · rw [← List.forall₂_eq_eq_eq, List.forall₂_map_left_iff, List.forall₂_map_right_iff] at htexts
    exact htexts.imp fun _ _ => Eq.symm

theorem TakenOnce.eq_nil_iff {soup : List Html} {blocks : List Block}
    (h : TakenOnce (content soup) blocks) : blocks = [] ↔ content soup = [] := by
  obtain ⟨owners, -, howners, hblocks⟩ := h
  constructor
  · rintro rfl
    obtain rfl := List.forall₂_nil_right_iff.mp hblocks
    refine List.eq_nil_iff_forall_not_mem.mpr fun x hx => ?_
    have hsome : x.owner.isSome := (of_decide_eq_true (List.mem_filter.mp hx).2).2
    obtain ⟨o, ho⟩ := Option.isSome_iff_exists.mp hsome
    cases (howners o).mpr ⟨x, hx, ho⟩
  · intro hnil
    have hnone : owners = [] := List.eq_nil_iff_forall_not_mem.mpr fun o ho => by
      obtain ⟨x, hx, -⟩ := (howners o).mp ho
      rw [hnil] at hx
      cases hx
    exact List.forall₂_nil_left_iff.mp (hnone ▸ hblocks)

/-- Every string of a text element comes out, in the block of its owner and in no other. -/
theorem html_text_once (ext : External) (raw : Bytes) (soup : List Html)
    (h : ext.beautifulSoup raw = .ok soup) :
    ((∃ detail, parseHtml ext raw = .error (.parse detail)) ↔ content soup = []) ∧
      ∀ blocks, parseHtml ext raw = .ok blocks → TakenOnce (content soup) blocks := by
  have htaken := takenOnce_passages soup
  rw [parseHtml_eq h, ← htaken.eq_nil_iff]
  split
  · next hnil => exact ⟨iff_of_true ⟨_, rfl⟩ hnil, fun blocks hok => by cases hok⟩
  · next hne =>
    refine ⟨iff_of_false ?_ hne, fun blocks hok => Except.ok.inj hok ▸ htaken⟩
    rintro ⟨detail, herror⟩
    cases herror

namespace Sample

/-- `<li>a<p>b</p><noscript>c</noscript></li><td>d</td>` -/
def nested : Bytes :=
  [60, 108, 105, 62, 97, 60, 112, 62, 98, 60, 47, 112, 62, 60, 110, 111, 115, 99, 114, 105, 112,
    116, 62, 99, 60, 47, 110, 111, 115, 99, 114, 105, 112, 116, 62, 60, 47, 108, 105, 62, 60, 116,
    100, 62, 100, 60, 47, 116, 100, 62]

def nestedSoup : List Html :=
  [.element "li".toList [.text "a".toList, .element "p".toList [.text "b".toList],
      .element "noscript".toList [.text "c".toList]],
    .element "td".toList [.text "d".toList]]

def nestedExt : External where
  sha256 _ := []
  pdfReader _ := .error "invalid pdf header".toList
  beautifulSoup raw := .ok (if raw = nested then nestedSoup else [])

def nestedBlocks : List Block :=
  ["a b", "d"].map fun text => ⟨text.toList, { headings := some [] }⟩

end Sample

theorem nested_text_once : parseHtml Sample.nestedExt Sample.nested = .ok Sample.nestedBlocks ∧
    TakenOnce (content Sample.nestedSoup) Sample.nestedBlocks := by
  have hsoup : Sample.nestedExt.beautifulSoup Sample.nested = .ok Sample.nestedSoup :=
    congrArg Except.ok (if_pos rfl)
  have hblocks : (passages (elements Sample.nestedSoup)).map passageBlock = Sample.nestedBlocks := by
    decide
  have hparse : parseHtml Sample.nestedExt Sample.nested = .ok Sample.nestedBlocks := by
    rw [parseHtml_eq hsoup, hblocks]
    exact if_neg (List.cons_ne_nil _ _)
  exact ⟨hparse, (html_text_once _ _ _ hsoup).2 _ hparse⟩

end RagPlatform
