import Mathlib.Data.List.DropRight
import Mathlib.Data.List.Infix
import Mathlib.Data.List.Induction
import Mathlib.Order.Lattice

/-! An outline: items, some of which are headings, cut into the sections that the headings open. -/

namespace RagPlatform.Lib.Outline

variable {α β γ : Type}

section

variable [LinearOrder γ] (level : β → γ)

/-- The headings that no later one of the same or a smaller level closes. -/
def unclosed : List β → List β
  | [] => []
  | h :: hs => if ∀ h' ∈ hs, level h < level h' then h :: unclosed hs else unclosed hs

/-- A heading closes the innermost ones down to its own level. -/
def push (stack : List β) (h : β) : List β := stack.rdropWhile (level h ≤ level ·) ++ [h]

theorem unclosed_sublist (hs : List β) : (unclosed level hs).Sublist hs := by
  induction hs with
  | nil => exact .slnil
  | cons h hs ih =>
    rw [unclosed]
    split
    · exact ih.cons_cons h
    · exact ih.cons h

theorem unclosed_increasing (hs : List β) :
    (unclosed level hs).Pairwise fun h h' => level h < level h' := by
  induction hs with
  | nil => exact .nil
  | cons h hs ih =>
    rw [unclosed]
    split
    · next hlt => exact .cons (fun h' hh' => hlt h' ((unclosed_sublist level hs).subset hh')) ih
    · exact ih

theorem mem_unclosed {hs : List β} {h : β} :
    h ∈ unclosed level hs ↔ ∃ pre post, hs = pre ++ h :: post ∧ ∀ h' ∈ post, level h < level h' := by
  induction hs with
  | nil => simp [unclosed]
  | cons a hs ih =>
    constructor
    · intro hmem
      have hlater (hin : h ∈ unclosed level hs) :
          ∃ pre post, a :: hs = pre ++ h :: post ∧ ∀ h' ∈ post, level h < level h' := by
        obtain ⟨pre, post, rfl, hpost⟩ := ih.mp hin
        exact ⟨a :: pre, post, rfl, hpost⟩
      rw [unclosed] at hmem
      split at hmem
      · next hlt =>
        obtain rfl | hin := List.mem_cons.mp hmem
        · exact ⟨[], hs, rfl, hlt⟩
        · exact hlater hin
      · exact hlater hmem
    · rintro ⟨pre, post, hsplit, hpost⟩
      rw [unclosed]
      cases pre with
      | nil =>
        obtain ⟨rfl, rfl⟩ := List.cons.inj hsplit
        rw [if_pos hpost]
        exact List.mem_cons_self
      | cons b pre =>
        obtain ⟨rfl, rfl⟩ := List.cons.inj hsplit
        have hin := ih.mpr ⟨pre, post, rfl, hpost⟩
        split
        · exact List.mem_cons_of_mem a hin
        · exact hin

theorem unclosed_concat (hs : List β) (h : β) :
    unclosed level (hs ++ [h]) = (unclosed level hs).filter (level · < level h) ++ [h] := by
  induction hs with
  | nil => simp [unclosed]
  | cons a hs ih =>
    have hiff : (∀ h' ∈ hs ++ [h], level a < level h') ↔
        (∀ h' ∈ hs, level a < level h') ∧ level a < level h := by
      simp [or_imp, forall_and]
    rw [List.cons_append, unclosed, unclosed, ih]
    by_cases hlater : ∀ h' ∈ hs, level a < level h'
    · by_cases hlt : level a < level h
      · rw [if_pos (hiff.mpr ⟨hlater, hlt⟩), if_pos hlater, List.filter_cons_of_pos (by simpa),
          List.cons_append]
      · rw [if_neg fun hall => hlt (hiff.mp hall).2, if_pos hlater,
          List.filter_cons_of_neg (by simpa using hlt)]
    · rw [if_neg fun hall => hlater (hiff.mp hall).1, if_neg hlater]

theorem rdropWhile_eq_filter {stack : List β}
    (h : stack.Pairwise fun h h' => level h < level h') (n : γ) :
    stack.rdropWhile (n ≤ level ·) = stack.filter (level · < n) := by
  induction stack using List.reverseRecOn with
  | nil => rfl
  | append_singleton stack top ih =>
    obtain ⟨hstack, -, htop⟩ := List.pairwise_append.mp h
    rcases lt_or_ge (level top) n with hlt | hle
    · have hall : ∀ a ∈ stack ++ [top], decide (level a < n) = true := by
        intro a ha
        rw [List.mem_append, List.mem_singleton] at ha
        cases ha with
        | inl ha => exact decide_eq_true ((htop a ha top (List.mem_singleton_self top)).trans hlt)
        | inr ha => exact ha ▸ decide_eq_true hlt
      rw [List.rdropWhile_concat_neg _ _ _ (by simpa using hlt), List.filter_eq_self.mpr hall]
    · rw [List.rdropWhile_concat_pos _ _ _ (by simpa using hle), ih hstack, List.filter_append,
        List.filter_singleton, decide_eq_false hle.not_gt, cond_false, List.append_nil]

theorem push_unclosed (hs : List β) (h : β) :
    push level (unclosed level hs) h = unclosed level (hs ++ [h]) := by
  rw [push, rdropWhile_eq_filter level (unclosed_increasing level hs), unclosed_concat]

end

def inContext (xs : List α) : List (List α × α) := xs.zipIdx.map fun x => (xs.take x.2, x.1)

theorem inContext_concat (xs : List α) (x : α) :
    inContext (xs ++ [x]) = inContext xs ++ [(xs, x)] := by
  rw [inContext, List.zipIdx_append, List.map_append]
  refine congrArg₂ (· ++ ·) (List.map_congr_left fun y hy => ?_) ?_
  · rw [List.take_append_of_le_length (List.snd_lt_of_mem_zipIdx hy).le]
  · simp

theorem inContext_append (xs ys : List α) :
    inContext (xs ++ ys) = inContext xs ++ (inContext ys).map fun e => (xs ++ e.1, e.2) := by
  induction ys using List.reverseRecOn with
  | nil => simp [inContext]
  | append_singleton ys y ih =>
    rw [← List.append_assoc, inContext_concat, ih, inContext_concat, List.map_append,
      List.append_assoc]
    rfl

theorem exists_of_mem_inContext {xs : List α} {e : List α × α} (h : e ∈ inContext xs) :
    ∃ more, xs = e.1 ++ e.2 :: more := by
  induction xs using List.reverseRecOn with
  | nil => cases h
  | append_singleton xs x ih =>
    rw [inContext_concat, List.mem_append, List.mem_singleton] at h
    cases h with
    | inl h =>
      obtain ⟨more, hxs⟩ := ih h
      exact ⟨more ++ [x], by rw [hxs, List.append_assoc, List.cons_append]⟩
    | inr h => exact ⟨[], by rw [h]⟩

theorem map_snd_inContext (xs : List α) : (inContext xs).map Prod.snd = xs := by
  rw [inContext, List.map_map]
  exact List.zipIdx_map_fst 0 xs

variable (heading : α → Option β)

def headings (xs : List α) : List β := xs.filterMap heading

def openings (xs : List α) : List (List α) :=
  xs.inits.filter fun before => before.getLast?.all fun x => (heading x).isSome

def bodies (xs : List α) : List (List α) := xs.splitOnP fun x => (heading x).isSome

def sections (xs : List α) : List (List α × List α) := (openings heading xs).zip (bodies heading xs)

variable {heading} {x : α} {h : β}

theorem headings_concat (xs : List α) (x : α) :
    headings heading (xs ++ [x]) = headings heading xs ++ (heading x).toList := by
  rw [headings, List.filterMap_append]
  cases hx : heading x with
  | none => rw [List.filterMap_cons_none hx]; rfl
  | some h => rw [List.filterMap_cons_some hx]; rfl

theorem openings_concat (xs : List α) (x : α) :
    openings heading (xs ++ [x]) =
      openings heading xs ++ if (heading x).isSome then [xs ++ [x]] else [] := by
  rw [openings, List.inits_append, List.filter_append]
  refine congrArg (openings heading xs ++ ·) ?_
  cases hx : heading x <;> simp [hx]

theorem bodies_concat_heading (hx : heading x = some h) (xs : List α) :
    bodies heading (xs ++ [x]) = bodies heading xs ++ [[]] :=
  List.splitOnP_append_cons xs [] (by rw [hx]; rfl)

theorem bodies_concat (hx : heading x = none) (xs : List α) :
    ∃ init last, bodies heading xs = init ++ [last] ∧
      bodies heading (xs ++ [x]) = init ++ [last ++ [x]] := by
  induction xs with
  | nil => exact ⟨[], [], rfl, List.splitOnP_eq_singleton (by simp [hx])⟩
  | cons y xs ih =>
    obtain ⟨init, last, hxs, hconcat⟩ := ih
    rw [bodies] at hxs hconcat
    simp only [bodies, List.cons_append, List.splitOnP_cons_eq_if_modifyHead, hxs, hconcat]
    split
    · exact ⟨[] :: init, last, rfl, rfl⟩
    · cases init with
      | nil => exact ⟨[], y :: last, rfl, rfl⟩
      | cons body init => exact ⟨(y :: body) :: init, last, rfl, rfl⟩

theorem flatten_bodies (xs : List α) :
    (bodies heading xs).flatten = xs.filter fun x => (heading x).isNone := by
  induction xs using List.reverseRecOn with
  | nil => rfl
  | append_singleton xs x ih =>
    rw [List.filter_append, ← ih]
    cases hx : heading x with
    | none =>
      obtain ⟨init, last, hxs, hconcat⟩ := bodies_concat hx xs
      simp [hxs, hconcat, hx]
    | some h => simp [bodies_concat_heading hx, hx]

theorem length_openings (xs : List α) :
    (openings heading xs).length = (bodies heading xs).length := by
  induction xs using List.reverseRecOn with
  | nil => rfl
  | append_singleton xs x ih =>
    rw [openings_concat, List.length_append, ih]
    cases hx : heading x with
    | none =>
      obtain ⟨init, last, hxs, hconcat⟩ := bodies_concat hx xs
      simp [hxs, hconcat]
    | some h => simp [bodies_concat_heading hx]

theorem map_snd_sections (xs : List α) : (sections heading xs).map Prod.snd = bodies heading xs :=
  List.map_snd_zip (length_openings xs).ge

theorem sections_concat_heading (hx : heading x = some h) (xs : List α) :
    sections heading (xs ++ [x]) = sections heading xs ++ [(xs ++ [x], [])] := by
  rw [sections, openings_concat, bodies_concat_heading hx, hx, Option.isSome_some, if_pos rfl,
    List.zip_append (length_openings xs)]
  rfl

theorem sections_concat (hx : heading x = none) {xs : List α} {closed : List (List α × List α)}
    {before body : List α} (hxs : sections heading xs = closed ++ [(before, body)]) :
    sections heading (xs ++ [x]) = closed ++ [(before, body ++ [x])] := by
  obtain ⟨init, last, hbodies, hconcat⟩ := bodies_concat hx xs
  have hlength : (openings heading xs).length = (bodies heading xs).length := length_openings xs
  have hne : openings heading xs ≠ [] := by
    intro hnil
    simp [hnil, hbodies] at hlength
  obtain ⟨befores, b, hopenings⟩ := (List.eq_nil_or_concat' _).resolve_left hne
  rw [hopenings, hbodies, List.length_append, List.length_append] at hlength
  have hinit : befores.length = init.length := Nat.add_right_cancel hlength
  rw [sections, hopenings, hbodies, List.zip_append hinit] at hxs
  obtain ⟨hclosed, hlast⟩ := List.append_inj' hxs rfl
  rw [sections, openings_concat, hx, Option.isSome_none, if_neg Bool.false_ne_true,
    List.append_nil, hopenings, hconcat, List.zip_append hinit, hclosed]
  simp only [List.zip_cons_cons, List.zip_nil_right, List.cons.injEq, Prod.mk.injEq] at hlast
  rw [List.zip_cons_cons, List.zip_nil_right, hlast.1.1, hlast.1.2]

theorem exists_last_section (xs : List α) :
    ∃ closed before body, sections heading xs = closed ++ [(before, body)] ∧
      before ++ body = xs := by
  induction xs using List.reverseRecOn with
  | nil => exact ⟨[], [], [], rfl, rfl⟩
  | append_singleton xs x ih =>
    obtain ⟨closed, before, body, hxs, hwhole⟩ := ih
    cases hx : heading x with
    | none => exact ⟨_, _, _, sections_concat hx hxs, by rw [← List.append_assoc, hwhole]⟩
    | some h => exact ⟨_, _, _, sections_concat_heading hx xs, List.append_nil _⟩

theorem sections_append {xs run : List α} (hrun : ∀ x ∈ run, heading x = none)
    {closed : List (List α × List α)} {before body : List α}
    (hxs : sections heading xs = closed ++ [(before, body)]) :
    sections heading (xs ++ run) = closed ++ [(before, body ++ run)] := by
  induction run using List.reverseRecOn with
  | nil => rw [List.append_nil, List.append_nil, hxs]
  | append_singleton run x ih =>
    have hlast := ih fun y hy => hrun y (List.mem_append_left _ hy)
    rw [← List.append_assoc, ← List.append_assoc]
    exact sections_concat (hrun x (by simp)) hlast

theorem exists_grown {xs : List α} {before body : List α}
    (h : (before, body) ∈ sections heading xs) (post : List α) :
    ∃ trail, (before, body ++ trail) ∈ sections heading (xs ++ post) := by
  induction post using List.reverseRecOn with
  | nil => exact ⟨[], by rwa [List.append_nil, List.append_nil]⟩
  | append_singleton post x ih =>
    obtain ⟨trail, hmem⟩ := ih
    rw [← List.append_assoc]
    cases hx : heading x with
    | some h =>
      refine ⟨trail, ?_⟩
      rw [sections_concat_heading hx]
      exact List.mem_append_left _ hmem
    | none =>
      obtain ⟨closed, b, last, hlast, -⟩ := @exists_last_section α β heading (xs ++ post)
      rw [hlast, List.mem_append, List.mem_singleton] at hmem
      rw [sections_concat hx hlast]
      cases hmem with
      | inl hmem => exact ⟨trail, List.mem_append_left _ hmem⟩
      | inr hmem =>
        obtain ⟨rfl, rfl⟩ := Prod.mk.inj hmem
        exact ⟨trail ++ [x], by simp⟩

theorem exists_section {run : List α} (hrun : ∀ x ∈ run, heading x = none) (pre post : List α) :
    ∃ before lead trail, (before, lead ++ run ++ trail) ∈ sections heading (pre ++ run ++ post) ∧
      before ++ lead = pre := by
  obtain ⟨closed, before, lead, hpre, hwhole⟩ := @exists_last_section α β heading pre
  have hmem : (before, lead ++ run) ∈ sections heading (pre ++ run) := by
    rw [sections_append hrun hpre]
    exact List.mem_append_right _ (List.mem_singleton_self _)
  obtain ⟨trail, hgrown⟩ := exists_grown hmem post
  exact ⟨before, lead, trail, hgrown, hwhole⟩

theorem stretch_of_mem_sections {xs before body : List α} (h : (before, body) ∈ sections heading xs) :
    (∃ post, xs = before ++ body ++ post) ∧ ∀ x ∈ body, heading x = none := by
  induction xs using List.reverseRecOn generalizing before body with
  | nil =>
    obtain ⟨rfl, rfl⟩ := Prod.mk.inj (List.mem_singleton.mp h)
    exact ⟨⟨[], rfl⟩, by simp⟩
  | append_singleton xs x ih =>
    have hold (h : (before, body) ∈ sections heading xs) :
        (∃ post, xs ++ [x] = before ++ body ++ post) ∧ ∀ x ∈ body, heading x = none := by
      obtain ⟨⟨post, hxs⟩, hbody⟩ := ih h
      exact ⟨⟨post ++ [x], by rw [← List.append_assoc, ← hxs]⟩, hbody⟩
    cases hx : heading x with
    | some found =>
      rw [sections_concat_heading hx, List.mem_append, List.mem_singleton] at h
      cases h with
      | inl h => exact hold h
      | inr h =>
        obtain ⟨rfl, rfl⟩ := Prod.mk.inj h
        exact ⟨⟨[], by simp⟩, by simp⟩
    | none =>
      obtain ⟨closed, b, last, hlast, hwhole⟩ := @exists_last_section α β heading xs
      rw [sections_concat hx hlast, List.mem_append, List.mem_singleton] at h
      cases h with
      | inl h => exact hold (hlast ▸ List.mem_append_left _ h)
      | inr h =>
        obtain ⟨rfl, rfl⟩ := Prod.mk.inj h
        have hnone := (ih (hlast ▸ List.mem_append_right _ (List.mem_singleton_self _))).2
        refine ⟨⟨[], by rw [List.append_nil, ← List.append_assoc, hwhole]⟩, fun y hy => ?_⟩
        rw [List.mem_append, List.mem_singleton] at hy
        exact hy.elim (hnone y) fun hy => hy ▸ hx

section

variable [LinearOrder γ] (heading) (level : β → γ)

/-- The heading comes before the item, and no later one before the item closes it. -/
def OpenAt (xs : List α) (h : β) (y : α) : Prop :=
  ∃ pre x mid post, xs = pre ++ x :: (mid ++ y :: post) ∧ heading x = some h ∧ heading y = none ∧
    ∀ h' ∈ headings heading mid, level h < level h'

variable {level heading}

theorem openAt_iff {xs : List α} {y : α} :
    OpenAt heading level xs h y ↔
      ∃ s ∈ sections heading xs, y ∈ s.2 ∧ h ∈ unclosed level (headings heading s.1) := by
  constructor
  · rintro ⟨pre, x, mid, post, rfl, hx, hy, hmid⟩
    have hrun : ∀ z ∈ [y], heading z = none := fun z hz => List.mem_singleton.mp hz ▸ hy
    obtain ⟨before, lead, trail, hmem, hbefore⟩ := exists_section hrun (pre ++ x :: mid) post
    have hlead : headings heading before = headings heading (pre ++ x :: mid) := by
      have hnone : headings heading lead = [] := List.filterMap_eq_nil_iff.mpr fun z hz =>
        (stretch_of_mem_sections hmem).2 z (by simp [hz])
      rw [← hbefore, headings, headings, List.filterMap_append, ← headings, ← headings, hnone,
        List.append_nil]
    refine ⟨_, by simpa using hmem, by simp, ?_⟩
    rw [hlead, mem_unclosed]
    exact ⟨headings heading pre, headings heading mid,
      by rw [headings, List.filterMap_append, List.filterMap_cons_some hx]; rfl, hmid⟩
  · rintro ⟨⟨before, body⟩, hmem, hy, hh⟩
    obtain ⟨⟨post, rfl⟩, hbody⟩ := stretch_of_mem_sections hmem
    obtain ⟨lead, trail, rfl⟩ := List.append_of_mem hy
    obtain ⟨outer, inner, hsplit, hinner⟩ := (mem_unclosed level).mp hh
    obtain ⟨pre, rest, rfl, -, hrest⟩ := List.filterMap_eq_append_iff.mp hsplit
    obtain ⟨skipped, x, mid, rfl, hskipped, hx, hmid⟩ := List.filterMap_eq_cons_iff.mp hrest
    refine ⟨pre ++ skipped, x, mid ++ lead, trail ++ post, by simp, hx, hbody y hy, ?_⟩
    have hlead : headings heading lead = [] :=
      List.filterMap_eq_nil_iff.mpr fun z hz => hbody z (List.mem_append_left _ hz)
    rw [headings, List.filterMap_append, hmid, ← headings, hlead, List.append_nil]
    exact hinner

end

end RagPlatform.Lib.Outline
