import RagPlatform.Ingestion.ParserLaws
import RagPlatform.Lib.Words

/-! What the heading pattern makes of a line. -/

namespace RagPlatform

open Lib

theorem closesHeading_nil : closesHeading [] = true := rfl

theorem mem_of_closesHeading {rest : Str} (h : closesHeading rest = true) :
    ∀ c ∈ rest, c = '#' ∨ isSpace c = true := by
  have hspaces := List.dropWhile_eq_nil_iff.mp (of_decide_eq_true h)
  intro c hc
  rw [← List.takeWhile_append_dropWhile (p := isSpace) (l := rest), List.mem_append] at hc
  rcases hc with hc | hc
  · exact .inr (List.mem_takeWhile_imp hc)
  · rw [← List.takeWhile_append_dropWhile (p := (· = '#')) (l := rest.dropWhile isSpace),
      List.mem_append] at hc
    rcases hc with hc | hc
    · exact .inl (by simpa using List.mem_takeWhile_imp hc)
    · exact .inr (hspaces c hc)

theorem closesHeading_hashes {run : Str} (h : ∀ c ∈ run, c = '#') : closesHeading run = true := by
  have hspace : run.dropWhile isSpace = run :=
    Str.dropWhile_of_head fun c hc => by rw [h c (List.mem_of_mem_head? hc)]; decide
  have hdrop : run.dropWhile (· = '#') = [] :=
    List.dropWhile_eq_nil_iff.mpr fun c hc => decide_eq_true (h c hc)
  simp [closesHeading, hspace, hdrop]

theorem closesHeading_space_hashes {c : Char} {run : Str} (hc : isSpace c = true)
    (h : ∀ c ∈ run, c = '#') : closesHeading (c :: run) = true := by
  rw [← closesHeading_hashes h, closesHeading, closesHeading, List.dropWhile_cons_of_pos hc]

theorem exists_lazyTitle (body : Str) :
    ∃ rest, body = lazyTitle body ++ rest ∧ closesHeading rest = true := by
  induction body with
  | nil => exact ⟨[], rfl, rfl⟩
  | cons c body ih =>
    rw [lazyTitle]
    split
    · next hcloses => exact ⟨body, rfl, hcloses⟩
    · obtain ⟨rest, hbody, hrest⟩ := ih
      exact ⟨rest, by rw [List.cons_append, ← hbody], hrest⟩

theorem head_lazyTitle (c : Char) (body : Str) : ∃ title, lazyTitle (c :: body) = c :: title := by
  rw [lazyTitle]
  split
  · exact ⟨[], rfl⟩
  · exact ⟨_, rfl⟩

theorem length_lazyTitle_le {title rest : Str} (hne : title ≠ []) (h : closesHeading rest = true) :
    (lazyTitle (title ++ rest)).length ≤ title.length := by
  induction title with
  | nil => exact absurd rfl hne
  | cons c title ih =>
    rw [List.cons_append, lazyTitle]
    split
    · simp
    · next hcloses =>
      cases title with
      | nil => exact absurd h hcloses
      | cons d title => exact Nat.succ_le_succ (ih (List.cons_ne_nil d title))

theorem lazyTitle_append {title rest : Str} {c : Char} (hc : c ≠ '#' ∧ isSpace c = false)
    (h : closesHeading rest = true) : lazyTitle (title ++ c :: rest) = title ++ [c] := by
  induction title with
  | nil => rw [List.nil_append, lazyTitle, if_pos h, List.nil_append]
  | cons d title ih =>
    rw [List.cons_append, lazyTitle, if_neg, ih, List.cons_append]
    intro hcloses
    rcases mem_of_closesHeading hcloses c (by simp) with hhash | hspace
    · exact hc.1 hhash
    · rw [hc.2] at hspace
      cases hspace

theorem matchHeading_append {hashes spaces body : Str} (hhashes : ∀ c ∈ hashes, c = '#')
    (hlevel : 1 ≤ hashes.length ∧ hashes.length ≤ 6) (hspaces : ∀ c ∈ spaces, isSpace c = true)
    (hne : spaces ≠ []) (hbody : ∀ c ∈ body.head?, isSpace c = false) :
    matchHeading (hashes ++ (spaces ++ body)) =
      if body = [] then if spaces.length = 1 then none else some (hashes.length, [])
      else some (hashes.length, Str.strip (lazyTitle body)) := by
  obtain ⟨c, spaces, rfl⟩ := List.exists_cons_of_ne_nil hne
  have hc : decide (c = '#') = false := by
    refine decide_eq_false fun h => ?_
    have hspace := hspaces c List.mem_cons_self
    rw [h] at hspace
    revert hspace
    decide
  have hhash : ∀ c ∈ hashes, decide (c = '#') = true := fun c h => decide_eq_true (hhashes c h)
  have htake : (hashes ++ (c :: spaces ++ body)).takeWhile (· = '#') = hashes := by
    rw [List.takeWhile_append_of_pos hhash, List.cons_append,
      List.takeWhile_cons_of_neg (by simp [hc]), List.append_nil]
  have hdrop : (hashes ++ (c :: spaces ++ body)).dropWhile (· = '#') = c :: spaces ++ body := by
    rw [List.dropWhile_append_of_pos hhash, List.cons_append,
      List.dropWhile_cons_of_neg (by simp [hc])]
  have hrest : (c :: spaces ++ body).dropWhile isSpace = body := by
    rw [List.dropWhile_append_of_pos hspaces]
    exact Str.dropWhile_of_head hbody
  have hlength : (c :: spaces ++ body).length - body.length = (c :: spaces).length := by
    rw [List.length_append]
    omega
  simp only [matchHeading, htake, hdrop, hrest, hlength]
  rw [if_neg (by simp only [List.length_cons]; omega)]

theorem parts_of_matchHeading {line : Str} {h : Nat × Str} (hline : matchHeading line = some h) :
    ∃ hashes spaces body, line = hashes ++ (spaces ++ body) ∧ (∀ c ∈ hashes, c = '#') ∧
      (1 ≤ hashes.length ∧ hashes.length ≤ 6) ∧ (∀ c ∈ spaces, isSpace c = true) ∧ spaces ≠ [] ∧
      ∀ c ∈ body.head?, isSpace c = false := by
  refine ⟨line.takeWhile (· = '#'), (line.dropWhile (· = '#')).takeWhile isSpace,
    (line.dropWhile (· = '#')).dropWhile isSpace, ?_, ?_, ?_, ?_, ?_, ?_⟩
  · rw [List.takeWhile_append_dropWhile, List.takeWhile_append_dropWhile]
  · exact fun c hc => by simpa using List.mem_takeWhile_imp hc
  · simp only [matchHeading] at hline
    split at hline
    · cases hline
    · next hlevel => omega
  · exact fun c hc => List.mem_takeWhile_imp hc
  · intro hnil
    have hrest := List.takeWhile_append_dropWhile (p := isSpace) (l := line.dropWhile (· = '#'))
    rw [hnil, List.nil_append] at hrest
    simp [matchHeading, hrest] at hline
  · intro c hc
    have hhead := List.head?_dropWhile_not isSpace (line.dropWhile (· = '#'))
    rw [Option.mem_def.mp hc] at hhead
    simpa using hhead

/-- One to six hashes, and then nothing but white space, two characters of it or more. -/
def Bare (line : Str) : Prop :=
  ∃ hashes spaces, line = hashes ++ spaces ∧ (∀ c ∈ hashes, c = '#') ∧
    (1 ≤ hashes.length ∧ hashes.length ≤ 6) ∧ (∀ c ∈ spaces, isSpace c = true) ∧ 2 ≤ spaces.length

theorem matchHeading_of_bare {line : Str} (h : Bare line) :
    ∃ level, matchHeading line = some (level, []) := by
  obtain ⟨hashes, spaces, rfl, hhashes, hlevel, hspaces, hlength⟩ := h
  have hne : spaces ≠ [] := List.length_pos_iff.mp (by omega)
  have hmatch := @matchHeading_append hashes spaces [] hhashes hlevel hspaces hne (by simp)
  rw [List.append_nil, if_pos rfl, if_neg (by omega)] at hmatch
  exact ⟨_, hmatch⟩

theorem strip_title_eq_nil {line : Str} {h : Nat × Str} (hline : matchHeading line = some h) :
    Str.strip h.2 = [] ↔ Bare line := by
  constructor
  · intro hblank
    obtain ⟨hashes, spaces, body, rfl, hhashes, hlevel, hspaces, hne, hbody⟩ :=
      parts_of_matchHeading hline
    rw [matchHeading_append hhashes hlevel hspaces hne hbody] at hline
    cases body with
    | nil =>
      have hpos := List.length_pos_iff.mpr hne
      have hone : spaces.length ≠ 1 := by
        intro hone
        rw [if_pos rfl, if_pos hone] at hline
        cases hline
      exact ⟨hashes, spaces, by rw [List.append_nil], hhashes, hlevel, hspaces, by omega⟩
    | cons c body =>
      rw [if_neg (List.cons_ne_nil c body), Option.some.injEq] at hline
      obtain ⟨title, htitle⟩ := head_lazyTitle c body
      rw [← hline, htitle] at hblank
      refine absurd ?_ (Str.strip_eq_nil.mp hblank)
      exact Str.hasText_strip.mpr ⟨c, List.mem_cons_self, hbody c rfl⟩
  · intro hbare
    obtain ⟨level, hlevel⟩ := matchHeading_of_bare hbare
    rw [← Option.some.inj (hlevel.symm.trans hline)]
    rfl

theorem mem_title_iff {line : Str} {h : Nat × Str} {c : Char} (hline : matchHeading line = some h)
    (hhash : c ≠ '#') (hspace : isSpace c = false) : c ∈ h.2 ↔ c ∈ line := by
  obtain ⟨hashes, spaces, body, rfl, hhashes, hlevel, hspaces, hne, hbody⟩ :=
    parts_of_matchHeading hline
  have hrun : c ∉ hashes := fun hc => hhash (hhashes c hc)
  have hblank : c ∉ spaces := fun hc => by rw [hspaces c hc] at hspace; cases hspace
  have hparts : c ∈ hashes ++ (spaces ++ body) ↔ c ∈ body := by
    simp [hrun, hblank]
  rw [matchHeading_append hhashes hlevel hspaces hne hbody] at hline
  rw [hparts]
  by_cases hnil : body = []
  · rw [if_pos hnil] at hline
    split at hline
    · cases hline
    · rw [← Option.some.inj hline, hnil]
  · rw [if_neg hnil, Option.some.injEq] at hline
    obtain ⟨rest, hsplit, hcloses⟩ := exists_lazyTitle body
    have hrest : c ∉ rest := fun hc => (mem_of_closesHeading hcloses c hc).elim hhash fun hspace' => by
      rw [hspace] at hspace'
      cases hspace'
    rw [← hline, Str.mem_strip_iff hspace]
    conv_rhs => rw [hsplit]
    simp [hrest]

end RagPlatform
