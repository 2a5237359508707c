import RagPlatform.Ingestion.Sections

/-! Whatever the parsers accept has text in every block. -/

namespace RagPlatform

open Lib

def Block.HasText (b : Block) : Prop := Str.HasText b.text

def AllText (blocks : List Block) : Prop := ∀ b ∈ blocks, b.HasText

theorem hasText_of_strip_ne_nil {s : Str} (h : Str.strip s ≠ []) : Str.HasText (Str.strip s) := by
  rw [Str.hasText_strip]
  by_contra hn
  exact h (Str.strip_eq_nil.mpr hn)

theorem pageBlock_hasText {page : Str × Nat} {b : Block} (h : pageBlock page = some b) :
    b.HasText := by
  simp only [pageBlock] at h
  split at h
  · simp at h
  · next hne =>
    simp only [Option.some.injEq] at h
    subst h
    exact hasText_of_strip_ne_nil hne

theorem parsePdf_allText {ext : External} {raw : Bytes} {blocks : List Block}
    (h : parsePdf ext raw = .ok blocks) : blocks ≠ [] ∧ AllText blocks := by
  simp only [parsePdf] at h
  cases hp : ext.pdfReader raw with
  | error exc => simp [hp] at h
  | ok pages =>
    simp only [hp] at h
    split at h
    · simp at h
    · next hne =>
      simp only [Except.ok.injEq] at h
      subst h
      refine ⟨hne, fun b hb => ?_⟩
      obtain ⟨page, -, hpage⟩ := List.mem_filterMap.mp hb
      exact pageBlock_hasText hpage

theorem sectionBlocks_allText (ss : List (List Line × List Line)) : AllText (sectionBlocks ss) := by
  intro b hb
  obtain ⟨s, hs, rfl⟩ := List.mem_map.mp hb
  exact hasText_of_strip_ne_nil (of_decide_eq_true (List.mem_filter.mp hs).2)

theorem parseMarkdown_allText {raw : Bytes} {blocks : List Block}
    (h : parseMarkdown raw = .ok blocks) : blocks ≠ [] ∧ AllText blocks := by
  cases hd : utf8Decode raw with
  | none =>
    rw [parseMarkdown_undecodable hd] at h
    cases h
  | some text =>
    rw [parseMarkdown_eq hd] at h
    split at h
    · cases h
    · next hne => exact Except.ok.inj h ▸ ⟨hne, sectionBlocks_allText _⟩

theorem hasText_join {sep : Str} {parts : List Str} (h : ∀ p ∈ parts, Str.HasText p)
    (hne : parts ≠ []) : Str.HasText (Str.join sep parts) := by
  cases parts with
  | nil => exact absurd rfl hne
  | cons p parts =>
    have hp := h p List.mem_cons_self
    cases parts with
    | nil => simpa [Str.join, List.intercalate] using hp
    | cons q parts =>
      simp only [Str.join, List.intercalate, List.intersperse_cons_cons, List.flatten_cons]
      exact hp.append_left _

theorem getText_hasText {children : List Html} (h : getText children ≠ []) :
    Str.HasText (getText children) := by
  refine hasText_join (fun p hp => ?_) (fun hnil => h ?_)
  · obtain ⟨hp, hne⟩ := List.mem_filter.mp hp
    obtain ⟨s, -, rfl⟩ := List.mem_map.mp hp
    exact hasText_of_strip_ne_nil (by simpa using hne)
  · rw [getText, hnil]
    rfl

theorem passageBlocks_allText (tags : List Tag) : AllText ((passages tags).map passageBlock) := by
  intro b hb
  obtain ⟨e, he, rfl⟩ := List.mem_map.mp hb
  have hpassage : isPassage e.2 = true := (List.mem_filter.mp he).2
  exact getText_hasText (of_decide_eq_true hpassage).2.2

theorem parseHtml_allText {ext : External} {raw : Bytes} {blocks : List Block}
    (h : parseHtml ext raw = .ok blocks) : blocks ≠ [] ∧ AllText blocks := by
  cases hs : ext.beautifulSoup raw with
  | error exc =>
    rw [parseHtml, hs] at h
    cases h
  | ok soup =>
    rw [parseHtml_eq hs] at h
    split at h
    · cases h
    · next hne => exact Except.ok.inj h ▸ ⟨hne, passageBlocks_allText _⟩

theorem parseDocument_allText {ext : External} {raw : Bytes} {t : DocumentSourceType}
    {blocks : List Block} (h : parseDocument ext raw t = .ok blocks) :
    blocks ≠ [] ∧ AllText blocks := by
  cases t with
  | pdf => exact parsePdf_allText h
  | markdown => exact parseMarkdown_allText h
  | html => exact parseHtml_allText h

/-- Every refusal of the parsers is a `ParseError`. -/
theorem parseDocument_error {ext : External} {raw : Bytes} {t : DocumentSourceType} {e : Exn}
    (h : parseDocument ext raw t = .error e) : ∃ detail, e = .parse detail := by
  cases t with
  | pdf =>
    simp only [parseDocument, parsePdf] at h
    cases hp : ext.pdfReader raw with
    | error exc => simp only [hp, Except.error.injEq] at h; exact ⟨_, h.symm⟩
    | ok pages =>
      simp only [hp] at h
      split at h
      · simp only [Except.error.injEq] at h; exact ⟨_, h.symm⟩
      · simp at h
  | markdown =>
    simp only [parseDocument, parseMarkdown, bind, Except.bind, decode] at h
    cases hd : utf8Decode raw with
    | none => simp only [hd, Except.error.injEq] at h; exact ⟨_, h.symm⟩
    | some text =>
      simp only [hd] at h
      split at h
      · simp only [Except.error.injEq] at h; exact ⟨_, h.symm⟩
      · simp at h
  | html =>
    simp only [parseDocument, parseHtml] at h
    cases hs : ext.beautifulSoup raw with
    | error exc => simp only [hs, Except.error.injEq] at h; exact ⟨_, h.symm⟩
    | ok soup =>
      simp only [hs] at h
      split at h
      · simp only [Except.error.injEq] at h; exact ⟨_, h.symm⟩
      · simp at h

end RagPlatform
