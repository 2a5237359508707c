import RagPlatform.Lib.Fencing
import RagPlatform.MarkdownText

/-! Fenced blocks of code, and what the scanner's one flag makes of them. -/

namespace RagPlatform

open Lib Lib.Outline

structure Fence where
  char : Char
  length : Nat
  deriving DecidableEq

def opensFence : Str → Option Fence
  | [] => none
  | c :: line =>
    let n := ((c :: line).takeWhile (· = c)).length
    if (c = '\x60' ∨ c = '~') ∧ 3 ≤ n then some ⟨c, n⟩ else none

/-- A run of the same character, as long at least, and white space. -/
def closesFence (f : Fence) (line : Str) : Bool :=
  f.length ≤ (line.takeWhile (· = f.char)).length ∧ (line.dropWhile (· = f.char)).all isSpace

def codeFences : Fencing Str Fence := ⟨opensFence, closesFence⟩

/-- No line of the block is a heading, and all of them are in the section of one block of the
result, at their place. -/
structure IsCode (raw : Bytes) (lines before block : List Str) : Prop where
  noHeading : ∀ inside line more, block = inside ++ line :: more →
    headingAt (before ++ inside) line = none
  together : ∃ blocks s lead trail, parseMarkdown raw = .ok blocks ∧
    s ∈ markdownSections lines ∧ sectionBlock s ∈ blocks ∧
    s.1.map Prod.fst ++ lead = before ∧ s.2.map Prod.fst = lead ++ block ++ trail

def CodeStaysCode (raw : Bytes) : Prop :=
  ∀ text, utf8Decode raw = some text → ∀ before block after,
    codeFences.Block (Str.splitlines text) before block after →
      IsCode raw (Str.splitlines text) before block

/-- Where a line in a block reads as a heading, the strays before it are even in number. -/
def StraysEven (lines : List Str) : Prop :=
  ∀ before line after, lines = before ++ line :: after →
    (codeFences.openAfter before).isSome → (matchHeading line).isSome →
      codeFences.strays isFence before % 2 = 0

theorem three_le_run {c : Char} {line : Str} :
    3 ≤ (line.takeWhile (· = c)).length ↔ line.take 3 = [c, c, c] := by
  rcases line with _ | ⟨a₀, _ | ⟨a₁, _ | ⟨a₂, line⟩⟩⟩
  · simp
  · by_cases h₀ : a₀ = c <;> simp [h₀]
  · by_cases h₀ : a₀ = c <;> by_cases h₁ : a₁ = c <;> simp [h₀, h₁]
  · by_cases h₀ : a₀ = c <;> by_cases h₁ : a₁ = c <;> by_cases h₂ : a₂ = c <;> simp [h₀, h₁, h₂]

theorem isFence_iff {line : Str} :
    isFence line = true ↔ ∃ c, (c = '\x60' ∨ c = '~') ∧ 3 ≤ (line.takeWhile (· = c)).length := by
  simp only [three_le_run, isFence, Bool.or_eq_true, decide_eq_true_eq]
  constructor
  · rintro (h | h)
    · exact ⟨_, .inl rfl, h⟩
    · exact ⟨_, .inr rfl, h⟩
  · rintro ⟨c, rfl | rfl, h⟩
    · exact .inl h
    · exact .inr h

theorem opensFence_eq_some {line : Str} {f : Fence} (h : opensFence line = some f) :
    (f.char = '\x60' ∨ f.char = '~') ∧ 3 ≤ f.length := by
  cases line with
  | nil => cases h
  | cons c line =>
    simp only [opensFence] at h
    split at h
    · next hc => exact Option.some.inj h ▸ hc
    · cases h

theorem isFence_eq (line : Str) : isFence line = (opensFence line).isSome := by
  rw [Bool.eq_iff_iff, isFence_iff]
  cases line with
  | nil => simp [opensFence]
  | cons c line =>
    constructor
    · rintro ⟨d, hd, hrun⟩
      have hcd : c = d := by
        by_contra hne
        simp [hne] at hrun
      subst hcd
      rw [opensFence, if_pos ⟨hd, hrun⟩]
      rfl
    · intro h
      simp only [opensFence] at h
      split at h
      · next hc => exact ⟨c, hc⟩
      · cases h

theorem marks_isFence : codeFences.Marks isFence where
  opens := isFence_eq
  closes {line f other} hopens hcloses := by
    obtain ⟨hchar, hlength⟩ := opensFence_eq_some hopens
    have hrun : f.length ≤ (other.takeWhile (· = f.char)).length := (of_decide_eq_true hcloses).1
    exact isFence_iff.mpr ⟨f.char, hchar, hlength.trans hrun⟩

/-- A fence begins with neither `#` nor white space. -/
theorem exists_cons_of_isFence {line : Str} (h : isFence line = true) :
    ∃ c rest, line = c :: rest ∧ (c = '\x60' ∨ c = '~') := by
  obtain ⟨c, hc, hrun⟩ := isFence_iff.mp h
  cases line with
  | nil => cases hrun
  | cons a rest =>
    refine ⟨a, rest, rfl, ?_⟩
    by_cases hac : a = c
    · rwa [hac]
    · simp [hac] at hrun

theorem matchHeading_of_isFence {line : Str} (h : isFence line = true) :
    matchHeading line = none := by
  obtain ⟨c, rest, rfl, hc⟩ := exists_cons_of_isFence h
  have hne : c ≠ '#' := by rintro rfl; revert hc; decide
  simp [matchHeading, hne]

theorem hasText_of_isFence {line : Str} (h : isFence line = true) : Str.HasText line := by
  obtain ⟨c, rest, rfl, hc⟩ := exists_cons_of_isFence h
  refine ⟨c, List.mem_cons_self, ?_⟩
  cases hc with
  | inl hc => subst hc; decide
  | inr hc => subst hc; decide

theorem headingAt_of_open {before : List Str} {line : Str} (h : (codeFences.openAfter before).isSome = true) :
    headingAt before line = none ↔
      ((matchHeading line).isSome → codeFences.strays isFence before % 2 = 0) := by
  have hfence : inFence before = !decide (codeFences.strays isFence before % 2 = 1) := by
    rw [inFence, marks_isFence.odd_countP, h, Bool.true_xor]
  rw [headingAt, hfence]
  cases hline : isFence line with
  | true => simp [matchHeading_of_isFence hline]
  | false => cases matchHeading line <;> simp

theorem noHeading_of_straysEven {lines before block after : List Str}
    (hblock : codeFences.Block lines before block after) (h : StraysEven lines)
    {inside more : List Str} {line : Str} (hline : block = inside ++ line :: more) :
    headingAt (before ++ inside) line = none := by
  rcases hblock.openAfter hline with ⟨-, hopens⟩ | hopen
  · have hfence : isFence line = true := (isFence_eq line).trans hopens
    simp [headingAt, hfence]
  · refine (headingAt_of_open hopen).mpr (h _ line (more ++ after) ?_ hopen)
    simp [hblock.split, hline]

theorem exists_section_lines {before block : List Str} (after : List Str)
    (h : ∀ inside line more, block = inside ++ line :: more →
      headingAt (before ++ inside) line = none) :
    ∃ s lead trail, s ∈ markdownSections (before ++ block ++ after) ∧
      s.1.map Prod.fst ++ lead = before ∧ s.2.map Prod.fst = lead ++ block ++ trail := by
  let run : List Line := (inContext block).map fun e => (e.2, headingAt (before ++ e.1) e.2)
  have hfst : run.map Prod.fst = block := by
    rw [List.map_map]
    exact map_snd_inContext block
  have hrun : ∀ l ∈ run, l.2 = none := by
    intro l hl
    obtain ⟨e, he, rfl⟩ := List.mem_map.mp hl
    obtain ⟨more, hmore⟩ := exists_of_mem_inContext he
    exact h e.1 e.2 more hmore
  obtain ⟨rest, hrest⟩ : ∃ rest, recognised (before ++ block ++ after) =
      recognised before ++ run ++ rest := by
    rw [recognised, inContext_append, inContext_append, List.map_append, List.map_append,
      List.map_map]
    exact ⟨_, rfl⟩
  obtain ⟨b, lead, trail, hmem, hbefore⟩ := exists_section hrun (recognised before) rest
  rw [← hrest] at hmem
  refine ⟨_, lead.map Prod.fst, trail.map Prod.fst, hmem, ?_, ?_⟩
  · rw [← List.map_append, hbefore, map_fst_recognised]
  · rw [List.map_append, List.map_append, hfst]

theorem exists_block_of_section {raw : Bytes} {text : Str} (htext : utf8Decode raw = some text)
    {s : List Line × List Line} (hs : s ∈ markdownSections (Str.splitlines text))
    (hhas : ∃ line ∈ s.2.map Prod.fst, Str.HasText line) :
    ∃ blocks, parseMarkdown raw = .ok blocks ∧ sectionBlock s ∈ blocks := by
  have hsome : sectionText s.2 ≠ [] := fun hnil => section_eq_nil.mp hnil hhas
  have hmember : sectionBlock s ∈ sectionBlocks (markdownSections (Str.splitlines text)) :=
    List.mem_map_of_mem (List.mem_filter.mpr ⟨hs, decide_eq_true hsome⟩)
  refine ⟨_, ?_, hmember⟩
  rw [parseMarkdown_eq htext]
  exact if_neg (List.ne_nil_of_mem hmember)

theorem code_stays_code_iff (raw : Bytes) :
    CodeStaysCode raw ↔
      ∀ text, utf8Decode raw = some text → StraysEven (Str.splitlines text) := by
  constructor
  · intro h text htext before line after hlines hopen hheading
    obtain ⟨f, hf⟩ := Option.isSome_iff_exists.mp hopen
    have hcloses : codeFences.closes f line = false := by
      obtain ⟨-, opening, -, -, -, hopening, -⟩ := Fencing.exists_opening hf
      by_contra hclose
      rw [Bool.not_eq_false] at hclose
      rw [matchHeading_of_isFence (marks_isFence.closes hopening hclose)] at hheading
      cases hheading
    obtain ⟨pre, inside, more, post, hblock, rfl⟩ := Fencing.exists_block hf hcloses after
    rw [← hlines] at hblock
    have hnone := (h text htext pre _ post hblock).noHeading inside line more rfl
    exact (headingAt_of_open hopen).mp hnone hheading
  · intro h text htext before block after hblock
    have hnone (inside line more) (hline : block = inside ++ line :: more) :=
      noHeading_of_straysEven hblock (h text htext) hline
    obtain ⟨s, lead, trail, hs, hbefore, hbody⟩ := exists_section_lines after hnone
    rw [← hblock.split] at hs
    obtain ⟨opening, f, rest, hopening, hopens, -⟩ := hblock.runs
    have hfence : isFence opening = true := by
      rw [isFence_eq]
      exact Option.isSome_of_eq_some hopens
    have hhas : ∃ line ∈ s.2.map Prod.fst, Str.HasText line :=
      ⟨opening, by simp [hbody, hopening], hasText_of_isFence hfence⟩
    obtain ⟨blocks, hparse, hmember⟩ := exists_block_of_section htext hs hhas
    exact ⟨hnone, blocks, s, lead, trail, hparse, hs, hmember, hbefore, hbody⟩

namespace Sample

def shownLines : List Str :=
  ["\x60\x60\x60\x60", "\x60\x60\x60", "# x", "\x60\x60\x60\x60"].map String.toList

def shown : Bytes := [96, 96, 96, 96, 10, 96, 96, 96, 10, 35, 32, 120, 10, 96, 96, 96, 96, 10]

end Sample

theorem comment_becomes_heading : ¬CodeStaysCode Sample.shown := by
  intro h
  have htext : utf8Decode Sample.shown =
      some "\x60\x60\x60\x60\n\x60\x60\x60\n# x\n\x60\x60\x60\x60\n".toList := by
    decide
  have hblock : codeFences.Block Sample.shownLines [] Sample.shownLines [] :=
    ⟨by simp, rfl, _, ⟨'\x60', 4⟩, _, rfl, by decide,
      .inner (by decide) (.inner (by decide) (.close [] (by decide)))⟩
  have hnone := (h _ htext [] Sample.shownLines [] hblock).noHeading
    ["\x60\x60\x60\x60".toList, "\x60\x60\x60".toList] "# x".toList
    ["\x60\x60\x60\x60".toList] rfl
  revert hnone
  decide

end RagPlatform
