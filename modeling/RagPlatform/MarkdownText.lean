import RagPlatform.Lib.Words
import RagPlatform.Ingestion.ParserLaws
import RagPlatform.Ingestion.Sections
import RagPlatform.Ingestion.WordLaws

/-! What becomes of the text of a Markdown file. -/

namespace RagPlatform

open Lib Lib.Outline

instance (s : Str) : Decidable (Str.HasText s) :=
  inferInstanceAs (Decidable (∃ c ∈ s, isSpace c = false))

def bodyLines (lines : List Str) : List Str :=
  ((recognised lines).filter fun l => l.2.isNone).map Prod.fst

/-- The lines between the headings, each run of them a section. -/
def sectionLines (lines : List Str) : List (List Str) :=
  (bodies Prod.snd (recognised lines)).map fun body => body.map Prod.fst

/-- One block for each section with text, and every word where it was. -/
structure Conserved (lines : List Str) (blocks : List Block) : Prop where
  texts : blocks.map (·.text) =
    ((sectionLines lines).filter fun ls => ∃ line ∈ ls, Str.HasText line).map fun ls =>
      Str.strip (Str.join ['\n'] ls)
  words : blocks.flatMap (Str.words ·.text) = (bodyLines lines).flatMap Str.words

theorem words_section (ls : List Str) :
    Str.words (Str.strip (Str.join ['\n'] ls)) = ls.flatMap Str.words := by
  rw [Str.words_strip, Str.words_join isSpace_newline]

theorem section_eq_nil {ls : List Str} :
    Str.strip (Str.join ['\n'] ls) = [] ↔ ¬∃ line ∈ ls, Str.HasText line := by
  rw [Str.strip_eq_nil, ← Str.words_eq_nil, Str.words_join isSpace_newline,
    List.flatMap_eq_nil_iff, not_exists]
  exact forall_congr' fun line => by rw [Str.words_eq_nil, not_and]

theorem flatten_sectionLines (lines : List Str) : (sectionLines lines).flatten = bodyLines lines := by
  rw [sectionLines, ← List.map_flatten, flatten_bodies, bodyLines]

theorem map_text_sectionBlocks (lines : List Str) :
    (sectionBlocks (markdownSections lines)).map (·.text) =
      ((sectionLines lines).map fun ls => Str.strip (Str.join ['\n'] ls)).filter (· ≠ []) := by
  rw [sectionBlocks, List.map_map, sectionLines, List.map_map, ← map_snd_sections, List.map_map,
    List.filter_map]
  rfl

theorem texts_sectionBlocks (lines : List Str) :
    (sectionBlocks (markdownSections lines)).map (·.text) =
      ((sectionLines lines).filter fun ls => ∃ line ∈ ls, Str.HasText line).map fun ls =>
        Str.strip (Str.join ['\n'] ls) := by
  rw [map_text_sectionBlocks, List.filter_map]
  refine congrArg _ (List.filter_congr fun ls _ => decide_eq_decide.mpr ?_)
  rw [ne_eq, section_eq_nil, not_not]

theorem words_sectionBlocks (lines : List Str) :
    (sectionBlocks (markdownSections lines)).flatMap (Str.words ·.text) =
      (bodyLines lines).flatMap Str.words := by
  have hblank (texts : List Str) :
      (texts.filter (· ≠ [])).flatMap Str.words = texts.flatMap Str.words := by
    induction texts with
    | nil => rfl
    | cons text texts ih =>
      rw [List.filter_cons]
      by_cases hnil : text = []
      · rw [if_neg (by simpa using hnil), ih, List.flatMap_cons, hnil, Str.words_nil,
          List.nil_append]
      · rw [if_pos (by simpa using hnil), List.flatMap_cons, List.flatMap_cons, ih]
  rw [← List.flatMap_map, map_text_sectionBlocks, hblank, List.flatMap_map,
    List.flatMap_congr fun ls _ => words_section ls, ← flatten_sectionLines,
    List.flatten_eq_flatMap, List.flatMap_assoc]
  rfl

theorem sectionBlocks_eq_nil {lines : List Str} :
    sectionBlocks (markdownSections lines) = [] ↔ ∀ line ∈ bodyLines lines, ¬Str.HasText line := by
  rw [← List.map_eq_nil_iff, texts_sectionBlocks, List.map_eq_nil_iff, List.filter_eq_nil_iff,
    ← flatten_sectionLines]
  simp only [decide_eq_true_eq, not_exists, not_and, List.mem_flatten]
  exact ⟨fun h line ⟨ls, hls, hline⟩ => h ls hls line hline,
    fun h ls hls line hline => h line ⟨ls, hls, hline⟩⟩

theorem markdown_conserved (raw : Bytes) :
    ((∃ detail, parseMarkdown raw = .error (.parse detail)) ↔
      ∀ text, utf8Decode raw = some text →
        ∀ line ∈ bodyLines (Str.splitlines text), ¬Str.HasText line) ∧
    ∀ text, utf8Decode raw = some text →
      (∃ line ∈ bodyLines (Str.splitlines text), Str.HasText line) →
        ∃ blocks, parseMarkdown raw = .ok blocks ∧ Conserved (Str.splitlines text) blocks := by
  cases hd : utf8Decode raw with
  | none => exact ⟨⟨by simp, fun _ => ⟨_, parseMarkdown_undecodable hd⟩⟩, by simp⟩
  | some text =>
    rw [parseMarkdown_eq hd]
    refine ⟨⟨?_, fun h => ?_⟩, ?_⟩
    · rintro ⟨detail, herror⟩ _ ⟨rfl⟩
      split at herror
      · next hnil => exact sectionBlocks_eq_nil.mp hnil
      · cases herror
    · exact ⟨_, if_pos (sectionBlocks_eq_nil.mpr (h text rfl))⟩
    · rintro _ ⟨rfl⟩ ⟨line, hline, htext⟩
      refine ⟨_, if_neg fun hnil => sectionBlocks_eq_nil.mp hnil line hline htext, ?_⟩
      exact ⟨texts_sectionBlocks _, words_sectionBlocks _⟩

namespace Sample

def draft : Bytes := [35, 32, 65, 10, 96, 96, 96, 10, 35, 32, 98, 10]

end Sample

theorem draft_conserved :
    ∃ blocks, parseMarkdown Sample.draft = .ok blocks ∧
      Conserved (["# A", "\x60\x60\x60", "# b"].map String.toList) blocks :=
  (markdown_conserved Sample.draft).2 "# A\n\x60\x60\x60\n# b\n".toList (by decide)
    ⟨"# b".toList, by decide, '#', by decide, by decide⟩

end RagPlatform
