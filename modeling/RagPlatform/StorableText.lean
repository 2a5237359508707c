import RagPlatform.ChunkWindows
import RagPlatform.Database
import RagPlatform.HeadingTitles

/-! Whether what a parser accepts is text that the database takes. -/

namespace RagPlatform

open Lib Lib.Outline

def DraftsStorable (drafts : List ChunkDraft) : Prop :=
  ∀ d ∈ drafts, storableText d.text ∧ ∀ title ∈ d.metadata.headings.getD [], storableText title

/-- A Markdown file is refused, or it can be stored however it is cut into chunks. -/
def AcceptedStorable (ext : External) (raw : Bytes) : Prop :=
  (∃ detail, parseDocument ext raw .markdown = .error (.parse detail)) ∨
    ∃ blocks, parseDocument ext raw .markdown = .ok blocks ∧
      ∀ target overlap drafts, overlap < target →
        chunkBlocks blocks target overlap = .ok drafts → DraftsStorable drafts

/-- There is a NUL in no line of the body, and in no heading line open at a line of text. -/
structure LinesStorable (lines : List Str) : Prop where
  body : ∀ line ∈ bodyLines lines, storableText line
  headings : ∀ heading h line, OpenOver lines heading h line → Str.HasText line →
    storableText heading

def nul : Char := Char.ofNat 0

theorem storableText_iff {s : Str} : storableText s = true ↔ nul ∉ s := by
  rw [storableText, List.all_eq_true]
  constructor
  · intro h hnul
    exact absurd (h nul hnul) (by decide)
  · intro h c hc
    refine decide_eq_true fun hzero => h ?_
    have hnul : c = nul := Char.toNat_inj.mp hzero
    exact hnul ▸ hc

theorem storableText_words {s : Str} :
    storableText s = true ↔ ∀ w ∈ Str.words s, storableText w = true := by
  rw [storableText_iff, Str.mem_iff_words (show isSpace nul = false by decide)]
  simp only [storableText_iff, not_exists, not_and]

theorem storableText_heading {line : Str} {h : Nat × Str} (hline : matchHeading line = some h) :
    storableText h.2 = true ↔ storableText line = true := by
  rw [storableText_iff, storableText_iff, mem_title_iff hline (by decide) (by decide)]

theorem carried_zero {s : Sentence} (h : 0 < s.tokens) : Packing.carried 0 [s] = [] := by
  have hcarry : Packing.carry 0 [s] 0 [] = [] := if_pos (by omega)
  unfold Packing.carried
  rw [List.reverse_singleton, hcarry]
  rfl

theorem foldl_push_one {units : List Sentence} {s : Sentence} (h : Positive (units ++ [s])) :
    (units ++ [s]).foldl (Packing.push 1 0) {} =
      ⟨units.map fun s => chunkOf [s], [s], s.tokens, true⟩ := by
  induction units using List.reverseRecOn generalizing s with
  | nil => simp [Packing.push]
  | append_singleton units last ih =>
    have hlast := ih fun s hs => h s (List.mem_append_left _ hs)
    have hpos : 0 < last.tokens := h last (by simp)
    have hs : 0 < s.tokens := h s (by simp)
    have hfull : ([last] : List Sentence) ≠ [] ∧ last.tokens + s.tokens > 1 :=
      ⟨List.cons_ne_nil _ _, by omega⟩
    rw [List.foldl_append, hlast, List.foldl_cons, List.foldl_nil, Packing.push, if_pos hfull,
      Packing.emit, if_pos rfl, carried_zero hpos, List.map_append]
    simp [chunkOf, weigh]

theorem chunkBlocks_one (blocks : List Block) :
    chunkBlocks blocks 1 0 = .ok ((sentences blocks 1).map fun s => chunkOf [s]) := by
  have hpos := positive_sentences blocks 1
  have hsplits : Splittable blocks 1 := splittable_of_nonneg blocks (by decide)
  rw [chunkBlocks, if_neg (by decide), if_neg (splittable_iff.mp hsplits)]
  obtain hnil | ⟨units, s, hunits⟩ := List.eq_nil_or_concat' (sentences blocks 1)
  · rw [hnil]
    rfl
  · rw [hunits] at hpos ⊢
    simp [foldl_push_one hpos, Packing.emit, chunkOf, weigh]

theorem metadata_of_mem_sentences {blocks : List Block} {hardLimit : Int} {s : Sentence}
    (h : s ∈ sentences blocks hardLimit) : ∃ b ∈ blocks, s.metadata = b.metadata := by
  obtain ⟨b, hb, hs⟩ := List.mem_flatMap.mp h
  obtain ⟨raw, -, hs⟩ := List.mem_flatMap.mp hs
  exact ⟨b, hb, (pieceSentences_sound hs).2⟩

theorem exists_sentence {blocks : List Block} {b : Block} (hb : b ∈ blocks) (h : b.HasText)
    (hardLimit : Int) : ∃ s ∈ sentences blocks hardLimit, s.metadata = b.metadata := by
  have hne : sentences [b] hardLimit ≠ [] :=
    sentences_ne_nil hardLimit (List.cons_ne_nil b []) fun b' hb' => List.mem_singleton.mp hb' ▸ h
  obtain ⟨s, hs⟩ := List.exists_mem_of_ne_nil _ hne
  obtain ⟨b', hb', hmetadata⟩ := metadata_of_mem_sentences hs
  rw [List.mem_singleton.mp hb'] at hmetadata
  rw [sentences, List.flatMap_singleton] at hs
  exact ⟨s, List.mem_flatMap.mpr ⟨b, hb, hs⟩, hmetadata⟩

theorem mem_headings_mergeMeta {units : List Sentence} {title : Str} :
    title ∈ (mergeMeta units).headings.getD [] ↔
      ∃ s, units.head? = some s ∧ title ∈ s.metadata.headings.getD [] := by
  cases units with
  | nil => simp [mergeMeta]
  | cons s units =>
    cases hpath : s.metadata.headings with
    | none => simp [mergeMeta, hpath]
    | some path =>
      cases path with
      | nil => simp [mergeMeta, hpath, Option.filter]
      | cons h path => simp [mergeMeta, hpath, Option.filter]

theorem storableText_join {parts : List Str} (h : ∀ p ∈ parts, storableText p = true) :
    storableText (Str.join [' '] parts) = true := by
  rw [storableText_words, Str.words_join (by decide)]
  intro w hw
  obtain ⟨p, hp, hw⟩ := List.mem_flatMap.mp hw
  exact storableText_words.mp (h p hp) w hw

theorem draftsStorable {blocks : List Block}
    (htext : ∀ w ∈ blocks.flatMap (fun b => Str.words b.text), storableText w = true)
    (htitles : ∀ b ∈ blocks, ∀ title ∈ b.metadata.headings.getD [], storableText title = true)
    {target overlap : Int} (hoverlap : overlap < target) {drafts : List ChunkDraft}
    (h : chunkBlocks blocks target overlap = .ok drafts) : DraftsStorable drafts := by
  obtain ⟨vs, -, hchunks⟩ := chunkBlocks_windows hoverlap (splittable_of_ok h).2
  rw [h, Except.ok.injEq] at hchunks
  intro d hd
  rw [hchunks] at hd
  obtain ⟨v, -, rfl⟩ := List.mem_map.mp hd
  have hsub (s : Sentence) (hs : s ∈ v.of (sentences blocks target)) :
      s ∈ sentences blocks target := List.mem_of_mem_take (List.mem_of_mem_drop hs)
  constructor
  · refine storableText_join fun p hp => ?_
    obtain ⟨s, hs, rfl⟩ := List.mem_map.mp hp
    refine storableText_words.mpr fun w hw => htext w ?_
    rw [← words_sentences blocks target]
    exact List.mem_flatMap.mpr ⟨s, hsub s hs, hw⟩
  · intro title htitle
    obtain ⟨s, hs, htitle⟩ := mem_headings_mergeMeta.mp htitle
    obtain ⟨b, hb, hmetadata⟩ := metadata_of_mem_sentences (hsub s (List.mem_of_mem_head? hs))
    exact htitles b hb title (hmetadata ▸ htitle)

theorem storable_of_drafts {blocks : List Block} (h : AllText blocks)
    (hdrafts : DraftsStorable ((sentences blocks 1).map fun s => chunkOf [s])) :
    (∀ w ∈ blocks.flatMap (fun b => Str.words b.text), storableText w = true) ∧
      ∀ b ∈ blocks, ∀ title ∈ b.metadata.headings.getD [], storableText title = true := by
  have hchunk (s : Sentence) (hs : s ∈ sentences blocks 1) :=
    hdrafts _ (List.mem_map_of_mem (f := fun s => chunkOf [s]) hs)
  constructor
  · intro w hw
    rw [← words_sentences blocks 1] at hw
    obtain ⟨s, hs, hw⟩ := List.mem_flatMap.mp hw
    have htext : (chunkOf [s]).text = s.text := by simp [chunkOf, Str.join, List.intercalate]
    have hstorable := (hchunk s hs).1
    rw [htext] at hstorable
    exact storableText_words.mp hstorable w hw
  · intro b hb title htitle
    obtain ⟨s, hs, hmetadata⟩ := exists_sentence hb (h b hb) 1
    exact (hchunk s hs).2 title (mem_headings_mergeMeta.mpr ⟨s, rfl, hmetadata ▸ htitle⟩)

theorem linesStorable_iff (lines : List Str) :
    LinesStorable lines ↔
      (∀ w ∈ (sectionBlocks (markdownSections lines)).flatMap (fun b => Str.words b.text),
        storableText w = true) ∧
      ∀ b ∈ sectionBlocks (markdownSections lines), ∀ title ∈ b.metadata.headings.getD [],
        storableText title = true := by
  rw [words_sectionBlocks, @forall_titles_iff _ fun title => storableText title = true]
  constructor
  · rintro ⟨hbody, hheadings⟩
    refine ⟨fun w hw => ?_, fun heading h line hopen htext => ?_⟩
    · obtain ⟨line, hline, hw⟩ := List.mem_flatMap.mp hw
      exact storableText_words.mp (hbody line hline) w hw
    · exact (storableText_heading hopen.matchHeading).mpr (hheadings heading h line hopen htext)
  · rintro ⟨hwords, htitles⟩
    refine ⟨fun line hline => ?_, fun heading h line hopen htext => ?_⟩
    · exact storableText_words.mpr fun w hw => hwords w (List.mem_flatMap.mpr ⟨line, hline, hw⟩)
    · exact (storableText_heading hopen.matchHeading).mp (htitles heading h line hopen htext)

/-- Only a NUL that the parser passes on keeps an accepted file from being stored. -/
theorem accepted_storable_iff (ext : External) (raw : Bytes) :
    AcceptedStorable ext raw ↔
      ∀ text, utf8Decode raw = some text → LinesStorable (Str.splitlines text) := by
  cases hd : utf8Decode raw with
  | none => exact iff_of_true (.inl ⟨_, parseMarkdown_undecodable hd⟩) fun text h => by cases h
  | some text =>
    simp only [Option.some.injEq, forall_eq']
    rw [linesStorable_iff]
    have hparse := parseMarkdown_eq hd
    generalize hblocks : sectionBlocks (markdownSections (Str.splitlines text)) = blocks at hparse ⊢
    by_cases hnil : blocks = []
    · rw [if_pos hnil] at hparse
      exact iff_of_true (.inl ⟨_, hparse⟩) (by simp [hnil])
    · rw [if_neg hnil] at hparse
      constructor
      · rintro (⟨detail, herror⟩ | ⟨blocks', hok, hdrafts⟩)
        · cases herror.symm.trans hparse
        · obtain rfl := Except.ok.inj (hok.symm.trans hparse)
          exact storable_of_drafts (hblocks ▸ sectionBlocks_allText _)
            (hdrafts 1 0 _ (by decide) (chunkBlocks_one _))
      · rintro ⟨hwords, htitles⟩
        exact .inr ⟨blocks, hparse, fun target overlap drafts hoverlap hchunks =>
          draftsStorable hwords htitles hoverlap hchunks⟩

namespace Sample

/-- `x`, a NUL and `y`. -/
def withNul : Bytes := [120, 0, 121]

end Sample

theorem nul_accepted : ¬∀ ext raw, AcceptedStorable ext raw := by
  intro hall
  have htext : utf8Decode Sample.withNul = some ['x', nul, 'y'] := by decide
  have hblocks : sectionBlocks (markdownSections (Str.splitlines ['x', nul, 'y'])) =
      [⟨['x', nul, 'y'], { headings := some [] }⟩] := by
    decide
  have hparse : parseMarkdown Sample.withNul =
      .ok [⟨['x', nul, 'y'], { headings := some [] }⟩] := by
    rw [parseMarkdown_eq htext, hblocks]
    exact if_neg (List.cons_ne_nil _ _)
  have hchunks : chunkBlocks [⟨['x', nul, 'y'], { headings := some [] }⟩] 400 60 =
      .ok [⟨['x', nul, 'y'], 1, {}⟩] := by
    decide +kernel
  obtain ⟨detail, herror⟩ | ⟨blocks, hok, hdrafts⟩ := hall Sample.pageExt Sample.withNul
  · cases herror.symm.trans hparse
  · obtain rfl := Except.ok.inj (hok.symm.trans hparse)
    have hstorable := (hdrafts 400 60 _ (by decide) hchunks _ (List.mem_singleton_self _)).1
    revert hstorable
    decide

end RagPlatform
