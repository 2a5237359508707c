import RagPlatform.HeadingPaths
import RagPlatform.Ingestion.HeadingLaws
import RagPlatform.MarkdownText

/-! The titles of headings: which of them are blank, and which are read back as they were written. -/

namespace RagPlatform

open Lib Lib.Outline

/-- A heading line that is still open at a later line of the file. -/
def OpenOver (lines : List Str) (heading : Str) (h : Nat × Str) (line : Str) : Prop :=
  ∃ pre mid post, recognised lines = pre ++ (heading, some h) :: (mid ++ (line, none) :: post) ∧
    ∀ h' ∈ headings Prod.snd mid, h.1 < h'.1

theorem matchHeading_of_mem {lines : List Str} {line : Str} {h : Nat × Str}
    (hmem : (line, some h) ∈ recognised lines) : matchHeading line = some h := by
  obtain ⟨l, -, heq⟩ := List.mem_map.mp hmem
  obtain ⟨rfl, hfound⟩ := Prod.mk.inj heq
  rw [headingAt] at hfound
  split at hfound
  · cases hfound
  · exact hfound

theorem OpenOver.matchHeading {lines : List Str} {heading line : Str} {h : Nat × Str}
    (hopen : OpenOver lines heading h line) : matchHeading heading = some h := by
  obtain ⟨pre, mid, post, hlines, -⟩ := hopen
  exact @matchHeading_of_mem lines _ _ (by rw [hlines]; simp)

theorem openAt_recognised {lines : List Str} {h : Nat × Str} {l : Line} :
    OpenAt Prod.snd Prod.fst (recognised lines) h l ↔
      l.2 = none ∧ ∃ heading, OpenOver lines heading h l.1 := by
  constructor
  · rintro ⟨pre, ⟨heading, _⟩, mid, post, hlines, rfl, hl, hmid⟩
    obtain ⟨line, _⟩ := l
    obtain rfl : _ = none := hl
    exact ⟨rfl, heading, pre, mid, post, hlines, hmid⟩
  · rintro ⟨hl, heading, pre, mid, post, hlines, hmid⟩
    obtain ⟨line, _⟩ := l
    obtain rfl : _ = none := hl
    exact ⟨pre, (heading, some h), mid, post, hlines, rfl, rfl, hmid⟩

theorem sectionText_ne_nil {body : List Line} :
    sectionText body ≠ [] ↔ ∃ l ∈ body, Str.HasText l.1 := by
  rw [sectionText, ne_eq, section_eq_nil, not_not]
  simp

theorem forall_titles_iff {lines : List Str} {P : Str → Prop} :
    (∀ b ∈ sectionBlocks (markdownSections lines), ∀ title ∈ b.metadata.headings.getD [], P title) ↔
      ∀ heading h line, OpenOver lines heading h line → Str.HasText line → P h.2 := by
  constructor
  · intro hall heading h line hopen htext
    have hopenAt : OpenAt Prod.snd Prod.fst (recognised lines) h (line, none) :=
      openAt_recognised.mpr ⟨rfl, heading, hopen⟩
    obtain ⟨s, hs, hline, hh⟩ := openAt_iff.mp hopenAt
    have hne : sectionText s.2 ≠ [] := sectionText_ne_nil.mpr ⟨_, hline, htext⟩
    refine hall (sectionBlock s) ?_ h.2 (List.mem_map_of_mem hh)
    exact List.mem_map_of_mem (List.mem_filter.mpr ⟨hs, decide_eq_true hne⟩)
  · intro hall b hb title htitle
    obtain ⟨s, hs, rfl⟩ := List.mem_map.mp hb
    obtain ⟨hs, hne⟩ := List.mem_filter.mp hs
    obtain ⟨h, hh, rfl⟩ := List.mem_map.mp htitle
    obtain ⟨l, hl, htext⟩ := sectionText_ne_nil.mp (of_decide_eq_true hne)
    obtain ⟨-, heading, hopen⟩ := openAt_recognised.mp (openAt_iff.mpr ⟨s, hs, hl, hh⟩)
    exact hall heading h l.1 hopen htext

def TitlesReal (blocks : List Block) : Prop :=
  ∀ b ∈ blocks, ∀ title ∈ b.metadata.headings.getD [], Str.strip title ≠ []

/-- No heading line without a title is open at a line of text. -/
def BareClosed (lines : List Str) : Prop :=
  ∀ heading h line, OpenOver lines heading h line → Str.HasText line → ¬Bare heading

theorem titlesReal_sectionBlocks (lines : List Str) :
    TitlesReal (sectionBlocks (markdownSections lines)) ↔ BareClosed lines := by
  refine forall_titles_iff.trans ?_
  refine forall_congr' fun heading => forall_congr' fun h => forall_congr' fun line => ?_
  refine forall_congr' fun hopen => imp_congr_right fun _ => not_congr ?_
  exact strip_title_eq_nil hopen.matchHeading

theorem titlesReal_passages (tags : List Tag) : TitlesReal ((passages tags).map passageBlock) := by
  intro b hb title htitle
  obtain ⟨e, -, rfl⟩ := List.mem_map.mp hb
  obtain ⟨h, hh, rfl⟩ := List.mem_map.mp htitle
  obtain ⟨el, -, hel⟩ := List.mem_filterMap.mp ((unclosed_sublist Prod.fst _).subset hh)
  simp only [headingOf] at hel
  split at hel
  · next hname =>
    rw [← Option.some.inj hel]
    rw [ne_eq, Str.strip_eq_nil, not_not]
    exact getText_hasText hname.2
  · cases hel

theorem titlesReal_pages (pages : List (Str × Nat)) : TitlesReal (pages.filterMap pageBlock) := by
  intro b hb title htitle
  obtain ⟨page, -, hpage⟩ := List.mem_filterMap.mp hb
  simp only [pageBlock] at hpage
  split at hpage
  · cases hpage
  · rw [← Option.some.inj hpage] at htitle
    cases htitle

/-- The titles are real but in a Markdown file where a bare heading line is open at some text. -/
theorem titles_real_iff (ext : External) (raw : Bytes) (t : DocumentSourceType) :
    (∀ blocks, parseDocument ext raw t = .ok blocks → TitlesReal blocks) ↔
      (t = .markdown → ∀ text, utf8Decode raw = some text → BareClosed (Str.splitlines text)) := by
  cases t with
  | pdf =>
    refine iff_of_true (fun blocks h => ?_) (fun h => by cases h)
    simp only [parseDocument, parsePdf] at h
    split at h
    · cases h
    · split at h
      · cases h
      · exact Except.ok.inj h ▸ titlesReal_pages _
  | html =>
    refine iff_of_true (fun blocks h => ?_) (fun h => by cases h)
    cases hsoup : ext.beautifulSoup raw with
    | error exc =>
      rw [parseDocument, parseHtml, hsoup] at h
      cases h
    | ok soup =>
      rw [parseDocument, parseHtml_eq hsoup] at h
      split at h
      · cases h
      · exact Except.ok.inj h ▸ titlesReal_passages _
  | markdown =>
    refine Iff.trans ?_ (forall_prop_of_true rfl).symm
    constructor
    · intro hall text htext
      rw [← titlesReal_sectionBlocks]
      by_cases hnil : sectionBlocks (markdownSections (Str.splitlines text)) = []
      · rw [hnil]
        exact fun b hb => by cases hb
      · exact hall _ ((parseMarkdown_eq htext).trans (if_neg hnil))
    · intro hclosed blocks h
      obtain ⟨text, htext, rfl⟩ := parseMarkdown_blocks h
      exact (titlesReal_sectionBlocks _).mpr (hclosed text htext)

namespace Sample

/-- The lines `#`, with two spaces after it, and `x`. -/
def untitled : Bytes := [35, 32, 32, 10, 120, 10]

end Sample

theorem blank_title : ¬∀ ext raw t blocks, parseDocument ext raw t = .ok blocks →
    TitlesReal blocks := by
  intro hall
  have htext : utf8Decode Sample.untitled = some "#  \nx\n".toList := by decide
  have hblocks : sectionBlocks (markdownSections (Str.splitlines "#  \nx\n".toList)) =
      [⟨"x".toList, { headings := some [[]] }⟩] := by
    decide
  have hparse : parseDocument Sample.pageExt Sample.untitled .markdown =
      .ok [⟨"x".toList, { headings := some [[]] }⟩] := by
    rw [parseDocument, parseMarkdown_eq htext, hblocks]
    exact if_neg (List.cons_ne_nil _ _)
  exact hall _ _ _ _ hparse _ (List.mem_singleton_self _) [] (List.mem_singleton_self _) rfl

structure Title (title : Str) : Prop where
  oneLine : ∀ c ∈ title, isLineBreak c = false
  ne_nil : title ≠ []
  stripped : Str.strip title = title
  plain : ∃ c ∈ title, c ≠ '#'
  /-- It does not end in white space and a run of hashes, which would close the heading. -/
  unclosed : ∀ u c run, title = u ++ c :: run → isSpace c = true → run ≠ [] → ∃ d ∈ run, d ≠ '#'

def Opens (line : Str) (level : Nat) (title : Str) : Prop :=
  ∀ scan : MarkdownScan, scan.inFence = false →
    scan.line line = { scan.flush with headingStack := scan.flush.headingStack.push level title }

def headingLine (level : Nat) (title : Str) : Str := List.replicate level '#' ++ ' ' :: title

structure RoundTrips (level : Nat) (title : Str) : Prop where
  plain : Opens (headingLine level title) level title
  closed : ∀ n, Opens (headingLine level title ++ ' ' :: List.replicate n '#') level title

theorem opens_iff {line : Str} {level : Nat} {title : Str} (hline : isFence line = false) :
    Opens line level title ↔ matchHeading line = some (level, title) := by
  constructor
  · intro h
    have hscan := h {} rfl
    cases hm : matchHeading line with
    | none =>
      simp only [MarkdownScan.line, hline, hm] at hscan
      cases congrArg MarkdownScan.buf hscan
    | some found =>
      simp only [MarkdownScan.line, hline, hm] at hscan
      have hstack : [found] = [(level, title)] := congrArg MarkdownScan.headingStack hscan
      rw [(List.cons.inj hstack).1]
  · intro hmatch scan hscan
    simp [MarkdownScan.line, hline, hscan, hmatch]

section

variable {level : Nat} {title : Str}

theorem isFence_headingLine (hlevel : 1 ≤ level) (rest : Str) :
    isFence (headingLine level title ++ rest) = false := by
  obtain ⟨n, rfl⟩ := Nat.exists_eq_add_of_le' hlevel
  simp [headingLine, List.replicate_succ, isFence]

theorem matchHeading_headingLine (hlevel : 1 ≤ level ∧ level ≤ 6) (h : Title title) (rest : Str) :
    matchHeading (headingLine level title ++ rest) =
      some (level, Str.strip (lazyTitle (title ++ rest))) := by
  have hhead : ∀ c ∈ (title ++ rest).head?, isSpace c = false := by
    intro c hc
    rw [List.head?_append_of_ne_nil _ h.ne_nil, ← h.stripped] at hc
    exact Str.head_strip title c hc
  have hmatch := @matchHeading_append (List.replicate level '#') [' '] (title ++ rest)
    (fun c hc => (List.mem_replicate.mp hc).2) (by simpa using hlevel)
    (fun c hc => List.mem_singleton.mp hc ▸ (by decide)) (List.cons_ne_nil _ _) hhead
  rw [if_neg (by simp [h.ne_nil]), List.length_replicate] at hmatch
  rw [headingLine, List.append_assoc, List.cons_append]
  exact hmatch

/-- Only the titles that end in a hash are not read back. -/
theorem title_round_trips_iff (hlevel : 1 ≤ level ∧ level ≤ 6) (h : Title title) :
    RoundTrips level title ↔ title.getLast? ≠ some '#' := by
  obtain ⟨u, c, hsplit⟩ := (List.eq_nil_or_concat' title).resolve_left h.ne_nil
  have hlast : title.getLast? = some c := by rw [hsplit, List.getLast?_concat]
  have hspace : isSpace c = false := Str.getLast_strip title c (h.stripped.symm ▸ hlast)
  rw [hlast, ne_eq, Option.some.injEq]
  constructor
  · rintro ⟨hplain, -⟩ rfl
    have hopens : Opens (headingLine level title ++ []) level title := by rwa [List.append_nil]
    rw [opens_iff (isFence_headingLine hlevel.1 []), matchHeading_headingLine hlevel h,
      List.append_nil, Option.some.injEq, Prod.mk.injEq] at hopens
    have hu : u ≠ [] := by
      rintro rfl
      obtain ⟨d, hd, hne⟩ := h.plain
      rw [hsplit] at hd
      exact hne (List.mem_singleton.mp hd)
    have hle : (lazyTitle title).length ≤ u.length := hsplit ▸ length_lazyTitle_le hu (by decide)
    have hstrip := Str.length_strip_le (lazyTitle title)
    rw [hopens.2, hsplit, List.length_append, List.length_singleton, ← hsplit] at hstrip
    omega
  · intro hc
    have htaken (rest : Str) (hrest : closesHeading rest = true) :
        Opens (headingLine level title ++ rest) level title := by
      rw [opens_iff (isFence_headingLine hlevel.1 rest), matchHeading_headingLine hlevel h]
      have hlazy : lazyTitle (title ++ rest) = title := by
        rw [hsplit, List.append_assoc]
        exact lazyTitle_append ⟨hc, hspace⟩ hrest
      rw [hlazy, h.stripped]
    refine ⟨?_, fun n => htaken _ ?_⟩
    · rw [← List.append_nil (headingLine level title)]
      exact htaken [] closesHeading_nil
    · exact closesHeading_space_hashes (by decide) fun c hc => (List.mem_replicate.mp hc).2

end

theorem title_of_check {title : Str} (hline : (title.all fun c => !isLineBreak c) = true)
    (hne : title ≠ []) (hstrip : Str.strip title = title)
    (hplain : (title.any fun c => c != '#') = true)
    (hspace : (title.all fun c => !isSpace c) = true) : Title title where
  oneLine := by simpa using hline
  ne_nil := hne
  stripped := hstrip
  plain := by simpa using hplain
  unclosed u c run hsplit hc _ := by
    have hplain := List.all_eq_true.mp hspace c (by rw [hsplit]; simp)
    rw [hc] at hplain
    cases hplain

theorem language_name_clipped :
    ¬∀ level title, 1 ≤ level ∧ level ≤ 6 → Title title → RoundTrips level title := by
  intro hall
  have hline : isFence "# C#".toList = false := by decide
  have htitle : Title "C#".toList :=
    title_of_check (by decide) (by decide) (by decide) (by decide) (by decide)
  have hopens : Opens "# C#".toList 1 "C#".toList := (hall 1 _ (by decide) htitle).plain
  rw [opens_iff hline] at hopens
  revert hopens
  decide

theorem title_round_trips_intro :
    RoundTrips 2 "Intro".toList ↔ "Intro".toList.getLast? ≠ some '#' :=
  title_round_trips_iff (by decide)
    (title_of_check (by decide) (by decide) (by decide) (by decide) (by decide))

end RagPlatform
