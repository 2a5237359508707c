import RagPlatform.Lib.Outline
import RagPlatform.Ingestion.Parsers

/-! The sections of a Markdown file and the passages of an element tree: what the scanners make of
them, their buffers and flags left aside. -/

namespace RagPlatform

open Lib Lib.Outline

def inFence (before : List Str) : Bool := before.countP isFence % 2 = 1

/-- The heading that a line is recognised as, by the lines before it. -/
def headingAt (before : List Str) (line : Str) : Option (Nat × Str) :=
  if isFence line || inFence before then none else matchHeading line

abbrev Line := Str × Option (Nat × Str)

/-- The lines of a file, each with the heading it is recognised as. -/
def recognised (lines : List Str) : List Line :=
  (inContext lines).map fun l => (l.2, headingAt l.1 l.2)

def sectionText (body : List Line) : Str := Str.strip (Str.join ['\n'] (body.map Prod.fst))

def openPath (hs : List (Nat × Str)) : List Str := (unclosed Prod.fst hs).map Prod.snd

def sectionBlock (s : List Line × List Line) : Block :=
  ⟨sectionText s.2, { headings := some (openPath (headings Prod.snd s.1)) }⟩

def sectionBlocks (ss : List (List Line × List Line)) : List Block :=
  (ss.filter fun s => sectionText s.2 ≠ []).map sectionBlock

def markdownSections (lines : List Str) : List (List Line × List Line) :=
  sections Prod.snd (recognised lines)

theorem inFence_concat (before : List Str) (line : Str) :
    inFence (before ++ [line]) = (inFence before ^^ isFence line) := by
  rw [inFence, inFence, List.countP_append, List.countP_singleton]
  cases isFence line with
  | false => simp
  | true =>
    rw [if_pos rfl, Bool.xor_true, ← decide_not, decide_eq_decide]
    omega

theorem recognised_concat (lines : List Str) (line : Str) :
    recognised (lines ++ [line]) = recognised lines ++ [(line, headingAt lines line)] := by
  rw [recognised, inContext_concat, List.map_append]
  rfl

theorem map_fst_recognised (lines : List Str) : (recognised lines).map Prod.fst = lines := by
  rw [recognised, List.map_map]
  exact map_snd_inContext lines

/-- What the scanner holds after these lines: the blocks of the closed sections, and the section it
is in. -/
structure Scanned (lines : List Str) (scan : MarkdownScan) (closed : List (List Line × List Line))
    (before body : List Line) : Prop where
  sections : markdownSections lines = closed ++ [(before, body)]
  headings : headings Prod.snd before = headings Prod.snd (recognised lines)
  blocks : scan.blocks = sectionBlocks closed
  buf : scan.buf = body.map Prod.fst
  headingStack : scan.headingStack = unclosed Prod.fst (Outline.headings Prod.snd before)
  inFence : scan.inFence = inFence lines

variable {lines : List Str} {scan : MarkdownScan} {closed : List (List Line × List Line)}
  {before body : List Line} {line : Str}

theorem scanned_nil : Scanned [] {} [] [] [] := ⟨rfl, rfl, rfl, rfl, rfl, rfl⟩

theorem Scanned.flush (h : Scanned lines scan closed before body) :
    scan.flush.blocks = sectionBlocks (markdownSections lines) := by
  rw [h.sections, sectionBlocks, List.filter_append, List.map_append, ← sectionBlocks, ← h.blocks,
    MarkdownScan.flush]
  have htext : Str.strip (Str.join ['\n'] scan.buf) = sectionText body := by rw [h.buf]; rfl
  have hpath : scan.headingStack.path = openPath (Outline.headings Prod.snd before) := by
    rw [h.headingStack]
    rfl
  by_cases hnil : sectionText body = []
  · simp [htext, hnil]
  · simp [htext, hnil, sectionBlock, hpath]

theorem Scanned.heading_line (h : Scanned lines scan closed before body) {found : Nat × Str}
    (hline : headingAt lines line = some found) :
    Scanned (lines ++ [line]) (scan.line line) (markdownSections lines)
      (recognised (lines ++ [line])) [] := by
  obtain ⟨hno, hmatch⟩ : ¬(isFence line || RagPlatform.inFence lines) = true ∧
      matchHeading line = some found := by
    simpa [headingAt] using hline
  rw [Bool.or_eq_true, not_or, Bool.not_eq_true, Bool.not_eq_true] at hno
  have hscan : scan.line line =
      { scan.flush with headingStack := scan.flush.headingStack.push found.1 found.2 } := by
    simp [MarkdownScan.line, hno.1, h.inFence, hno.2, hmatch]
  rw [hscan]
  refine ⟨?_, rfl, h.flush, rfl, ?_, ?_⟩
  · rw [markdownSections, recognised_concat]
    exact sections_concat_heading (x := (line, headingAt lines line)) hline _
  · rw [recognised_concat, headings_concat, hline, ← h.headings]
    change Outline.push Prod.fst scan.headingStack found = _
    rw [h.headingStack, push_unclosed]
    rfl
  · rw [inFence_concat, hno.1, Bool.xor_false]
    exact h.inFence

theorem Scanned.body_line (h : Scanned lines scan closed before body)
    (hline : headingAt lines line = none) :
    Scanned (lines ++ [line]) (scan.line line) closed before (body ++ [(line, none)]) := by
  have hscan : scan.line line =
      { scan with
        buf := scan.buf ++ [line], inFence := RagPlatform.inFence (lines ++ [line]) } := by
    rw [inFence_concat, ← h.inFence, MarkdownScan.line]
    cases hfence : isFence line with
    | true => simp
    | false =>
      have hnone : (if scan.inFence then none else matchHeading line) = none := by
        rw [h.inFence]
        simpa [headingAt, hfence] using hline
      simp [hnone]
  rw [hscan]
  refine ⟨?_, ?_, h.blocks, ?_, h.headingStack, rfl⟩
  · rw [markdownSections, recognised_concat, hline]
    exact sections_concat rfl h.sections
  · rw [recognised_concat, headings_concat, hline, h.headings, Option.toList_none, List.append_nil]
  · change scan.buf ++ [line] = _
    rw [h.buf, List.map_append]
    rfl

theorem scanned (lines : List Str) :
    ∃ closed before body,
      Scanned lines (lines.foldl MarkdownScan.line {}) closed before body := by
  induction lines using List.reverseRecOn with
  | nil => exact ⟨[], [], [], scanned_nil⟩
  | append_singleton lines line ih =>
    obtain ⟨closed, before, body, h⟩ := ih
    rw [List.foldl_append, List.foldl_cons, List.foldl_nil]
    cases hline : headingAt lines line with
    | none => exact ⟨_, _, _, h.body_line hline⟩
    | some found => exact ⟨_, _, _, h.heading_line hline⟩

theorem parseMarkdown_eq {raw : Bytes} {text : Str} (h : utf8Decode raw = some text) :
    parseMarkdown raw =
      if sectionBlocks (markdownSections (Str.splitlines text)) = [] then
        .error (.parse "markdown has no body text (headings alone are not content)".toList)
      else .ok (sectionBlocks (markdownSections (Str.splitlines text))) := by
  obtain ⟨closed, before, body, hscanned⟩ := scanned (Str.splitlines text)
  simp only [parseMarkdown, decode, h, bind, Except.bind, hscanned.flush]

theorem parseMarkdown_undecodable {raw : Bytes} (h : utf8Decode raw = none) :
    parseMarkdown raw = .error (.parse "file is not valid UTF-8 text".toList) := by
  simp only [parseMarkdown, decode, h, bind, Except.bind]

def headingOf (el : Tag) : Option (Nat × Str) :=
  let title := getText el.children
  if el.name ∈ headingTags ∧ title ≠ [] then some ((el.name.getD 1 '0').toNat - 48, title) else none

def isPassage (el : Tag) : Bool :=
  el.name ∉ headingTags ∧ ¬el.ancestors.any (· ∈ textTags) ∧ getText el.children ≠ []

/-- The elements that the scan of a tree visits, in document order. -/
def elements (soup : List Html) : List Tag :=
  findAll (headingTags ++ textTags) (Html.pruneAll soup)

def passages (tags : List Tag) : List (List Tag × Tag) :=
  (inContext tags).filter fun e => isPassage e.2

def passageBlock (e : List Tag × Tag) : Block :=
  ⟨getText e.2.children, { headings := some (openPath (headings headingOf e.1)) }⟩

theorem passages_concat (tags : List Tag) (el : Tag) :
    passages (tags ++ [el]) = passages tags ++ if isPassage el then [(tags, el)] else [] := by
  rw [passages, inContext_concat, List.filter_append, ← passages, List.filter_singleton]
  cases isPassage el <;> rfl

theorem foldl_tag (tags : List Tag) :
    tags.foldl HtmlScan.tag {} =
      ⟨(passages tags).map passageBlock, unclosed Prod.fst (headings headingOf tags)⟩ := by
  induction tags using List.reverseRecOn with
  | nil => rfl
  | append_singleton tags el ih =>
    rw [List.foldl_append, ih, List.foldl_cons, List.foldl_nil, passages_concat, headings_concat,
      HtmlScan.tag]
    by_cases hname : el.name ∈ headingTags
    · have hpassage : isPassage el = false := by simp [isPassage, hname]
      rw [if_pos hname, hpassage, if_neg Bool.false_ne_true, List.append_nil]
      by_cases hnil : getText el.children = []
      · simp [headingOf, hnil]
      · simp only [headingOf, hname, hnil, ne_eq, not_false_eq_true, and_self, if_true, if_false,
          Option.toList_some, ← push_unclosed]
        rfl
    · have hheading : headingOf el = none := by simp [headingOf, hname]
      rw [if_neg hname, hheading, Option.toList_none, List.append_nil]
      by_cases hinner : el.ancestors.any (· ∈ textTags) = true
      · have hpassage : isPassage el = false := by
          rw [isPassage, hinner]
          simp
        rw [if_pos hinner, hpassage, if_neg Bool.false_ne_true, List.append_nil]
      · rw [if_neg hinner]
        by_cases hnil : getText el.children = []
        · simp [isPassage, hnil]
        · have hpassage : isPassage el = true := decide_eq_true ⟨hname, hinner, hnil⟩
          rw [hpassage, if_pos rfl, List.map_append]
          simp only [hnil, if_false]
          rfl

theorem parseHtml_eq {ext : External} {raw : Bytes} {soup : List Html}
    (h : ext.beautifulSoup raw = .ok soup) :
    parseHtml ext raw =
      if (passages (elements soup)).map passageBlock = [] then
        .error (.parse "HTML has no extractable text content".toList)
      else .ok ((passages (elements soup)).map passageBlock) := by
  simp only [parseHtml, h]
  rw [← elements, foldl_tag]

end RagPlatform
