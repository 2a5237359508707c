import RagPlatform.Ingestion.Sections

/-! The heading path of a block. -/

namespace RagPlatform

open Lib Lib.Outline

/-- A block after these headings: its path has the titles of those still open, outermost first. -/
structure Under (hs : List (Nat × Str)) (b : Block) : Prop where
  path : b.metadata.headings = some ((unclosed Prod.fst hs).map Prod.snd)
  increasing : (unclosed Prod.fst hs).Pairwise fun h h' => h.1 < h'.1

theorem under_openPath {hs : List (Nat × Str)} {b : Block}
    (h : b.metadata.headings = some (openPath hs)) : Under hs b :=
  ⟨h, unclosed_increasing Prod.fst hs⟩

theorem parseMarkdown_blocks {raw : Bytes} {blocks : List Block}
    (h : parseMarkdown raw = .ok blocks) :
    ∃ text, utf8Decode raw = some text ∧
      blocks = sectionBlocks (markdownSections (Str.splitlines text)) := by
  cases hd : utf8Decode raw with
  | none => rw [parseMarkdown_undecodable hd] at h; cases h
  | some text =>
    refine ⟨text, rfl, ?_⟩
    rw [parseMarkdown_eq hd] at h
    split at h
    · cases h
    · exact (Except.ok.inj h).symm

/-- The path of every block is the headings that are open where the block begins. -/
theorem paths_are_open (ext : External) :
    (∀ raw blocks, parseMarkdown raw = .ok blocks → ∃ text, utf8Decode raw = some text ∧
      List.Forall₂ (fun s b => b.text = sectionText s.2 ∧ Under (headings Prod.snd s.1) b)
        ((markdownSections (Str.splitlines text)).filter fun s => sectionText s.2 ≠ []) blocks) ∧
    ∀ raw soup blocks, ext.beautifulSoup raw = .ok soup → parseHtml ext raw = .ok blocks →
      List.Forall₂
        (fun e b => b.text = getText e.2.children ∧ Under (headings headingOf e.1) b)
        (passages (elements soup)) blocks := by
  refine ⟨fun raw blocks h => ?_, fun raw soup blocks hsoup h => ?_⟩
  · obtain ⟨text, htext, rfl⟩ := parseMarkdown_blocks h
    refine ⟨text, htext, ?_⟩
    rw [sectionBlocks, List.forall₂_map_right_iff, List.forall₂_same]
    exact fun s _ => ⟨rfl, under_openPath rfl⟩
  · rw [parseHtml_eq hsoup] at h
    split at h
    · cases h
    · rw [← Except.ok.inj h, List.forall₂_map_right_iff, List.forall₂_same]
      exact fun e _ => ⟨rfl, under_openPath rfl⟩

namespace Sample

def text : Str := "# A\n### B\nx\n## C\ny\n".toList

/-- `text` in UTF-8. -/
def outline : Bytes :=
  [35, 32, 65, 10, 35, 35, 35, 32, 66, 10, 120, 10, 35, 35, 32, 67, 10, 121, 10]

/-- `<h1>A</h1><h3>B</h3><p>x</p><h2>C</h2><p>y</p>` -/
def page : Bytes :=
  [60, 104, 49, 62, 65, 60, 47, 104, 49, 62, 60, 104, 51, 62, 66, 60, 47, 104, 51, 62, 60, 112,
    62, 120, 60, 47, 112, 62, 60, 104, 50, 62, 67, 60, 47, 104, 50, 62, 60, 112, 62, 121, 60, 47,
    112, 62]

def pageSoup : List Html :=
  [("h1", "A"), ("h3", "B"), ("p", "x"), ("h2", "C"), ("p", "y")].map fun el =>
    .element el.1.toList [.text el.2.toList]

def pageExt : External where
  sha256 _ := []
  pdfReader _ := .error "invalid pdf header".toList
  beautifulSoup raw := .ok (if raw = page then pageSoup else [])

def outlineBlocks : List Block :=
  [("x", ["A", "B"]), ("y", ["A", "C"])].map fun b =>
    ⟨b.1.toList, { headings := some (b.2.map String.toList) }⟩

end Sample

theorem parseMarkdown_outline : parseMarkdown Sample.outline = .ok Sample.outlineBlocks := by
  have htext : utf8Decode Sample.outline = some Sample.text := by decide
  have hblocks : sectionBlocks (markdownSections (Str.splitlines Sample.text)) =
      Sample.outlineBlocks := by
    decide
  rw [parseMarkdown_eq htext, hblocks]
  exact if_neg (List.cons_ne_nil _ _)

theorem beautifulSoup_page : Sample.pageExt.beautifulSoup Sample.page = .ok Sample.pageSoup :=
  congrArg Except.ok (if_pos rfl)

theorem parseHtml_page : parseHtml Sample.pageExt Sample.page = .ok Sample.outlineBlocks := by
  have hblocks : (passages (elements Sample.pageSoup)).map passageBlock = Sample.outlineBlocks := by
    decide
  rw [parseHtml_eq beautifulSoup_page, hblocks]
  exact if_neg (List.cons_ne_nil _ _)

theorem outline_paths_are_open :
    (∃ text, utf8Decode Sample.outline = some text ∧
      List.Forall₂ (fun s b => b.text = sectionText s.2 ∧ Under (headings Prod.snd s.1) b)
        ((markdownSections (Str.splitlines text)).filter fun s => sectionText s.2 ≠ [])
        Sample.outlineBlocks) ∧
    List.Forall₂
      (fun e b => b.text = getText e.2.children ∧ Under (headings headingOf e.1) b)
      (passages (elements Sample.pageSoup)) Sample.outlineBlocks :=
  ⟨(paths_are_open Sample.pageExt).1 _ _ parseMarkdown_outline,
    (paths_are_open Sample.pageExt).2 _ _ _ beautifulSoup_page parseHtml_page⟩

end RagPlatform
