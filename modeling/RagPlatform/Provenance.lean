import Mathlib.Order.Bounds.Basic
import RagPlatform.ChunkWindows
import RagPlatform.Services.Answering

/-! Which blocks a chunk cites. -/

namespace RagPlatform

open Lib

def blockSentences (hardLimit : Int) (b : Block) : List Sentence :=
  (splitSentences b.text).flatMap (pieceSentences hardLimit b.metadata)

def sources (blocks : List Block) (hardLimit : Int) : List Block :=
  blocks.flatMap fun b => (blockSentences hardLimit b).map fun _ => b

def pagesOf (blocks : List Block) : Set Nat := {p | ∃ b ∈ blocks, b.metadata.page = some p}

/-- What a chunk of sentences from these blocks, the first of them from `first`, has to cite. -/
structure CitesBlocks (m : ChunkMeta) (first : Block) (blocks : List Block) : Prop where
  headings : ∀ path, m.headings = some path ↔ first.metadata.headings = some path ∧ path ≠ []
  pageStart : ∀ p, m.pageStart = some p ↔ IsLeast (pagesOf blocks) p
  pageEnd : ∀ p, m.pageEnd = some p ↔ IsGreatest (pagesOf blocks) p
  paged : (m.pageStart.isSome ↔ (pagesOf blocks).Nonempty) ∧
    (m.pageEnd.isSome ↔ (pagesOf blocks).Nonempty)
  location : formatLocation m = none ↔ m.headings = none ∧ m.pageStart = none ∧ m.pageEnd = none

/-- Blocks as a PDF has them: one a page, and nothing else to tell. -/
structure Paged (blocks : List Block) : Prop where
  page : ∀ b ∈ blocks, ∃ p, b.metadata = { page := some p }
  increasing : blocks.Pairwise fun b b' => ∀ p ∈ b.metadata.page, ∀ p' ∈ b'.metadata.page, p < p'

/-- What a chunk of a PDF cites: its pages, as one or as a range. -/
def CitesPages (m : ChunkMeta) (blocks : List Block) : Prop :=
  ∃ a b, m.pageStart = some a ∧ m.pageEnd = some b ∧ a ≤ b ∧
    (a = b ↔ ∃ p, ∀ block ∈ blocks, block.metadata.page = some p) ∧
    formatLocation m = some (if a = b then "p. ".toList ++ pageStr (some a)
      else "pp. ".toList ++ pageStr (some a) ++ "-".toList ++ pageStr (some b))

theorem metadata_sources (blocks : List Block) (hardLimit : Int) :
    (sentences blocks hardLimit).map (·.metadata) =
      (sources blocks hardLimit).map (·.metadata) := by
  unfold sentences sources
  rw [List.map_flatMap, List.map_flatMap]
  refine List.flatMap_congr fun b _ => ?_
  rw [List.map_map]
  refine List.map_congr_left fun s hs => ?_
  obtain ⟨raw, -, hs⟩ := List.mem_flatMap.mp hs
  exact (pieceSentences_sound hs).2

theorem length_sources (blocks : List Block) (hardLimit : Int) :
    (sources blocks hardLimit).length = (sentences blocks hardLimit).length := by
  have hlength := congrArg List.length (metadata_sources blocks hardLimit)
  rw [List.length_map, List.length_map] at hlength
  exact hlength.symm

theorem pageLocation_eq_none {m : ChunkMeta} : pageLocation m = none ↔ m.pageStart = none := by
  unfold pageLocation
  cases m.pageStart with
  | none => simp
  | some start =>
    simp only [reduceCtorEq, iff_false]
    split <;> simp

theorem mem_pages {blocks : List Block} {p : Nat} :
    p ∈ (blocks.map (·.metadata)).filterMap (·.page) ↔ p ∈ pagesOf blocks := by
  simp [pagesOf]

theorem formatLocation_eq_none {m : ChunkMeta} (h : m.headings ≠ some []) :
    formatLocation m = none ↔ m.headings = none ∧ m.pageStart = none := by
  unfold formatLocation
  split
  · next hnone => rw [pageLocation_eq_none, hnone, eq_self, true_and]
  · next hempty => exact absurd hempty h
  · next path hpath => simp [hpath]

theorem cites_mergeMeta {units : List Sentence} {first : Block} {blocks : List Block}
    (hfirst : blocks.head? = some first)
    (h : units.map (·.metadata) = blocks.map (·.metadata)) :
    CitesBlocks (mergeMeta units) first blocks := by
  have hpages : units.filterMap (·.metadata.page) =
      (blocks.map (·.metadata)).filterMap (·.page) := by
    rw [← h, List.filterMap_map]
    rfl
  have hheadings (path : List Str) : (mergeMeta units).headings = some path ↔
      first.metadata.headings = some path ∧ path ≠ [] := by
    have hhead := congrArg List.head? h
    rw [List.head?_map, List.head?_map, hfirst] at hhead
    obtain ⟨s, hs, hmetadata⟩ := Option.map_eq_some_iff.mp hhead
    simp [mergeMeta, Option.filter_eq_some_iff, hs, ← hmetadata]
  have hstart (p : Nat) : (mergeMeta units).pageStart = some p ↔ IsLeast (pagesOf blocks) p := by
    simp only [mergeMeta, hpages, List.min?_eq_some_iff, mem_pages]
    rfl
  have hend (p : Nat) : (mergeMeta units).pageEnd = some p ↔ IsGreatest (pagesOf blocks) p := by
    simp only [mergeMeta, hpages, List.max?_eq_some_iff, mem_pages]
    rfl
  have hnone : (mergeMeta units).pageStart = none ↔ (mergeMeta units).pageEnd = none := by
    simp only [mergeMeta, List.min?_eq_none_iff, List.max?_eq_none_iff]
  have hnonempty : (mergeMeta units).pageStart ≠ none ↔ (pagesOf blocks).Nonempty := by
    simp only [mergeMeta, hpages, ne_eq, List.min?_eq_none_iff, List.eq_nil_iff_forall_not_mem,
      mem_pages, not_forall, not_not]
    rfl
  refine ⟨hheadings, hstart, hend, ⟨?_, ?_⟩, ?_⟩
  · rw [← hnonempty, Option.isSome_iff_ne_none]
  · rw [← hnonempty, Option.isSome_iff_ne_none, ne_eq, ne_eq, hnone]
  · rw [formatLocation_eq_none fun hempty => ((hheadings []).mp hempty).2 rfl, ← hnone, and_self]

theorem parsePdf_paged {ext : External} {raw : Bytes} {blocks : List Block}
    (h : parsePdf ext raw = .ok blocks) : Paged blocks := by
  simp only [parsePdf] at h
  split at h
  · cases h
  · next pages _ =>
    split at h
    · cases h
    · cases h
      have hblock {page : Str × Nat} {b : Block} (hb : pageBlock page = some b) :
          b.metadata = { page := some page.2 } := by
        simp only [pageBlock] at hb
        split at hb
        · cases hb
        · cases hb
          rfl
      refine ⟨fun b hb => ?_, ?_⟩
      · obtain ⟨page, -, hpage⟩ := List.mem_filterMap.mp hb
        exact ⟨page.2, hblock hpage⟩
      · refine List.pairwise_filterMap.mpr ?_
        have hsorted : (pages.zipIdx 1).Pairwise fun page page' => page.2 < page'.2 := by
          rw [← List.pairwise_map, List.zipIdx_map_snd]
          exact List.pairwise_lt_range'
        refine hsorted.imp fun {page page'} hlt b hb b' hb' p hp p' hp' => ?_
        rw [hblock hb] at hp
        rw [hblock hb'] at hp'
        cases hp
        cases hp'
        exact hlt

section

variable {blocks : List Block} {hardLimit : Int} {v v' : Window} {m m' : ChunkMeta}
  {first first' : Block}

theorem paged_sources (h : Paged blocks) {b : Block} (hb : b ∈ sources blocks hardLimit) :
    ∃ p, b.metadata = { page := some p } := by
  obtain ⟨b', hb', hb⟩ := List.mem_flatMap.mp hb
  obtain ⟨s, -, rfl⟩ := List.mem_map.mp hb
  exact h.page b' hb'

theorem sources_sorted (h : Paged blocks) (hardLimit : Int) :
    (sources blocks hardLimit).Pairwise fun b b' =>
      ∀ p ∈ b.metadata.page, ∀ p' ∈ b'.metadata.page, p ≤ p' := by
  unfold sources
  rw [List.pairwise_flatMap]
  refine ⟨fun b _ => ?_, h.increasing.imp fun hlt x hx y hy p hp p' hp' => ?_⟩
  · rw [List.map_const']
    refine List.pairwise_replicate.mpr (.inr fun p hp p' hp' => ?_)
    exact (Option.some.inj (hp.symm.trans hp')).le
  · obtain ⟨s, -, rfl⟩ := List.mem_map.mp hx
    obtain ⟨s', -, rfl⟩ := List.mem_map.mp hy
    exact (hlt p hp p' hp').le

theorem page_le_page (h : Paged blocks) {i j : Nat} {b b' : Block} {p p' : Nat} (hij : i ≤ j)
    (hi : (sources blocks hardLimit)[i]? = some b) (hj : (sources blocks hardLimit)[j]? = some b')
    (hp : b.metadata.page = some p) (hp' : b'.metadata.page = some p') : p ≤ p' := by
  obtain hlt | rfl := Nat.lt_or_eq_of_le hij
  · obtain ⟨hi', rfl⟩ := List.getElem?_eq_some_iff.mp hi
    obtain ⟨hj', rfl⟩ := List.getElem?_eq_some_iff.mp hj
    exact List.pairwise_iff_getElem.mp (sources_sorted h hardLimit) i j hi' hj' hlt p hp p' hp'
  · cases hi.symm.trans hj
    exact (Option.some.inj (hp.symm.trans hp')).le

theorem exists_page (h : Paged blocks) {i : Nat} (hi : i < (sources blocks hardLimit).length) :
    ∃ b p, (sources blocks hardLimit)[i]? = some b ∧ b.metadata.page = some p := by
  obtain ⟨p, hp⟩ := paged_sources h (List.getElem_mem hi)
  exact ⟨_, p, List.getElem?_eq_getElem hi, congrArg BlockMeta.page hp⟩

theorem citesPages (h : Paged blocks) (hm : CitesBlocks m first (v.of (sources blocks hardLimit)))
    (hv : v.start < v.stop ∧ v.stop ≤ (sources blocks hardLimit).length)
    (hfirst : first ∈ sources blocks hardLimit) :
    CitesPages m (v.of (sources blocks hardLimit)) := by
  obtain ⟨b₀, p₀, hb₀, hp₀⟩ := exists_page h (hv.1.trans_le hv.2)
  have hnonempty : (pagesOf (v.of (sources blocks hardLimit))).Nonempty :=
    ⟨p₀, b₀, Window.mem_of_iff.mpr ⟨v.start, le_refl _, hv.1, hb₀⟩, hp₀⟩
  obtain ⟨a, ha⟩ := Option.isSome_iff_exists.mp (hm.paged.1.mpr hnonempty)
  obtain ⟨b, hb⟩ := Option.isSome_iff_exists.mp (hm.paged.2.mpr hnonempty)
  have hleast := (hm.pageStart a).mp ha
  have hgreatest := (hm.pageEnd b).mp hb
  refine ⟨a, b, ha, hb, hleast.2 hgreatest.1, ?_, ?_⟩
  · constructor
    · rintro rfl
      refine ⟨a, fun block hblock => ?_⟩
      obtain ⟨p, hp⟩ := paged_sources h (v.subset_of _ hblock)
      have hpage : p ∈ pagesOf (v.of (sources blocks hardLimit)) :=
        ⟨block, hblock, congrArg BlockMeta.page hp⟩
      rw [hp, le_antisymm (hgreatest.2 hpage) (hleast.2 hpage)]
    · rintro ⟨p, hp⟩
      obtain ⟨block, hblock, hpa⟩ := hleast.1
      obtain ⟨block', hblock', hpb⟩ := hgreatest.1
      rw [hp block hblock] at hpa
      rw [hp block' hblock'] at hpb
      exact Option.some.inj (hpa.symm.trans hpb)
  · have hheadings : m.headings = none := by
      obtain ⟨p, hp⟩ := paged_sources h hfirst
      refine Option.eq_none_iff_forall_ne_some.mpr fun path hpath => ?_
      have hkey := ((hm.headings path).mp hpath).1
      rw [hp] at hkey
      cases hkey
    unfold formatLocation
    rw [hheadings]
    simp only [pageLocation, ha, hb, Option.some.injEq]
    by_cases hab : a = b
    · rw [if_pos hab, if_pos hab.symm]
    · rw [if_neg hab, if_neg (Ne.symm hab)]

theorem pages_mono (h : Paged blocks) (hfollows : Follows v v')
    (hm : CitesBlocks m first (v.of (sources blocks hardLimit)))
    (hm' : CitesBlocks m' first' (v'.of (sources blocks hardLimit)))
    (hv : v.start < v.stop) (hv' : v'.stop ≤ (sources blocks hardLimit).length) :
    (∀ a ∈ m.pageStart, ∀ a' ∈ m'.pageStart, a ≤ a') ∧
      ∀ b ∈ m.pageEnd, ∀ b' ∈ m'.pageEnd, b ≤ b' := by
  have hstop := hfollows.stop_lt
  have hstart := hfollows.start_le
  refine ⟨fun a ha a' ha' => ?_, fun b hb b' hb' => ?_⟩
  · obtain ⟨x, p, hx, hp⟩ := exists_page h (hv.trans (hstop.trans_le hv'))
    have hpage : p ∈ pagesOf (v.of (sources blocks hardLimit)) :=
      ⟨x, Window.mem_of_iff.mpr ⟨v.start, le_refl _, hv, hx⟩, hp⟩
    obtain ⟨y, hy, hpy⟩ := ((hm'.pageStart a').mp ha').1
    obtain ⟨j, hj, -, hjy⟩ := Window.mem_of_iff.mp hy
    calc a ≤ p := ((hm.pageStart a).mp ha).2 hpage
      _ ≤ a' := page_le_page h (hfollows.start_lt.le.trans hj) hx hjy hp hpy
  · obtain ⟨x, p, hx, hp⟩ := exists_page h (show v'.stop - 1 < (sources blocks hardLimit).length by omega)
    have hpage : p ∈ pagesOf (v'.of (sources blocks hardLimit)) :=
      ⟨x, Window.mem_of_iff.mpr ⟨v'.stop - 1, by omega, by omega, hx⟩, hp⟩
    obtain ⟨y, hy, hpy⟩ := ((hm.pageEnd b).mp hb).1
    obtain ⟨i, -, hi, hiy⟩ := Window.mem_of_iff.mp hy
    calc b ≤ p := page_le_page h (show i ≤ v'.stop - 1 by omega) hiy hx hpy hp
      _ ≤ b' := ((hm'.pageEnd b').mp hb').2 hpage

end

/-- Every chunk cites the headings of the block it begins in, and the pages of all its blocks; the
chunks of a PDF go through its pages in order.  There are none under a target that is no `float`. -/
theorem chunks_cite (blocks : List Block) (target overlap : Int) (h : overlap < target) :
    sentences blocks target = blocks.flatMap (blockSentences target) ∧
    (sources blocks target).length = (sentences blocks target).length ∧
    (∀ ext raw, parsePdf ext raw = .ok blocks → Paged blocks) ∧
    (chunkBlocks blocks target overlap = .error overflowError ∨ ∃ vs, Chunked blocks target overlap vs ∧
      (∀ v ∈ vs, ∃ first, (sources blocks target)[v.start]? = some first ∧
        CitesBlocks (chunkOf (v.of (sentences blocks target))).metadata first
          (v.of (sources blocks target))) ∧
      (Paged blocks →
        (∀ v ∈ vs, CitesPages (chunkOf (v.of (sentences blocks target))).metadata
          (v.of (sources blocks target))) ∧
        vs.IsChain fun v v' =>
          (∀ a ∈ (chunkOf (v.of (sentences blocks target))).metadata.pageStart,
            ∀ a' ∈ (chunkOf (v'.of (sentences blocks target))).metadata.pageStart, a ≤ a') ∧
          ∀ b ∈ (chunkOf (v.of (sentences blocks target))).metadata.pageEnd,
            ∀ b' ∈ (chunkOf (v'.of (sentences blocks target))).metadata.pageEnd, b ≤ b')) := by
  refine ⟨rfl, length_sources blocks target, fun _ _ => parsePdf_paged, ?_⟩
  by_cases hsplits : Splittable blocks target
  swap
  · exact .inl (chunkBlocks_overflows h hsplits)
  right
  obtain ⟨vs, hchunked, hgreedy⟩ := exists_chunked h hsplits
  have hbounded : ∀ v ∈ vs, v.start < v.stop ∧ v.stop ≤ (sources blocks target).length :=
    length_sources blocks target ▸ hgreedy.bounded
  have hcites : ∀ v ∈ vs, ∃ first, (sources blocks target)[v.start]? = some first ∧
      CitesBlocks (chunkOf (v.of (sentences blocks target))).metadata first
        (v.of (sources blocks target)) := by
    intro v hv
    obtain ⟨hstart, hstop⟩ := hbounded v hv
    have hfirst := List.getElem?_eq_getElem (hstart.trans_le hstop)
    refine ⟨_, hfirst, cites_mergeMeta ?_ ?_⟩
    · rw [Window.of, List.head?_drop, List.getElem?_take, if_pos hstart, hfirst]
    · rw [← Window.of_map, ← Window.of_map, metadata_sources]
  refine ⟨vs, hchunked, hcites, fun hpaged => ⟨fun v hv => ?_, ?_⟩⟩
  · obtain ⟨first, hfirst, hm⟩ := hcites v hv
    exact citesPages hpaged hm (hbounded v hv) (List.mem_of_getElem? hfirst)
  · refine hchunked.tiles.follows.imp_of_mem_imp fun v v' hv hv' hfollows => ?_
    obtain ⟨first, -, hm⟩ := hcites v hv
    obtain ⟨first', -, hm'⟩ := hcites v' hv'
    exact pages_mono hpaged hfollows hm hm' (hbounded v hv).1 (hbounded v' hv').2

theorem pages_cite :
    ∃ vs, Chunked Sample.pages 3 1 vs ∧ ∀ v ∈ vs,
      CitesPages (chunkOf (v.of (sentences Sample.pages 3))).metadata
        (v.of (sources Sample.pages 3)) := by
  obtain ⟨-, -, -, hover | ⟨vs, hchunked, -, hpages⟩⟩ := chunks_cite Sample.pages 3 1 (by decide)
  · exact absurd hover (by decide +kernel)
  have hpaged : Paged Sample.pages := by
    refine ⟨?_, ?_⟩
    · simp [Sample.pages]
    · simp [Sample.pages]
  exact ⟨vs, hchunked, (hpages hpaged).1⟩

end RagPlatform
