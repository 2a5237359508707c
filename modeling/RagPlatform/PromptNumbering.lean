import RagPlatform.Lib.Framing
import RagPlatform.Services.Markers
import RagPlatform.StorableText
import RagPlatform.TextBudget

/-! Whether the numbers of the passages in the prompt are all that look like them. -/

namespace RagPlatform

open Lib

/-- Where a line ends: at a newline alone, as for `^` in a MULTILINE pattern, or wherever
`str.splitlines` breaks. -/
inductive LineRule
  | multiline | splitlines

def LineRule.breaks : LineRule → Char → Bool
  | .multiline, c => c = '\n'
  | .splitlines, c => isLineBreak c

/-- The digits of `re.match(r"\[(\d+)\]", line)`. -/
def leadingMarker : Str → Option Str
  | [] => none
  | c :: s =>
    let digits := s.takeWhile fun c => (decimal c).isSome
    let rest := s.dropWhile fun c => (decimal c).isSome
    if c = '[' ∧ digits ≠ [] ∧ rest.head? = some ']' then some digits else none

def contextPart (prompt query : Str) : Str :=
  prompt.rdrop ("\n\nQuestion: ".toList ++ query).length

def ChunkText (content : Str) : Prop :=
  ∃ blocks target overlap drafts, chunkBlocks blocks target overlap = .ok drafts ∧
    content ∈ drafts.map (·.text)

/-- The run of digits and what comes after it are the same before a character that is neither a digit
nor the closing bracket. -/
theorem digits_append {s : Str} {c : Char} (hdecimal : decimal c = none) (hclose : c ≠ ']')
    (t : Str) :
    (s ++ c :: t).takeWhile (fun c => (decimal c).isSome) =
        s.takeWhile (fun c => (decimal c).isSome) ∧
      (((s ++ c :: t).dropWhile fun c => (decimal c).isSome).head? = some ']' ↔
        (s.dropWhile fun c => (decimal c).isSome).head? = some ']') := by
  induction s with
  | nil => simp [hdecimal, hclose]
  | cons b s ih =>
    cases hb : (decimal b).isSome with
    | true => simpa [hb] using ih
    | false => simp [hb]

theorem leadingMarker_append (s : Str) {c : Char} (t : Str)
    (h : decimal c = none ∧ c ≠ '[' ∧ c ≠ ']') :
    leadingMarker (s ++ c :: t) = leadingMarker s := by
  obtain ⟨hdecimal, hopen, hclose⟩ := h
  cases s with
  | nil => simp [leadingMarker, hopen]
  | cons b s =>
    obtain ⟨htake, hrest⟩ := digits_append (s := s) hdecimal hclose t
    simp only [List.cons_append, leadingMarker, htake, hrest]

theorem decimal_lineBreak {c : Char} (h : isLineBreak c = true) : decimal c = none := by
  have hmem : c.toNat ∈ [10, 11, 12, 13, 28, 29, 30, 0x85, 0x2028, 0x2029] := by
    simp [isLineBreak] at h
    simp
    omega
  have hnone : ∀ n ∈ [10, 11, 12, 13, 28, 29, 30, 0x85, 0x2028, 0x2029],
      (decimalZeros.find? fun z => z ≤ n ∧ n < z + 10) = none := by
    decide +kernel
  rw [decimal, hnone _ hmem]
  rfl

theorem LineRule.lineBreak {rule : LineRule} {c : Char} (h : rule.breaks c = true) :
    isLineBreak c = true := by
  cases rule with
  | multiline =>
    have hc : c = '\n' := of_decide_eq_true h
    rw [hc]
    decide
  | splitlines => exact h

/-- The lines of a prompt, and those that begin with a bracketed decimal marker. -/
def LineRule.framing (rule : LineRule) : Framing Str where
  breaks := rule.breaks
  mark := leadingMarker
  inert c := (decimal c).isNone && c ≠ '[' && c ≠ ']'
  mark_nil := rfl
  inert_of_breaks c h := by
    have hline := LineRule.lineBreak h
    have hopen : c ≠ '[' := by
      rintro rfl
      exact absurd hline (by decide)
    have hclose : c ≠ ']' := by
      rintro rfl
      exact absurd hline (by decide)
    simp [decimal_lineBreak hline, hopen, hclose]
  mark_append s c t h := leadingMarker_append s t (by simpa [and_assoc] using h)

theorem framing_mark (rule : LineRule) (line : Str) : rule.framing.mark line = leadingMarker line :=
  rfl

def contextLines (rule : LineRule) (chunks : List RetrievedChunk) (query : Str) : List Str :=
  rule.framing.lines (contextPart (buildUserPrompt chunks query) query)

/-- The lines that begin with a marker are the headers of the passages, numbered in order, and what
is read under each is its passage. -/
structure Numbered (rule : LineRule) (chunks : List RetrievedChunk) (query : Str) : Prop where
  headers : (contextLines rule chunks query).filter rule.framing.marks =
    (chunks.zipIdx 1).map fun x => rule.framing.header (passage x.1 x.2)
  markers : (contextLines rule chunks query).filterMap leadingMarker =
    (List.range' 1 chunks.length).map fun i => (toString i).toList
  passages : List.Forall₂
    (fun group x => ∃ n, group = rule.framing.lines (passage x.1 x.2) ++ List.replicate n [])
    (rule.framing.read (contextLines rule chunks query)) (chunks.zipIdx 1)

/-- Neither the text of the chunk nor a later line of one of its titles begins with a marker. -/
structure Unforged (rule : LineRule) (chunk : RetrievedChunk) : Prop where
  content : leadingMarker chunk.content = none
  titles : ∀ title ∈ chunk.metadata.headings.getD [], rule.framing.reopens title = false

theorem isSpace_of_lineBreak {c : Char} (h : isLineBreak c = true) : isSpace c = true := by
  simp [isLineBreak] at h
  simp [isSpace]
  omega

theorem plain_sentence {blocks : List Block} {hardLimit : Int} {s : Sentence}
    (h : s ∈ sentences blocks hardLimit) {c : Char} (hc : c ∈ s.text) :
    c = ' ' ∨ isSpace c = false := by
  obtain ⟨b, -, h₁⟩ := List.mem_flatMap.mp h
  obtain ⟨raw, -, h₂⟩ := List.mem_flatMap.mp h₁
  obtain ⟨parts, hflat, -, -, heq⟩ := pieceSentences_eq hardLimit b.metadata raw
  rw [heq] at h₂
  obtain ⟨part, hpart, rfl⟩ := List.mem_map.mp h₂
  obtain hsep | ⟨w, hw, hcw⟩ := mem_join hc
  · exact .inl (List.mem_singleton.mp hsep)
  · have hword : w ∈ Str.words raw := hflat ▸ List.mem_flatten.mpr ⟨part, hpart, hw⟩
    exact .inr ((Str.isWord_of_mem hword).plain c hcw)

theorem ChunkText.plain {content : Str} (h : ChunkText content) {c : Char} (hc : c ∈ content) :
    c = ' ' ∨ isSpace c = false := by
  obtain ⟨blocks, target, overlap, drafts, hok, hmem⟩ := h
  obtain ⟨hoverlap, hsplits⟩ := splittable_of_ok hok
  obtain ⟨vs, -, hchunks⟩ := chunkBlocks_windows hoverlap hsplits
  obtain rfl := Except.ok.inj (hok.symm.trans hchunks)
  obtain ⟨d, hd, rfl⟩ := List.mem_map.mp hmem
  obtain ⟨v, -, rfl⟩ := List.mem_map.mp hd
  obtain hsep | ⟨text, htext, hct⟩ := mem_join hc
  · exact .inl (List.mem_singleton.mp hsep)
  · obtain ⟨s, hs, rfl⟩ := List.mem_map.mp htext
    exact plain_sentence (List.mem_of_mem_take (List.mem_of_mem_drop hs)) hct

section

variable {rule : LineRule}

theorem breaks_of_plain {c : Char} (h : c = ' ' ∨ isSpace c = false) : rule.breaks c = false := by
  rw [Bool.eq_false_iff]
  intro hbreak
  have hspace := isSpace_of_lineBreak (LineRule.lineBreak hbreak)
  obtain rfl | hplain := h
  · exact absurd (LineRule.lineBreak hbreak) (by decide)
  · rw [hplain] at hspace
    cases hspace

theorem breaks_newline : rule.framing.breaks '\n' = true := by
  cases rule with
  | multiline => rfl
  | splitlines => decide

theorem inert_blank : rule.framing.inert ' ' = true := by
  change ((decimal ' ').isNone && decide (' ' ≠ '[') && decide (' ' ≠ ']')) = true
  decide

theorem inert_close : rule.framing.inert ')' = true := by
  change ((decimal ')').isNone && decide (')' ≠ '[') && decide (')' ≠ ']')) = true
  decide

theorem decimal_of_isDigit {c : Char} (h : c.isDigit = true) : (decimal c).isSome := by
  have hrange : 48 ≤ c.toNat ∧ c.toNat ≤ 57 := Char.isDigit_iff_toNat.mp h
  rw [decimal, Option.isSome_map, List.find?_isSome]
  exact ⟨0x30, by simp [decimalZeros], by simp; omega⟩

theorem leadingMarker_open {digits : Str} (hne : digits ≠ [])
    (hdigits : ∀ c ∈ digits, (decimal c).isSome) (s : Str) :
    leadingMarker ('[' :: (digits ++ ']' :: s)) = some digits := by
  have htake : (digits ++ ']' :: s).takeWhile (fun c => (decimal c).isSome) = digits := by
    rw [List.takeWhile_append_of_pos hdigits, List.takeWhile_cons, decimal_close]
    simp
  have hdrop : (digits ++ ']' :: s).dropWhile (fun c => (decimal c).isSome) = ']' :: s := by
    rw [List.dropWhile_append_of_pos hdigits, List.dropWhile_cons, decimal_close]
    simp
  simp [leadingMarker, htake, hdrop, hne]

theorem isDigit_number {i : Nat} {c : Char} (hc : c ∈ (toString i).toList) : c.isDigit = true := by
  rw [Nat.toString_eq_repr, Nat.toList_repr] at hc
  exact Nat.isDigit_of_mem_toDigits (by decide) (by decide) hc

theorem number_ne_nil (i : Nat) : (toString i).toList ≠ [] := by
  rw [Nat.toString_eq_repr, Nat.toList_repr]
  exact Nat.toDigits_ne_nil

def source (chunk : RetrievedChunk) : Str :=
  match formatLocation chunk.metadata with
  | none => chunk.filename
  | some location => chunk.filename ++ " — ".toList ++ location

theorem passage_eq (chunk : RetrievedChunk) (i : Nat) :
    passage chunk i = '[' :: ((toString i).toList ++ "] (".toList) ++
      (source chunk ++ ')' :: '\n' :: chunk.content) := by
  simp only [passage, source, List.append_assoc, List.cons_append]
  rfl

theorem leadingMarker_passage (chunk : RetrievedChunk) (i : Nat) :
    leadingMarker (passage chunk i) = some (toString i).toList := by
  rw [passage_eq, List.cons_append, List.append_assoc]
  exact leadingMarker_open (number_ne_nil i) (fun c hc => decimal_of_isDigit (isDigit_number hc)) _

theorem plain_number {i : Nat} {c : Char} (hc : c ∈ (toString i).toList) :
    c = ' ' ∨ isSpace c = false := by
  have hrange : 48 ≤ c.toNat ∧ c.toNat ≤ 57 := Char.isDigit_iff_toNat.mp (isDigit_number hc)
  refine .inr ?_
  simp [isSpace]
  omega

theorem plain_pageStr {page : Option Nat} {c : Char} (hc : c ∈ pageStr page) :
    c = ' ' ∨ isSpace c = false := by
  cases page with
  | none =>
    have hall : ∀ c ∈ pageStr none, c = ' ' ∨ isSpace c = false :=
      List.forall_iff_forall_mem.mp (by decide)
    exact hall c hc
  | some n => exact plain_number hc

theorem plain_pageLocation {m : ChunkMeta} {location : Str} (h : pageLocation m = some location)
    {c : Char} (hc : c ∈ location) : c = ' ' ∨ isSpace c = false := by
  have hone : ∀ c ∈ "p. ".toList, c = ' ' ∨ isSpace c = false :=
    List.forall_iff_forall_mem.mp (by decide)
  have hmany : ∀ c ∈ "pp. ".toList, c = ' ' ∨ isSpace c = false :=
    List.forall_iff_forall_mem.mp (by decide)
  have hto : ∀ c ∈ "-".toList, c = ' ' ∨ isSpace c = false :=
    List.forall_iff_forall_mem.mp (by decide)
  unfold pageLocation at h
  split at h
  · cases h
  split at h
  · obtain rfl := Option.some.inj h
    exact (List.mem_append.mp hc).elim (hone c) plain_pageStr
  · obtain rfl := Option.some.inj h
    simp only [List.mem_append] at hc
    obtain ((hc | hc) | hc) | hc := hc
    · exact hmany c hc
    · exact plain_pageStr hc
    · exact hto c hc
    · exact plain_pageStr hc

theorem reopens_formatLocation {m : ChunkMeta} {location : Str}
    (h : formatLocation m = some location) :
    rule.framing.reopens location = (m.headings.getD []).any rule.framing.reopens := by
  have hpage (hm : m.headings.getD [] = []) (hl : pageLocation m = some location) :
      rule.framing.reopens location = (m.headings.getD []).any rule.framing.reopens := by
    rw [hm]
    exact Framing.reopens_plain fun c hc => breaks_of_plain (plain_pageLocation hl hc)
  unfold formatLocation at h
  split at h
  · next hnone => exact hpage (by rw [hnone]; rfl) h
  · next hempty => exact hpage (by rw [hempty]; rfl) h
  · next titles _ htitles =>
    obtain rfl := Option.some.inj h
    have hsign : ∀ c ∈ "§ ".toList, rule.breaks c = false :=
      List.forall_iff_forall_mem.mp (by cases rule <;> decide)
    have hsep : ∀ c ∈ [' ', '>', ' '], rule.breaks c = false :=
      List.forall_iff_forall_mem.mp (by cases rule <;> decide)
    rw [htitles]
    refine (Framing.reopens_plain_append hsign _).trans ?_
    exact Framing.reopens_join inert_blank hsep titles

theorem reopens_source {chunk : RetrievedChunk}
    (hname : ∀ c ∈ chunk.filename, rule.breaks c = false) :
    rule.framing.reopens (source chunk) =
      (chunk.metadata.headings.getD []).any rule.framing.reopens := by
  unfold source
  cases hlocation : formatLocation chunk.metadata with
  | none =>
    have hnil : chunk.metadata.headings.getD [] = [] := by
      unfold formatLocation at hlocation
      split at hlocation
      · next h => rw [h]; rfl
      · next h => rw [h]; rfl
      · cases hlocation
    rw [hnil]
    exact Framing.reopens_plain hname
  | some location =>
    have hdash : ∀ c ∈ " — ".toList, rule.breaks c = false :=
      List.forall_iff_forall_mem.mp (by cases rule <;> decide)
    rw [← reopens_formatLocation hlocation]
    change rule.framing.reopens (chunk.filename ++ " — ".toList ++ location) = _
    rw [List.append_assoc]
    refine (Framing.reopens_plain_append hname _).trans ?_
    exact Framing.reopens_plain_append hdash location

theorem reopens_passage {chunk : RetrievedChunk} {i : Nat}
    (hname : ∀ c ∈ chunk.filename, rule.breaks c = false) (hcontent : ChunkText chunk.content) :
    rule.framing.reopens (passage chunk i) = false ↔ Unforged rule chunk := by
  have hnumber : ∀ c ∈ '[' :: ((toString i).toList ++ "] (".toList), rule.breaks c = false := by
    have hmark : ∀ c ∈ "[] (".toList, c = ' ' ∨ isSpace c = false :=
      List.forall_iff_forall_mem.mp (by decide)
    intro c hc
    obtain rfl | hc := List.mem_cons.mp hc
    · exact breaks_of_plain (hmark '[' (by decide))
    obtain hc | hc := List.mem_append.mp hc
    · exact breaks_of_plain (plain_number hc)
    · exact breaks_of_plain (hmark c (List.mem_cons_of_mem '[' hc))
  have hclose : rule.breaks ')' = false := by
    cases rule <;> decide
  have htext : rule.framing.reopens (')' :: '\n' :: chunk.content) =
      (leadingMarker chunk.content).isSome := by
    have hcontent : rule.framing.reopens chunk.content = false :=
      Framing.reopens_plain fun c hc => breaks_of_plain (hcontent.plain hc)
    rw [Framing.reopens, Framing.reopens, hcontent, breaks_newline, Bool.true_and, Bool.or_false]
    exact (congrArg (· && _ || _) hclose).trans (Bool.false_or _)
  have hreopens : rule.framing.reopens (passage chunk i) =
      ((chunk.metadata.headings.getD []).any rule.framing.reopens ||
        (leadingMarker chunk.content).isSome) := by
    rw [passage_eq, Framing.reopens_plain_append hnumber, Framing.reopens_append inert_close,
      reopens_source hname, htext]
  rw [hreopens, Bool.or_eq_false_iff, List.any_eq_false, Option.isSome_eq_false_iff,
    Option.isNone_iff_eq_none]
  constructor
  · rintro ⟨htitles, hmarker⟩
    exact ⟨hmarker, fun title htitle => by simpa using htitles title htitle⟩
  · intro h
    exact ⟨fun title htitle => by simpa using h.titles title htitle, h.content⟩

end

theorem join_concat (sep first : Str) (parts : List Str) (last : Str) :
    Str.join sep (first :: parts ++ [last]) = Str.join sep (first :: parts) ++ (sep ++ last) := by
  induction parts generalizing first with
  | nil => simp [Str.join, List.intercalate]
  | cons p parts ih =>
    have hcons (rest : List Str) :
        Str.join sep (first :: p :: rest) = first ++ sep ++ Str.join sep (p :: rest) :=
      List.intercalate_cons_cons
    rw [List.cons_append, List.cons_append, hcons, ← List.cons_append, ih, hcons]
    simp

theorem contextPart_prompt (chunks : List RetrievedChunk) (query : Str) :
    contextPart (buildUserPrompt chunks query) query = Str.join ['\n', '\n']
      ("Context passages:".toList :: (chunks.zipIdx 1).map fun x => passage x.1 x.2) := by
  have hlast : "\n\n".toList ++ ("Question: ".toList ++ query) =
      "\n\nQuestion: ".toList ++ query := rfl
  unfold contextPart buildUserPrompt
  rw [List.singleton_append, join_concat, hlast]
  exact List.rdrop_append_length

section

variable {rule : LineRule}

theorem framing_title : (rule.framing.lines "Context passages:".toList).filter rule.framing.marks =
    [] := by
  have hplain : ∀ c ∈ "Context passages:".toList, rule.breaks c = false :=
    List.forall_iff_forall_mem.mp (by cases rule <;> decide)
  rw [Framing.lines_plain hplain]
  rfl

variable {chunks : List RetrievedChunk} {query : Str}

theorem mark_passage (chunk : RetrievedChunk) (i : Nat) :
    rule.framing.mark (passage chunk i) = some (toString i).toList := by
  rw [framing_mark]
  exact leadingMarker_passage chunk i

theorem marks_passages : ∀ p ∈ (chunks.zipIdx 1).map fun x => passage x.1 x.2,
    rule.framing.marks p = true := by
  intro p hp
  obtain ⟨x, -, rfl⟩ := List.mem_map.mp hp
  rw [Framing.marks, mark_passage]
  rfl

theorem unforged_iff (hname : ∀ chunk ∈ chunks, ∀ c ∈ chunk.filename, rule.breaks c = false)
    (hcontent : ∀ chunk ∈ chunks, ChunkText chunk.content) :
    (∀ p ∈ (chunks.zipIdx 1).map fun x => passage x.1 x.2, rule.framing.reopens p = false) ↔
      ∀ chunk ∈ chunks, Unforged rule chunk := by
  have hpassage (chunk : RetrievedChunk) (hchunk : chunk ∈ chunks) (i : Nat) :=
    reopens_passage (i := i) (hname chunk hchunk) (hcontent chunk hchunk)
  rw [List.forall_mem_map]
  constructor
  · intro h chunk hchunk
    rw [← List.zipIdx_map_fst 1 chunks] at hchunk
    obtain ⟨x, hx, rfl⟩ := List.mem_map.mp hchunk
    exact (hpassage x.1 (List.fst_mem_of_mem_zipIdx hx) x.2).mp (h x hx)
  · intro h x hx
    have hchunk := List.fst_mem_of_mem_zipIdx hx
    exact (hpassage x.1 hchunk x.2).mpr (h x.1 hchunk)

theorem contextLines_eq : contextLines rule chunks query =
    rule.framing.lines (Str.join ['\n', '\n']
      ("Context passages:".toList :: (chunks.zipIdx 1).map fun x => passage x.1 x.2)) :=
  congrArg rule.framing.lines (contextPart_prompt chunks query)

theorem headers_iff (hname : ∀ chunk ∈ chunks, ∀ c ∈ chunk.filename, rule.breaks c = false)
    (hcontent : ∀ chunk ∈ chunks, ChunkText chunk.content) :
    (contextLines rule chunks query).filter rule.framing.marks =
        (chunks.zipIdx 1).map (fun x => rule.framing.header (passage x.1 x.2)) ↔
      ∀ chunk ∈ chunks, Unforged rule chunk := by
  have hjoin := Framing.filter_join_iff breaks_newline framing_title (@marks_passages rule chunks)
  rw [List.map_map] at hjoin
  rw [contextLines_eq, ← unforged_iff hname hcontent]
  exact hjoin

theorem markers_of_headers (h : (contextLines rule chunks query).filter rule.framing.marks =
      (chunks.zipIdx 1).map fun x => rule.framing.header (passage x.1 x.2)) :
    (contextLines rule chunks query).filterMap leadingMarker =
      (List.range' 1 chunks.length).map fun i => (toString i).toList := by
  have hmark (x : RetrievedChunk × Nat) :
      leadingMarker (rule.framing.header (passage x.1 x.2)) = some (toString x.2).toList := by
    rw [← framing_mark, Framing.mark_header, mark_passage]
  refine (Framing.filterMap_mark (F := rule.framing) _).trans ?_
  rw [h, List.filterMap_map, ← List.zipIdx_map_snd 1 chunks, List.map_map]
  exact List.filterMap_eq_map_iff_forall_eq_some.mpr fun x _ => hmark x

end

/-- Only a chunk that begins with a marker, or a title that has one after a line break, adds to the
numbers of the passages. -/
theorem prompt_numbered_iff (rule : LineRule) (chunks : List RetrievedChunk) (query : Str)
    (hname : ∀ chunk ∈ chunks, ∀ c ∈ chunk.filename, rule.breaks c = false)
    (hcontent : ∀ chunk ∈ chunks, ChunkText chunk.content) :
    Numbered rule chunks query ↔ ∀ chunk ∈ chunks, Unforged rule chunk := by
  have hheaders := @headers_iff rule chunks query hname hcontent
  refine ⟨fun h => hheaders.mp h.headers, fun h => ⟨hheaders.mpr h, ?_, ?_⟩⟩
  · exact markers_of_headers (hheaders.mpr h)
  · have hread := Framing.read_join breaks_newline framing_title marks_passages
      ((unforged_iff hname hcontent).mpr h)
    rw [List.forall₂_map_right_iff] at hread
    rw [contextLines_eq]
    exact hread

namespace Sample

def mention : RetrievedChunk where
  chunkId := 1
  documentId := ⟨7⟩
  filename := "s.pdf".toList
  chunkIndex := 0
  content := "See [2] S.".toList
  metadata := { pageStart := some 3, pageEnd := some 3, headings := none }
  scores := []

end Sample

theorem mentions_numbered :
    Numbered .splitlines [Sample.mention, Sample.mention] "Who wrote it?".toList := by
  have hall {P : RetrievedChunk → Prop} (h : P Sample.mention) :
      ∀ chunk ∈ [Sample.mention, Sample.mention], P chunk := by
    simpa using h
  have hname : ∀ c ∈ Sample.mention.filename, LineRule.splitlines.breaks c = false :=
    List.forall_iff_forall_mem.mp (by decide)
  have hchunks : chunkBlocks [⟨"See\n[2]  S.".toList, { page := some 3 }⟩] 400 60 =
      .ok [⟨Sample.mention.content, 4, { pageStart := some 3, pageEnd := some 3 }⟩] := by
    decide +kernel
  have hcontent : ChunkText Sample.mention.content :=
    ⟨_, _, _, _, hchunks, List.mem_singleton_self _⟩
  have hunforged : Unforged .splitlines Sample.mention :=
    ⟨by decide, List.forall_mem_nil _⟩
  exact (prompt_numbered_iff .splitlines [Sample.mention, Sample.mention] _ (hall hname)
    (hall hcontent)).mpr (hall hunforged)

theorem reopens_getText (rule : LineRule) (children : List Html) :
    rule.framing.reopens (getText children) =
      (Html.stringsAll children).any fun s => rule.framing.reopens (Str.strip s) := by
  have hblank : ∀ c ∈ [' '], rule.breaks c = false :=
    List.forall_iff_forall_mem.mp (by cases rule <;> decide)
  rw [getText, Framing.reopens_join inert_blank hblank, List.any_filter, List.any_map]
  congr 1
  funext s
  cases hs : Str.strip s with
  | nil => simp [hs, Framing.reopens]
  | cons c t => simp [hs]

/-- Between its blank lines, `str.splitlines` is a split at every line break. -/
theorem filter_splitlinesFrom (s : Str) {line : Str} (hline : ∀ c ∈ line, isLineBreak c = false) :
    (Str.splitlinesFrom s line).filter (· ≠ []) =
      ((line.reverse ++ s).splitOnP isLineBreak).filter (· ≠ []) := by
  have hplain {line : Str} (h : ∀ c ∈ line, isLineBreak c = false) :
      line.reverse.splitOnP isLineBreak = [line.reverse] :=
    List.splitOnP_eq_singleton fun c hc => h c (List.mem_reverse.mp hc)
  induction s, line using Str.splitlinesFrom.induct with
  | case1 => rfl
  | case2 line hne => rw [Str.splitlinesFrom.eq_2 line hne, List.append_nil, hplain hline]
  | case3 s line ih =>
    have hreturn : isLineBreak '\r' = true := by decide
    have hfeed : isLineBreak '\n' = true := by decide
    have hrest : ('\n' :: s).splitOnP isLineBreak = [] :: s.splitOnP isLineBreak :=
      List.splitOnP_append_cons [] s hfeed
    rw [Str.splitlinesFrom, List.splitOnP_append_cons _ _ hreturn, hplain hline, hrest,
      List.filter_cons, ih (by simp)]
    simp [List.filter_cons]
  | case4 c s line hcrlf hc ih =>
    rw [Str.splitlinesFrom.eq_4 _ _ _ hcrlf, if_pos hc, List.splitOnP_append_cons _ _ hc,
      hplain hline, List.filter_cons, ih (by simp)]
    simp [List.filter_cons]
  | case5 c s line hcrlf hc ih =>
    rw [Str.splitlinesFrom.eq_4 _ _ _ hcrlf, if_neg hc,
      ih (List.forall_mem_cons.mpr ⟨Bool.eq_false_iff.mpr hc, hline⟩)]
    simp

theorem mem_splitlines {s l : Str} (hl : l ∈ Str.splitlines s) : ∀ c ∈ l, isLineBreak c = false := by
  intro c hc
  have hmem : l ∈ (Str.splitlines s).filter (· ≠ []) :=
    List.mem_filter.mpr ⟨hl, decide_eq_true (List.ne_nil_of_mem hc)⟩
  rw [Str.splitlines, filter_splitlinesFrom s (by simp)] at hmem
  exact Str.not_mem_splitOnP (List.mem_filter.mp hmem).1 c hc

theorem mem_of_mem_title {line : Str} {h : Nat × Str} {c : Char}
    (hline : matchHeading line = some h) (hc : c ∈ h.2) : c ∈ line := by
  obtain ⟨hashes, spaces, body, rfl, hhashes, hlevel, hspaces, hne, hbody⟩ :=
    parts_of_matchHeading hline
  rw [matchHeading_append hhashes hlevel hspaces hne hbody] at hline
  refine List.mem_append_right _ (List.mem_append_right _ ?_)
  split at hline
  · next hnil =>
    split at hline
    · cases hline
    · rw [← Option.some.inj hline] at hc
      cases hc
  · obtain ⟨rest, hsplit, -⟩ := exists_lazyTitle body
    rw [← Option.some.inj hline] at hc
    have hlazy : c ∈ lazyTitle body :=
      (List.dropWhile_suffix isSpace).subset ((Str.strip_isPrefix _).subset hc)
    rw [hsplit]
    exact List.mem_append_left rest hlazy

theorem reopens_markdown (rule : LineRule) {raw : Bytes} {blocks : List Block} {b : Block}
    {title : Str} (h : parseMarkdown raw = .ok blocks) (hb : b ∈ blocks)
    (htitle : title ∈ b.metadata.headings.getD []) : rule.framing.reopens title = false := by
  obtain ⟨text, -, rfl⟩ := parseMarkdown_blocks h
  have hplain : ∀ b ∈ sectionBlocks (markdownSections (Str.splitlines text)),
      ∀ title ∈ b.metadata.headings.getD [], ∀ c ∈ title, isLineBreak c = false := by
    refine forall_titles_iff.mpr fun heading h line hopen _ c hc => ?_
    have hmem : heading ∈ Str.splitlines text := by
      obtain ⟨pre, mid, post, hlines, -⟩ := hopen
      rw [← map_fst_recognised (Str.splitlines text), hlines]
      simp
    exact mem_splitlines hmem c (mem_of_mem_title hopen.matchHeading hc)
  refine Framing.reopens_plain fun c hc => Bool.eq_false_iff.mpr fun hbreak => ?_
  exact absurd (LineRule.lineBreak hbreak) (Bool.eq_false_iff.mp (hplain b hb title htitle c hc))

/-- A chunk of some file that has been ingested. -/
def Ingested (chunk : RetrievedChunk) : Prop :=
  ∃ ext raw source blocks target overlap drafts d, parseDocument ext raw source = .ok blocks ∧
    chunkBlocks blocks target overlap = .ok drafts ∧ d ∈ drafts ∧ chunk.content = d.text ∧
    chunk.metadata = d.metadata

namespace Sample

/-- `# R`, and under it `[2] S.`. -/
def references : Bytes := [35, 32, 82, 10, 91, 50, 93, 32, 83, 46]

def referencesBlocks : List Block := [⟨"[2] S.".toList, { headings := some ["R".toList] }⟩]

def reference : RetrievedChunk where
  chunkId := 1
  documentId := ⟨7⟩
  filename := "refs.md".toList
  chunkIndex := 0
  content := "[2] S.".toList
  metadata := { pageStart := none, pageEnd := none, headings := some ["R".toList] }
  scores := []

end Sample

theorem reference_ingested : Ingested Sample.reference := by
  have htext : utf8Decode Sample.references = some "# R\n[2] S.".toList := by decide
  have hblocks : sectionBlocks (markdownSections (Str.splitlines "# R\n[2] S.".toList)) =
      Sample.referencesBlocks := by
    decide
  have hparse : parseDocument Sample.pageExt Sample.references .markdown =
      .ok Sample.referencesBlocks := by
    rw [parseDocument, parseMarkdown_eq htext, hblocks]
    exact if_neg (List.cons_ne_nil _ _)
  have hchunks : chunkBlocks Sample.referencesBlocks 400 60 =
      .ok [⟨Sample.reference.content, 3, Sample.reference.metadata⟩] := by
    decide +kernel
  exact ⟨_, _, _, _, _, _, _, _, hparse, hchunks, List.mem_singleton_self _, rfl, rfl⟩

theorem Ingested.chunkText {chunk : RetrievedChunk} (h : Ingested chunk) :
    ChunkText chunk.content := by
  obtain ⟨ext, raw, source, blocks, target, overlap, drafts, d, -, hchunks, hd, hcontent, -⟩ := h
  exact ⟨blocks, target, overlap, drafts, hchunks, List.mem_map.mpr ⟨d, hd, hcontent.symm⟩⟩

/-- The first of the references adds a second passage to the prompt. -/
theorem reference_numbers_itself : ¬∀ rule chunks query, (∀ chunk ∈ chunks, Ingested chunk ∧
    ∀ c ∈ chunk.filename, rule.breaks c = false) → Numbered rule chunks query := by
  intro hall
  have hname (rule : LineRule) : ∀ c ∈ Sample.reference.filename, rule.breaks c = false :=
    List.forall_iff_forall_mem.mp (by cases rule <;> decide)
  have hchunk : ∀ chunk ∈ [Sample.reference], Ingested chunk ∧
      ∀ c ∈ chunk.filename, LineRule.multiline.breaks c = false := by
    intro chunk hmem
    rw [List.mem_singleton.mp hmem]
    exact ⟨reference_ingested, hname .multiline⟩
  have hnumbered := hall .multiline [Sample.reference] "Who?".toList hchunk
  have hunforged := (headers_iff (fun chunk h => (hchunk chunk h).2)
    fun chunk h => (hchunk chunk h).1.chunkText).mp hnumbered.headers
  have hmarker : leadingMarker Sample.reference.content = some ['2'] := by decide
  exact Option.some_ne_none _
    (hmarker.symm.trans (hunforged _ (List.mem_singleton_self _)).content)

end RagPlatform
