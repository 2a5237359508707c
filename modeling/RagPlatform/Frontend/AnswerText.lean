import RagPlatform.Services.Markers

/-! The text of an answer on the page, with its markers set as superscripts. -/

namespace RagPlatform

open Lib

/-- The class `\d` of a JavaScript pattern. -/
def isJsDigit (c : Char) : Bool := '0'.toNat ≤ c.toNat && c.toNat ≤ '9'.toNat

/-- `\[(\d+)\]` at the beginning: the digits, and the text behind the bracket. -/
def matchMarker : Str → Option (Str × Str)
  | '[' :: s =>
    match s.takeWhile isJsDigit, s.dropWhile isJsDigit with
    | d :: digits, ']' :: rest => some (d :: digits, rest)
    | _, _ => none
  | _ => none

/-- The first match: the text before it, the digits, and the text behind it. -/
def cutMarker : Str → Option (Str × Str × Str)
  | [] => none
  | c :: s =>
    match matchMarker (c :: s) with
    | some (digits, rest) => some ([], digits, rest)
    | none => (cutMarker s).map fun cut => (c :: cut.1, cut.2)

/-- The rounds of `text.split(/(\[\d+\])/g)`; each shortens the text. -/
def markersFrom : Nat → Str → List Str
  | 0, text => [text]
  | fuel + 1, text =>
    match cutMarker text with
    | none => [text]
    | some (before, digits, rest) => before :: ('[' :: digits ++ [']']) :: markersFrom fuel rest

def splitMarkers (text : Str) : List Str := markersFrom text.length text

inductive Piece
  | sup (digits : Str)
  | span (s : Str)
  deriving DecidableEq

/-- A part that is `[digits]` as a whole goes up. -/
def pieceOf (part : Str) : Piece :=
  match matchMarker part with
  | some (digits, []) => .sup digits
  | _ => .span part

def answerText (text : Str) : List Piece := (splitMarkers text).map pieceOf

def Piece.shown : Piece → Str
  | .sup digits => '[' :: digits ++ [']']
  | .span s => s

def JsMarked (text digits : Str) : Prop :=
  (∃ pre post, text = pre ++ '[' :: (digits ++ ']' :: post)) ∧ digits ≠ [] ∧
    ∀ c ∈ digits, isJsDigit c = true

section

variable {s t text digits rest before : Str}

theorem matchMarker_eq_some : matchMarker s = some (digits, rest) ↔
    s = '[' :: (digits ++ ']' :: rest) ∧ digits ≠ [] ∧ ∀ c ∈ digits, isJsDigit c = true := by
  constructor
  · intro h
    unfold matchMarker at h
    split at h
    · next s =>
      split at h
      · next d ds rest' htake hdrop =>
        obtain ⟨rfl, rfl⟩ := Prod.mk.inj (Option.some.inj h)
        refine ⟨?_, List.cons_ne_nil _ _, fun c hc => ?_⟩
        · rw [← htake, ← hdrop, List.takeWhile_append_dropWhile]
        · rw [← htake] at hc
          exact List.mem_takeWhile_imp hc
      · cases h
    · cases h
  · rintro ⟨rfl, hne, hdigits⟩
    have htake : (digits ++ ']' :: rest).takeWhile isJsDigit = digits := by
      rw [List.takeWhile_append_of_pos hdigits, List.takeWhile_cons_of_neg (by decide),
        List.append_nil]
    have hdrop : (digits ++ ']' :: rest).dropWhile isJsDigit = ']' :: rest := by
      rw [List.dropWhile_append_of_pos hdigits, List.dropWhile_cons_of_neg (by decide)]
    obtain ⟨d, ds, rfl⟩ := List.exists_cons_of_ne_nil hne
    simp only [matchMarker, htake, hdrop]

theorem matchMarker_append (h : matchMarker s = some (digits, rest)) (t : Str) :
    matchMarker (s ++ t) = some (digits, rest ++ t) := by
  obtain ⟨rfl, hne, hdigits⟩ := matchMarker_eq_some.mp h
  exact matchMarker_eq_some.mpr ⟨by simp, hne, hdigits⟩

theorem jsMarked_cons {c : Char} : JsMarked (c :: s) digits ↔
    (∃ rest, matchMarker (c :: s) = some (digits, rest)) ∨ JsMarked s digits := by
  constructor
  · rintro ⟨⟨pre, post, h⟩, hne, hdigits⟩
    cases pre with
    | nil => exact .inl ⟨post, matchMarker_eq_some.mpr ⟨h, hne, hdigits⟩⟩
    | cons b pre =>
      obtain ⟨rfl, rfl⟩ := List.cons.inj h
      exact .inr ⟨⟨pre, post, rfl⟩, hne, hdigits⟩
  · rintro (⟨rest, h⟩ | ⟨⟨pre, post, rfl⟩, hne, hdigits⟩)
    · obtain ⟨h, hne, hdigits⟩ := matchMarker_eq_some.mp h
      exact ⟨⟨[], rest, h⟩, hne, hdigits⟩
    · exact ⟨⟨c :: pre, post, rfl⟩, hne, hdigits⟩

theorem not_jsMarked_nil : ¬ JsMarked [] digits := by
  rintro ⟨⟨pre, post, h⟩, -⟩
  simp at h

theorem jsMarked_skip (h : '[' ∉ s) : JsMarked (s ++ t) digits ↔ JsMarked t digits := by
  induction s with
  | nil => rfl
  | cons c s ih =>
    rw [List.mem_cons, not_or] at h
    rw [List.cons_append, jsMarked_cons, ih h.2]
    refine or_iff_right ?_
    rintro ⟨rest, hmatch⟩
    exact h.1 (List.cons.inj (matchMarker_eq_some.mp hmatch).1).1.symm

theorem cutMarker_eq_none (h : cutMarker text = none) : ¬ JsMarked text digits := by
  induction text with
  | nil => exact not_jsMarked_nil
  | cons c s ih =>
    unfold cutMarker at h
    split at h
    · cases h
    · next hmatch =>
      rw [jsMarked_cons, hmatch, not_or]
      refine ⟨?_, ih (Option.map_eq_none_iff.mp h)⟩
      rintro ⟨_, he⟩
      cases he

theorem cutMarker_eq_some (h : cutMarker text = some (before, digits, rest)) :
    text = before ++ '[' :: (digits ++ ']' :: rest) ∧
      (digits ≠ [] ∧ ∀ c ∈ digits, isJsDigit c = true) ∧
      (∀ d, ¬ JsMarked before d) ∧ ∀ d, JsMarked text d ↔ d = digits ∨ JsMarked rest d := by
  induction text generalizing before with
  | nil => cases h
  | cons c s ih =>
    unfold cutMarker at h
    split at h
    · next digits' rest' hmatch =>
      obtain ⟨rfl, hcut⟩ := Prod.mk.inj (Option.some.inj h)
      obtain ⟨rfl, rfl⟩ := Prod.mk.inj hcut
      obtain ⟨htext, hne, hdigits⟩ := matchMarker_eq_some.mp hmatch
      refine ⟨htext, ⟨hne, hdigits⟩, fun d => not_jsMarked_nil, fun d => ?_⟩
      have hs : s = (digits' ++ [']']) ++ rest' := by
        rw [(List.cons.inj htext).2, List.append_assoc]
        rfl
      have hopen : '[' ∉ digits' ++ [']'] := by
        rw [List.mem_append, List.mem_singleton]
        rintro (hmem | hmem)
        · exact absurd (hdigits _ hmem) (by decide)
        · exact absurd hmem (by decide)
      rw [jsMarked_cons, hs, jsMarked_skip hopen, ← hs, hmatch]
      refine or_congr_left ⟨?_, ?_⟩
      · rintro ⟨rest, he⟩
        exact (Prod.mk.inj (Option.some.inj he)).1.symm
      · rintro rfl
        exact ⟨rest', rfl⟩
    · next hmatch =>
      obtain ⟨⟨before', cut⟩, hcut, he⟩ := Option.map_eq_some_iff.mp h
      obtain ⟨rfl, rfl⟩ := Prod.mk.inj he
      obtain ⟨rfl, hdigits, hbefore, hmarked⟩ := ih hcut
      refine ⟨rfl, hdigits, fun d => ?_, fun d => ?_⟩
      · rw [jsMarked_cons, not_or]
        refine ⟨fun ⟨rest', he⟩ => ?_, hbefore d⟩
        have hlater := matchMarker_append he ('[' :: (digits ++ ']' :: rest))
        rw [List.cons_append, hmatch] at hlater
        cases hlater
      · rw [jsMarked_cons, hmatch, hmarked]
        exact or_iff_right fun ⟨_, he⟩ => by cases he

theorem pieceOf_unmarked (h : ∀ d, ¬ JsMarked s d) : pieceOf s = .span s := by
  cases hm : matchMarker s with
  | none => simp [pieceOf, hm]
  | some m =>
    obtain ⟨hs, hne, hdigits⟩ := matchMarker_eq_some.mp hm
    exact absurd ⟨⟨[], m.2, hs⟩, hne, hdigits⟩ (h m.1)

theorem pieceOf_marker (h : digits ≠ [] ∧ ∀ c ∈ digits, isJsDigit c = true) :
    pieceOf ('[' :: digits ++ [']']) = .sup digits := by
  have hm : matchMarker ('[' :: digits ++ [']']) = some (digits, []) :=
    matchMarker_eq_some.mpr ⟨rfl, h⟩
  simp only [pieceOf, hm]

theorem markersFrom_pieces {fuel : Nat} (hfuel : text.length ≤ fuel) :
    ((markersFrom fuel text).map pieceOf).flatMap Piece.shown = text ∧
      (∀ d, .sup d ∈ (markersFrom fuel text).map pieceOf ↔ JsMarked text d) ∧
        ∀ s, .span s ∈ (markersFrom fuel text).map pieceOf → ∀ d, ¬ JsMarked s d := by
  induction fuel generalizing text with
  | zero =>
    obtain rfl := List.eq_nil_of_length_eq_zero (Nat.le_zero.mp hfuel)
    refine ⟨rfl, fun d => iff_of_false (fun h => ?_) not_jsMarked_nil, fun s hs d => ?_⟩
    · cases List.mem_singleton.mp h
    · cases List.mem_singleton.mp hs
      exact not_jsMarked_nil
  | succ fuel ih =>
    rw [markersFrom]
    cases hcut : cutMarker text with
    | none =>
      have hnone (d : Str) : ¬ JsMarked text d := cutMarker_eq_none hcut
      simp only [List.map_cons, List.map_nil, pieceOf_unmarked hnone]
      refine ⟨by simp [Piece.shown], fun d => iff_of_false (fun h => ?_) (hnone d),
        fun s hs d => ?_⟩
      · cases List.mem_singleton.mp h
      · cases List.mem_singleton.mp hs
        exact hnone d
    | some cut =>
      obtain ⟨before, digits, rest⟩ := cut
      obtain ⟨htext, hdigits, hbefore, hmarked⟩ := cutMarker_eq_some hcut
      have hlength : rest.length ≤ fuel := by
        rw [htext] at hfuel
        simp at hfuel
        omega
      obtain ⟨hshown, hsup, hspan⟩ := ih hlength
      simp only [List.map_cons, pieceOf_unmarked hbefore, pieceOf_marker hdigits]
      refine ⟨?_, fun d => ?_, fun s hs => ?_⟩
      · rw [List.flatMap_cons, List.flatMap_cons, hshown, htext]
        simp [Piece.shown]
      · rw [hmarked, ← hsup]
        simp
      · simp only [List.mem_cons, Piece.span.injEq, reduceCtorEq, false_or] at hs
        rcases hs with rfl | hs
        · exact hbefore
        · exact hspan s hs

theorem isSome_decimal {c : Char} (h : isJsDigit c = true) : (decimal c).isSome := by
  simp only [isJsDigit, Bool.and_eq_true, decide_eq_true_eq, Char.reduceToNat] at h
  have hfind : (decimalZeros.find? fun z => z ≤ c.toNat ∧ c.toNat < z + 10).isSome := by
    refine List.find?_isSome.mpr ⟨0x30, List.mem_cons_self, ?_⟩
    rw [decide_eq_true_iff]
    omega
  rwa [decimal, Option.isSome_map]

theorem jsMarked_iff : JsMarked text digits ↔
    Marked text digits ∧ ∀ c ∈ digits, isJsDigit c = true :=
  ⟨fun ⟨htext, hne, hdigits⟩ =>
      ⟨⟨htext, hne, fun c hc => isSome_decimal (hdigits c hc)⟩, hdigits⟩,
    fun ⟨⟨htext, hne, _⟩, hdigits⟩ => ⟨htext, hne, hdigits⟩⟩

theorem answerText_pieces (text : Str) : (answerText text).flatMap Piece.shown = text ∧
    (∀ d, .sup d ∈ answerText text ↔ JsMarked text d) ∧
      ∀ s, .span s ∈ answerText text → ∀ d, ¬ JsMarked s d :=
  markersFrom_pieces (Nat.le_refl text.length)

end

/-- Nothing of an answer is lost on the page, each superscript that a passage can answer has its
source listed below, and a source without a superscript was cited in another script. -/
theorem superscripts_listed (chunks : List RetrievedChunk) (query text : Str)
    (hreadable : Readable text) :
    (answerText text).flatMap Piece.shown = text ∧
      (∀ s, .span s ∈ answerText text → answerText s = [.span s]) ∧
      ∃ cited, citedOnly text (prepared chunks query).citations = .ok cited ∧
        (∀ digits, .sup digits ∈ answerText text →
          ((∃ c ∈ cited, c.marker = number digits) ↔
            1 ≤ number digits ∧ number digits ≤ chunks.length)) ∧
        ∀ c ∈ cited, (∃ digits, .sup digits ∈ answerText text ∧ number digits = c.marker) ∨
          ∃ digits, Marked text digits ∧ number digits = c.marker ∧
            ∃ d ∈ digits, isJsDigit d = false := by
  obtain ⟨hshown, hsup, hspan⟩ := answerText_pieces text
  obtain ⟨cited, hcited, -, hmarkers, -⟩ := citedOnly_prepared chunks query hreadable
  refine ⟨hshown, fun s hs => ?_, cited, hcited, fun digits hd => ?_, fun c hc => ?_⟩
  · have hcut : cutMarker s = none := by
      cases h : cutMarker s with
      | none => rfl
      | some cut =>
        have hmarked := (cutMarker_eq_some h).2.2.2 cut.2.1
        exact absurd (hmarked.mpr (.inl rfl)) (hspan s hs _)
    have hsplit : splitMarkers s = [s] := by
      unfold splitMarkers markersFrom
      split
      · rfl
      · rw [hcut]
    rw [answerText, hsplit, List.map_singleton, pieceOf_unmarked (hspan s hs)]
  · have hmarked := (jsMarked_iff.mp ((hsup digits).mp hd)).1
    have hlisted := hmarkers (number digits)
    rw [List.mem_map] at hlisted
    exact hlisted.trans (and_iff_left ⟨digits, hmarked, rfl⟩)
  · obtain ⟨-, digits, hmarked, hnumber⟩ := (hmarkers c.marker).mp (List.mem_map_of_mem hc)
    by_cases hascii : ∀ d ∈ digits, isJsDigit d = true
    · exact .inl ⟨digits, (hsup digits).mpr (jsMarked_iff.mpr ⟨hmarked, hascii⟩), hnumber⟩
    · push Not at hascii
      obtain ⟨d, hd, hother⟩ := hascii
      exact .inr ⟨digits, hmarked, hnumber, d, hd, Bool.eq_false_iff.mpr hother⟩

namespace Sample

def ports : List RetrievedChunk :=
  [⟨1, ⟨7⟩, "ports.md".toList, 0, "Basra.".toList, {}, []⟩,
    ⟨2, ⟨7⟩, "ports.md".toList, 1, "Aden.".toList, {}, []⟩]

/-- The second passage is cited in Arabic digits, and there is no seventh. -/
def harbours : Str := "Basra [1], Aden [\u0662], Muscat [7].".toList

theorem readable_harbours : Readable harbours := by
  have h : ∀ m ∈ findMarkers none harbours, m.length ≤ 4300 := by decide +kernel
  exact fun digits hd => h digits (mem_markers.mpr hd)

end Sample

theorem superscripts_listed_harbours : (answerText Sample.harbours).flatMap Piece.shown =
      Sample.harbours ∧ answerText Sample.harbours =
        [.span "Basra ".toList, .sup ['1'], .span ", Aden [\u0662], Muscat ".toList, .sup ['7'],
          .span ['.']] ∧
    ∃ cited, citedOnly Sample.harbours (prepared Sample.ports []).citations = .ok cited ∧
      ((∃ c ∈ cited, c.marker = 1) ∧ ¬ ∃ c ∈ cited, c.marker = 7) := by
  have hpieces : answerText Sample.harbours =
      [.span "Basra ".toList, .sup ['1'], .span ", Aden [\u0662], Muscat ".toList, .sup ['7'],
        .span ['.']] := by
    decide +kernel
  obtain ⟨hshown, -, cited, hcited, hsup, -⟩ :=
    superscripts_listed Sample.ports [] Sample.harbours Sample.readable_harbours
  refine ⟨hshown, hpieces, cited, hcited, ?_, ?_⟩
  · exact (hsup ['1'] (by rw [hpieces]; decide +kernel)).mpr (by decide +kernel)
  · exact fun h => absurd ((hsup ['7'] (by rw [hpieces]; decide +kernel)).mp h) (by decide +kernel)

end RagPlatform
