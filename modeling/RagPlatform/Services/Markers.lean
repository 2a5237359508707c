import Mathlib.Data.List.Dedup
import Mathlib.Data.List.Sort
import RagPlatform.Services.Answering

/-! Which markers a text has, and which citations answer them. -/

namespace RagPlatform

open Lib

/-- The text has `[digits]` somewhere. -/
def Marked (text digits : Str) : Prop :=
  (∃ pre post, text = pre ++ '[' :: (digits ++ ']' :: post)) ∧ digits ≠ [] ∧
    ∀ c ∈ digits, (decimal c).isSome

def number (digits : Str) : Nat := digits.foldl (fun n c => 10 * n + (decimal c).getD 0) 0

/-- The text goes on with the rest of a marker and its closing bracket. -/
def Closes (seen text digits : Str) : Prop :=
  (∃ rest post, text = rest ++ ']' :: post ∧ digits = seen ++ rest ∧
    ∀ c ∈ rest, (decimal c).isSome) ∧ digits ≠ []

theorem decimal_open : decimal '[' = none := by decide

theorem decimal_close : decimal ']' = none := by decide

theorem closes_nil (seen digits : Str) : ¬ Closes seen [] digits := by
  rintro ⟨⟨rest, post, h, -⟩, -⟩
  simp at h

theorem closes_cons {seen digits s : Str} {c : Char} : Closes seen (c :: s) digits ↔
    c = ']' ∧ digits = seen ∧ digits ≠ [] ∨
      (decimal c).isSome ∧ Closes (seen ++ [c]) s digits := by
  constructor
  · rintro ⟨⟨rest, post, h, hd, hrest⟩, hne⟩
    cases rest with
    | nil =>
      obtain ⟨rfl, -⟩ := List.cons.inj h
      exact .inl ⟨rfl, by simpa using hd, hne⟩
    | cons b rest =>
      obtain ⟨rfl, rfl⟩ := List.cons.inj h
      rw [List.forall_mem_cons] at hrest
      exact .inr ⟨hrest.1, ⟨rest, post, rfl, by simpa using hd, hrest.2⟩, hne⟩
  · rintro (⟨rfl, rfl, hne⟩ | ⟨hc, ⟨rest, post, rfl, rfl, hrest⟩, hne⟩)
    · exact ⟨⟨[], s, rfl, by simp, by simp⟩, hne⟩
    · exact ⟨⟨c :: rest, post, rfl, by simp, List.forall_mem_cons.mpr ⟨hc, hrest⟩⟩, hne⟩

theorem marked_nil (digits : Str) : ¬ Marked [] digits := by
  rintro ⟨⟨pre, post, h⟩, -⟩
  simp at h

theorem marked_cons {digits s : Str} {c : Char} :
    Marked (c :: s) digits ↔ c = '[' ∧ Closes [] s digits ∨ Marked s digits := by
  constructor
  · rintro ⟨⟨pre, post, h⟩, hne, hd⟩
    cases pre with
    | nil =>
      obtain ⟨rfl, rfl⟩ := List.cons.inj h
      exact .inl ⟨rfl, ⟨digits, post, rfl, rfl, hd⟩, hne⟩
    | cons b pre =>
      obtain ⟨rfl, rfl⟩ := List.cons.inj h
      exact .inr ⟨⟨pre, post, rfl⟩, hne, hd⟩
  · rintro (⟨rfl, ⟨rest, post, rfl, rfl, hd⟩, hne⟩ | ⟨⟨pre, post, rfl⟩, hne, hd⟩)
    · exact ⟨⟨[], post, rfl⟩, hne, hd⟩
    · exact ⟨⟨c :: pre, post, rfl⟩, hne, hd⟩

theorem mem_findMarkers {pending : Option Str} {text digits : Str} :
    digits ∈ findMarkers pending text ↔
      (∃ seen, pending = some seen ∧ Closes seen text digits) ∨ Marked text digits := by
  induction text generalizing pending with
  | nil => simp [findMarkers, closes_nil, marked_nil]
  | cons c s ih =>
    rw [marked_cons]
    by_cases hopen : c = '['
    · subst hopen
      simp [findMarkers, ih, closes_cons, decimal_open]
    · cases pending with
      | none => simp [findMarkers, hopen, ih]
      | some seen =>
        cases hdec : (decimal c).isSome with
        | true =>
          have hclose : c ≠ ']' := by
            rintro rfl
            simp [decimal_close] at hdec
          simp [findMarkers, hopen, hdec, ih, closes_cons, hclose]
        | false =>
          by_cases hclose : c = ']' ∧ seen ≠ []
          · obtain ⟨rfl, hseen⟩ := hclose
            simp only [findMarkers, hopen, hdec, hseen, if_false, Bool.false_eq_true, ne_eq,
              not_false_eq_true, and_self, if_true, List.mem_cons, ih, closes_cons, false_and,
              or_false, reduceCtorEq, false_and, exists_false, false_or, true_and]
            grind
          · simp only [findMarkers, hopen, hdec, hclose, if_false, Bool.false_eq_true, ih,
              closes_cons, false_and, or_false, false_or, reduceCtorEq, exists_false]
            grind

theorem mem_markers {text digits : Str} : digits ∈ findMarkers none text ↔ Marked text digits := by
  simp [mem_findMarkers]

/-- Every run of digits in brackets is within the limit of `int`. -/
def Readable (text : Str) : Prop := ∀ digits, Marked text digits → digits.length ≤ 4300

theorem markerValue_ok {digits : Str} (h : digits.length ≤ 4300) :
    markerValue digits = .ok (number digits) := if_neg (Nat.not_lt.mpr h)

theorem markerValue_error {digits : Str} (h : 4300 < digits.length) :
    markerValue digits = .error .value := if_pos h

theorem mapM_markerValue {ms : List Str} (h : ∀ m ∈ ms, m.length ≤ 4300) :
    ms.mapM markerValue = .ok (ms.map number) := by
  induction ms with
  | nil => rfl
  | cons m ms ih =>
    rw [List.forall_mem_cons] at h
    rw [List.mapM_cons, markerValue_ok h.1, ih h.2]
    rfl

theorem mapM_markerValue_error {ms : List Str} (h : ∃ m ∈ ms, 4300 < m.length) :
    ms.mapM markerValue = .error .value := by
  induction ms with
  | nil => simp at h
  | cons m ms ih =>
    rw [List.mapM_cons]
    by_cases hm : 4300 < m.length
    · rw [markerValue_error hm]
      rfl
    · rw [markerValue_ok (Nat.not_lt.mp hm), ih (by simpa [hm] using h)]
      rfl

theorem citedOnly_ok {text : Str} (citations : List Citation) (h : Readable text) :
    ∃ cited, citedOnly text citations = .ok cited := by
  have hread : ∀ m ∈ findMarkers none text, m.length ≤ 4300 := fun m hm => h m (mem_markers.mp hm)
  unfold citedOnly
  rw [mapM_markerValue hread]
  exact ⟨_, rfl⟩

theorem citedOnly_error {text : Str} (citations : List Citation) (h : ¬ Readable text) :
    citedOnly text citations = .error .value := by
  have hlong : ∃ m ∈ findMarkers none text, 4300 < m.length := by
    simpa [Readable, mem_markers] using h
  unfold citedOnly
  rw [mapM_markerValue_error hlong]
  rfl

theorem get?_available (chunks : List RetrievedChunk) (k m : Nat) (d : Dict Nat Citation) :
    Dict.get? (((chunks.zipIdx k).map fun x => citation x.1 x.2).foldl
        (fun d c => d.set c.marker c) d) m =
      ((if k ≤ m then chunks[m - k]? else none).map (citation · m)).or (d.get? m) := by
  induction chunks generalizing k d with
  | nil => simp
  | cons chunk chunks ih =>
    rw [List.zipIdx_cons, List.map_cons, List.foldl_cons, ih]
    rcases Nat.lt_trichotomy m k with h | rfl | h
    · rw [if_neg (by omega), if_neg (by omega)]
      exact Dict.get?_set_of_ne d _ (Nat.ne_of_lt h)
    · rw [if_neg (by omega), if_pos (le_refl m), Nat.sub_self]
      exact Dict.get?_set_self d m _
    · have hm : m - k = m - (k + 1) + 1 := by omega
      rw [if_pos (by omega), if_pos (by omega), hm, List.getElem?_cons_succ]
      exact congrArg _ (Dict.get?_set_of_ne d _ (Nat.ne_of_gt h))

def resolved (chunks : List RetrievedChunk) (m : Nat) : Option Citation :=
  (if 1 ≤ m then chunks[m - 1]? else none).map (citation · m)

theorem get?_prepared (chunks : List RetrievedChunk) (query : Str) (m : Nat) :
    Dict.get? ((prepared chunks query).citations.foldl (fun d c => d.set c.marker c) []) m =
      resolved chunks m := by
  rw [prepared, get?_available]
  exact Option.or_none

theorem isSome_resolved {chunks : List RetrievedChunk} {m : Nat} :
    (resolved chunks m).isSome ↔ 1 ≤ m ∧ m ≤ chunks.length := by
  rw [resolved, Option.isSome_map]
  by_cases hm : 1 ≤ m
  · simp only [if_pos hm, Option.isSome_iff_ne_none, ne_eq, List.getElem?_eq_none_iff]
    omega
  · simp [hm]

theorem resolved_eq_some {chunks : List RetrievedChunk} {m : Nat} {c : Citation} :
    resolved chunks m = some c ↔
      1 ≤ m ∧ ∃ chunk, chunks[m - 1]? = some chunk ∧ c = citation chunk m := by
  by_cases hm : 1 ≤ m
  · simp [resolved, hm, eq_comm]
  · simp [resolved, hm]

theorem resolved_marker {chunks : List RetrievedChunk} {m : Nat}
    (h : (resolved chunks m).isSome) : (resolved chunks m).map (·.marker) = some m := by
  obtain ⟨c, hc⟩ := Option.isSome_iff_exists.mp h
  obtain ⟨-, chunk, -, rfl⟩ := resolved_eq_some.mp hc
  rw [hc]
  rfl

theorem pairwise_sorted (ms : List Nat) : (ms.dedup.insertionSort (· ≤ ·)).Pairwise (· < ·) := by
  have hle := List.pairwise_insertionSort (· ≤ ·) ms.dedup
  have hne : (ms.dedup.insertionSort (· ≤ ·)).Nodup :=
    (List.perm_insertionSort (· ≤ ·) ms.dedup).nodup_iff.mpr (List.nodup_dedup _)
  exact (hle.and hne).imp fun h => Nat.lt_of_le_of_ne h.1 h.2

def Cites (chunks : List RetrievedChunk) (text : Str) (cited : List Citation) : Prop :=
  (cited.map (·.marker)).Pairwise (· < ·) ∧
    (∀ i, i ∈ cited.map (·.marker) ↔
      (1 ≤ i ∧ i ≤ chunks.length) ∧ ∃ digits, Marked text digits ∧ number digits = i) ∧
    ∀ c ∈ cited, ∃ chunk, chunks[c.marker - 1]? = some chunk ∧ c = citation chunk c.marker

theorem citedOnly_prepared (chunks : List RetrievedChunk) (query : Str) {text : Str}
    (h : Readable text) :
    ∃ cited, citedOnly text (prepared chunks query).citations = .ok cited ∧
      Cites chunks text cited := by
  have hread : ∀ m ∈ findMarkers none text, m.length ≤ 4300 := fun m hm => h m (mem_markers.mp hm)
  have hget : Dict.get? ((prepared chunks query).citations.foldl
      (fun d c => d.set c.marker c) []) = resolved chunks := funext (get?_prepared chunks query)
  set seen := (((findMarkers none text).map number).filter
    fun m => (resolved chunks m).isSome).dedup.insertionSort (· ≤ ·) with hseen
  have hmem (i : Nat) : i ∈ seen ↔
      (resolved chunks i).isSome ∧ ∃ digits, Marked text digits ∧ number digits = i := by
    rw [hseen, List.mem_insertionSort, List.mem_dedup, List.mem_filter, List.mem_map, and_comm]
    simp only [mem_markers]
  -- every marker that is left has its citation
  have hmap : (seen.filterMap (resolved chunks)).map (·.marker) = seen := by
    rw [List.map_filterMap]
    exact (List.filterMap_congr fun i hi => resolved_marker ((hmem i).mp hi).1).trans
      List.filterMap_some
  refine ⟨seen.filterMap (resolved chunks), ?_, ?_, fun i => ?_, fun c hc => ?_⟩
  · unfold citedOnly
    rw [mapM_markerValue hread]
    dsimp only
    rw [hget]
    rfl
  · rw [hmap]
    exact pairwise_sorted _
  · rw [hmap, hmem, isSome_resolved]
  · obtain ⟨i, -, hci⟩ := List.mem_filterMap.mp hc
    obtain ⟨-, chunk, hchunk, rfl⟩ := resolved_eq_some.mp hci
    exact ⟨chunk, hchunk, rfl⟩

end RagPlatform
