import Mathlib.Data.List.DropRight
import RagPlatform.Lib.Text

/-! The words of a text, however it is put together. -/

namespace RagPlatform.Lib.Str

/-- Characters with no white space among them, and at least one. -/
structure IsWord (w : Str) : Prop where
  ne_nil : w ≠ []
  plain : ∀ c ∈ w, isSpace c = false

variable {s t w : Str} {c : Char}

theorem isWord_of_mem (h : w ∈ words s) : IsWord w := by
  obtain ⟨hw, hne⟩ := List.mem_filter.mp h
  exact ⟨by simpa using hne, not_mem_splitOnP hw⟩

@[simp] theorem words_nil : words [] = [] := rfl

theorem IsWord.words (h : IsWord w) : words w = [w] := by
  rw [Str.words, List.splitOnP_eq_singleton h.plain]
  simp [h.ne_nil]

theorem words_append_space (h : isSpace c = true) (s t : Str) :
    words (s ++ c :: t) = words s ++ words t := by
  rw [words, List.splitOnP_append_cons s t h, List.filter_append]
  rfl

theorem words_spaces (h : ∀ c ∈ s, isSpace c = true) : words s = [] := by
  refine words_eq_nil.mpr ?_
  rintro ⟨c, hc, hspace⟩
  rw [h c hc] at hspace
  cases hspace

theorem words_append_spaces (h : ∀ c ∈ t, isSpace c = true) : words (s ++ t) = words s := by
  cases t with
  | nil => rw [List.append_nil]
  | cons c t =>
    have ht : words t = [] := words_spaces fun d hd => h d (List.mem_cons_of_mem c hd)
    rw [words_append_space (h c List.mem_cons_self), ht, List.append_nil]

theorem words_join (h : isSpace c = true) (parts : List Str) :
    words (join [c] parts) = parts.flatMap words := by
  induction parts with
  | nil => rfl
  | cons p parts ih =>
    cases parts with
    | nil => simp [join, List.intercalate]
    | cons q parts =>
      have hjoin : join [c] (p :: q :: parts) = p ++ c :: join [c] (q :: parts) := by
        simp [join, List.intercalate]
      rw [hjoin, words_append_space h, ih]
      rfl

theorem flatMap_words_self {ws : List Str} (h : ∀ w ∈ ws, IsWord w) : ws.flatMap words = ws := by
  induction ws with
  | nil => rfl
  | cons w ws ih =>
    rw [List.flatMap_cons, (h w List.mem_cons_self).words,
      ih fun v hv => h v (List.mem_cons_of_mem w hv), List.singleton_append]

theorem words_join_words {ws : List Str} (h : ∀ w ∈ ws, IsWord w) : words (join [' '] ws) = ws := by
  rw [words_join (by decide), flatMap_words_self h]

theorem words_lstrip (s : Str) : words (lstrip s) = words s := by
  induction s with
  | nil => rfl
  | cons c s ih =>
    cases hc : isSpace c with
    | true =>
      rw [words_cons_space s hc, ← ih, lstrip, List.dropWhile_cons_of_pos hc]
      rfl
    | false => rw [lstrip, List.dropWhile_cons_of_neg (by simp [hc])]

theorem words_rstrip (s : Str) : words (rstrip s) = words s := by
  have hsplit : rstrip s ++ (s.reverse.takeWhile isSpace).reverse = s := by
    rw [rstrip, ← List.reverse_append, List.takeWhile_append_dropWhile, List.reverse_reverse]
  have hspaces : ∀ c ∈ (s.reverse.takeWhile isSpace).reverse, isSpace c = true :=
    fun c hc => List.mem_takeWhile_imp (List.mem_reverse.mp hc)
  exact (words_append_spaces hspaces).symm.trans (congrArg words hsplit)

theorem words_strip (s : Str) : words (strip s) = words s := by
  rw [strip, words_rstrip, words_lstrip]

theorem flatten_splitOnP (p : Char → Bool) (s : Str) :
    (s.splitOnP p).flatten = s.filter fun c => !p c := by
  induction s with
  | nil => rfl
  | cons c s ih =>
    rw [List.splitOnP_cons_eq_if_modifyHead]
    cases hc : p c with
    | true => simpa [hc] using ih
    | false =>
      obtain ⟨w, ws, hsplit⟩ := List.exists_cons_of_ne_nil (List.splitOnP_ne_nil p s)
      rw [hsplit] at ih ⊢
      simp only [List.modifyHead_cons, List.flatten_cons, Bool.false_eq_true, if_false] at ih ⊢
      rw [List.filter_cons_of_pos (by simp [hc]), ← ih, List.cons_append]

theorem mem_iff_words (h : isSpace c = false) : c ∈ s ↔ ∃ w ∈ words s, c ∈ w := by
  have hflat : c ∈ s ↔ ∃ w ∈ s.splitOnP isSpace, c ∈ w := by
    rw [← List.mem_flatten, flatten_splitOnP, List.mem_filter, h]
    simp
  rw [hflat]
  constructor
  · rintro ⟨w, hw, hc⟩
    exact ⟨w, List.mem_filter.mpr ⟨hw, decide_eq_true (List.ne_nil_of_mem hc)⟩, hc⟩
  · rintro ⟨w, hw, hc⟩
    exact ⟨w, (List.mem_filter.mp hw).1, hc⟩

theorem mem_strip_iff (h : isSpace c = false) : c ∈ strip s ↔ c ∈ s := by
  rw [mem_iff_words h, words_strip, ← mem_iff_words h]

theorem strip_isPrefix (s : Str) : strip s <+: lstrip s := List.rdropWhile_prefix isSpace (lstrip s)

theorem length_strip_le (s : Str) : (strip s).length ≤ s.length :=
  (strip_isPrefix s).length_le.trans (List.dropWhile_suffix isSpace).length_le

theorem head_strip (s : Str) : ∀ c ∈ (strip s).head?, isSpace c = false := by
  intro c hc
  obtain ⟨rest, hrest⟩ := strip_isPrefix s
  have hhead := List.head?_dropWhile_not isSpace s
  have hfirst : (s.dropWhile isSpace).head? = some c := by
    change (lstrip s).head? = some c
    rw [← hrest, List.head?_append, Option.mem_def.mp hc, Option.some_or]
  rw [hfirst] at hhead
  simpa using hhead

theorem getLast_strip (s : Str) : ∀ c ∈ (strip s).getLast?, isSpace c = false := by
  intro c hc
  have hhead := List.head?_dropWhile_not isSpace (lstrip s).reverse
  rw [strip, rstrip, List.getLast?_reverse, Option.mem_def] at hc
  rw [hc] at hhead
  simpa using hhead

end RagPlatform.Lib.Str
