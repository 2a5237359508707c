import RagPlatform.ChunkWindows

/-! What the estimate makes of the text of a whole chunk, which is what gets embedded. -/

namespace RagPlatform

open Lib

/-- The text of every chunk is estimated to fit in the target and the overlap. -/
def TextFits (blocks : List Block) (target overlap : Int) : Prop :=
  ∀ chunks, chunkBlocks blocks target overlap = .ok chunks →
    ∀ c ∈ chunks, estimateTokens c.text ≤ target + overlap

def wordCount (s : Sentence) : Int := (unitWords s).length

/-- How much of a third of a token the count of a sentence is short of its words. -/
def shortfall (s : Sentence) : Int :=
  if wordCount s % 3 = 1 then 1 else if wordCount s % 3 = 2 then -1 else 0

theorem length_flatMap_unitWords (units : List Sentence) :
    ((units.flatMap unitWords).length : Int) = weigh wordCount units := by
  induction units with
  | nil => rfl
  | cons s units ih =>
    rw [List.flatMap_cons, List.length_append, weigh_cons, ← ih]
    rfl

theorem words_chunkOf (units : List Sentence) :
    Str.words (chunkOf units).text = units.flatMap unitWords := by
  refine (Str.words_join (by decide) _).trans ?_
  rw [List.flatMap_map]
  rfl

theorem estimate_chunkOf_le_iff {units : List Sentence} {t : Int} (ht : 1 ≤ t) :
    estimateTokens (chunkOf units).text ≤ t ↔ 4 * weigh wordCount units ≤ 3 * t + 1 := by
  rw [estimateTokens_eq, words_chunkOf, tokensOf_le_iff, length_flatMap_unitWords]
  exact and_iff_right ht

/-- A sentence has a word at least, and tokens by the number of them. -/
structure Worded (s : Sentence) : Prop where
  hasWord : 1 ≤ wordCount s
  tokens : s.tokens = tokensOf (unitWords s).length

theorem worded_of_mem {blocks : List Block} {target : Int} {s : Sentence}
    (h : s ∈ sentences blocks target) : Worded s := by
  obtain ⟨hne, htokens, -⟩ := unit_sound h
  have hpos := List.length_pos_iff.mpr hne
  exact ⟨by unfold wordCount; omega, htokens⟩

theorem Worded.words {s : Sentence} (h : Worded s) :
    4 * wordCount s = 3 * s.tokens + shortfall s := by
  have hpos := h.hasWord
  have htokens := h.tokens
  unfold tokensOf at htokens
  unfold shortfall wordCount at *
  split
  · omega
  · split
    · omega
    · omega

theorem Worded.wordCount_le {s : Sentence} (h : Worded s) : wordCount s ≤ s.tokens := by
  have hwords := h.words
  have hpos := h.hasWord
  have hshort : shortfall s ≤ 1 := by
    unfold shortfall
    split_ifs <;> omega
  omega

theorem weigh_words {units : List Sentence} (h : ∀ s ∈ units, Worded s) :
    4 * weigh wordCount units = 3 * weigh Sentence.tokens units + weigh shortfall units := by
  induction units with
  | nil => rfl
  | cons s units ih =>
    rw [weigh_cons, weigh_cons, weigh_cons]
    have hs := (h s List.mem_cons_self).words
    have hunits := ih fun u hu => h u (List.mem_cons_of_mem s hu)
    omega

theorem textFits_iff_windows {blocks : List Block} {target overlap : Int} {vs : List Window}
    (htarget : 1 ≤ target) (hoverlap : 0 ≤ overlap) (hvs : Chunked blocks target overlap vs) :
    TextFits blocks target overlap ↔ ∀ v ∈ vs,
      4 * weigh wordCount (v.of (sentences blocks target)) ≤ 3 * (target + overlap) + 1 := by
  have hone : 1 ≤ target + overlap := by omega
  unfold TextFits
  constructor
  · intro h v hv
    exact (estimate_chunkOf_le_iff hone).mp (h _ hvs.chunks _ (List.mem_map_of_mem hv))
  · intro h chunks hchunks c hc
    obtain rfl := Except.ok.inj (hvs.chunks.symm.trans hchunks)
    obtain ⟨v, hv, rfl⟩ := List.mem_map.mp hc
    exact (estimate_chunkOf_le_iff hone).mpr (h v hv)

theorem textFits_iff {blocks : List Block} {target overlap : Int} {vs : List Window}
    (htarget : 1 ≤ target) (hoverlap : 0 ≤ overlap) (h : overlap < target)
    (hvs : Greedy Sentence.tokens target overlap (sentences blocks target) vs) :
    TextFits blocks target overlap ↔ ∀ v ∈ vs, weigh shortfall (v.of (sentences blocks target)) ≤
      3 * (target + overlap - tokensIn (sentences blocks target) v) + 1 := by
  obtain ⟨us, hchunked, hus⟩ := exists_chunked h (splittable_of_nonneg blocks (by omega))
  obtain rfl := hus.unique (positive_sentences blocks target) hvs
  rw [textFits_iff_windows htarget hoverlap hchunked]
  refine forall₂_congr fun v _ => ?_
  have hwords := @weigh_words (v.of (sentences blocks target))
    fun s hs => worded_of_mem (v.subset_of _ hs)
  unfold tokensIn
  omega

theorem textFits_of_small {blocks : List Block} {target overlap : Int}
    (htarget : 1 ≤ target) (hoverlap : 0 ≤ overlap) (h : overlap < target)
    (hsmall : target ≤ 3 * overlap + 1 ∧ overlap ≤ (3 * target + 1) % 4) :
    TextFits blocks target overlap := by
  obtain ⟨vs, hchunked, hgreedy⟩ := exists_chunked h (splittable_of_nonneg blocks (by omega))
  rw [textFits_iff_windows htarget hoverlap hchunked]
  intro v hv
  have hfew (u : Window) : weigh wordCount (u.of (sentences blocks target)) ≤
      weigh Sentence.tokens (u.of (sentences blocks target)) :=
    weigh_mono fun s hs => (worded_of_mem (u.subset_of _ hs)).wordCount_le
  have hunits : ∀ s ∈ sentences blocks target, s.tokens ≤ target :=
    fun s hs => (unit_sound hs).2.2 htarget
  have hwithin (hv : weigh Sentence.tokens (v.of (sentences blocks target)) ≤ target) :
      4 * weigh wordCount (v.of (sentences blocks target)) ≤ 3 * (target + overlap) + 1 := by
    have hv' := hfew v
    omega
  obtain hhead | ⟨u, -, hcut⟩ := exists_before_of_chain hgreedy.next hv
  · exact hwithin (hgreedy.weigh_first hunits v hhead)
  · obtain hfits | hone := hcut.filled
    · exact hwithin hfits
    · have hlen : u.stop < (sentences blocks target).length :=
        hcut.stop_lt.trans_le (hgreedy.bounded v hv).2
      have hx := List.getElem_mem hlen
      have htokens := (worded_of_mem hx).tokens.symm.trans_le (hunits _ hx)
      have hlast : 4 * wordCount (sentences blocks target)[u.stop] ≤ 3 * target + 1 :=
        (tokensOf_le_iff.mp htokens).2
      have hcarried := (hfew ⟨v.start, u.stop⟩).trans (hcut.toCarries.weigh_le hoverlap)
      rw [Window.of_last hcut.start_le hone (List.getElem?_eq_getElem hlen), weigh_append,
        weigh_cons, weigh_nil]
      omega

def wordsBlock (n : Nat) : Block := ⟨Str.join [' '] (List.replicate n ['w']), {}⟩

theorem isWord_w : Str.IsWord ['w'] := ⟨nofun, by simp [isSpace]⟩

theorem words_wordsBlock (n : Nat) :
    Str.words (wordsBlock n).text = List.replicate n ['w'] := by
  refine Str.words_join_words fun w hw => ?_
  rw [List.eq_of_mem_replicate hw]
  exact isWord_w

theorem splitFrom_plain {prev : Option Char} {piece s : Str} (hprev : ∀ c ∈ prev, isTerminator c = false)
    (h : ∀ c ∈ s, isTerminator c = false ∧ c ≠ '\n') :
    splitFrom .text prev piece s = [piece.reverse ++ s] := by
  induction s generalizing prev piece with
  | nil => simp [splitFrom]
  | cons c s ih =>
    obtain ⟨hstop, hline⟩ := h c List.mem_cons_self
    have hany : prev.any isTerminator = false := by
      cases prev with
      | none => rfl
      | some p => exact hprev p rfl
    have hrest := @ih (some c) (c :: piece)
      (fun d hd => Option.some.inj hd ▸ hstop) fun d hd => h d (List.mem_cons_of_mem c hd)
    rw [splitFrom, hany]
    simp [hline, hrest]

theorem mem_join {c : Char} {sep : Str} {parts : List Str} (h : c ∈ Str.join sep parts) :
    c ∈ sep ∨ ∃ p ∈ parts, c ∈ p := by
  induction parts with
  | nil => simp [Str.join, List.intercalate] at h
  | cons p parts ih =>
    cases parts with
    | nil => exact .inr ⟨p, List.mem_cons_self, by simpa [Str.join, List.intercalate] using h⟩
    | cons q parts =>
      have hjoin : Str.join sep (p :: q :: parts) = p ++ (sep ++ Str.join sep (q :: parts)) := by
        simp [Str.join, List.intercalate]
      rw [hjoin, List.mem_append, List.mem_append] at h
      obtain hp | hsep | hrest := h
      · exact .inr ⟨p, List.mem_cons_self, hp⟩
      · exact .inl hsep
      · refine (ih hrest).imp_right ?_
        rintro ⟨r, hr, hc⟩
        exact ⟨r, List.mem_cons_of_mem p hr, hc⟩

theorem plain_wordsBlock (n : Nat) :
    ∀ c ∈ (wordsBlock n).text, isTerminator c = false ∧ c ≠ '\n' := by
  intro c hc
  obtain hspace | ⟨w, hw, hcw⟩ := mem_join hc
  · rw [List.mem_singleton.mp hspace]
    decide
  · rw [List.eq_of_mem_replicate hw] at hcw
    rw [List.mem_singleton.mp hcw]
    decide

def wordsUnit (n : Nat) : Sentence := sentence {} (wordsBlock n).text

theorem unitWords_wordsUnit (n : Nat) : unitWords (wordsUnit n) = List.replicate n ['w'] :=
  words_wordsBlock n

theorem tokens_wordsUnit (n : Nat) : (wordsUnit n).tokens = tokensOf n := by
  refine (estimateTokens_eq _).trans ?_
  rw [words_wordsBlock, List.length_replicate]

theorem sentences_wordsBlocks {target : Int} {ns : List Nat}
    (h : ∀ n ∈ ns, 1 ≤ n ∧ tokensOf n ≤ target) :
    sentences (ns.map wordsBlock) target = ns.map wordsUnit := by
  unfold sentences
  rw [List.flatMap_map, List.map_eq_flatMap]
  refine List.flatMap_congr fun n hn => ?_
  obtain ⟨hone, hfits⟩ := h n hn
  have hsplit : splitSentences (wordsBlock n).text = [(wordsBlock n).text] :=
    splitFrom_plain nofun (plain_wordsBlock n)
  have hcollapse : Str.join [' '] (Str.words (wordsBlock n).text) = (wordsBlock n).text :=
    congrArg (Str.join [' ']) (words_wordsBlock n)
  have hne : (wordsBlock n).text ≠ [] := by
    intro hnil
    have hwords := words_wordsBlock n
    rw [hnil] at hwords
    have hlength := congrArg List.length hwords
    rw [List.length_replicate] at hlength
    exact absurd hlength (by simp; omega)
  have htokens : estimateTokens (wordsBlock n).text ≤ target := (tokens_wordsUnit n).trans_le hfits
  rw [hsplit, List.flatMap_singleton]
  simp only [pieceSentences]
  rw [hcollapse, if_neg hne, if_pos htokens]
  rfl

theorem wordCount_wordsUnit (n : Nat) : wordCount (wordsUnit n) = n := by
  rw [wordCount, unitWords_wordsUnit, List.length_replicate]

theorem tokens_one : (wordsUnit 1).tokens = 1 := tokens_wordsUnit 1

theorem shortfall_one : shortfall (wordsUnit 1) = 1 := by
  rw [shortfall, wordCount_wordsUnit]
  decide

def shortSentences (n : Nat) : List Block := (List.replicate n 1).map wordsBlock

theorem sentences_shortSentences {n : Nat} {target : Int} (h : 1 ≤ target) :
    sentences (shortSentences n) target = List.replicate n (wordsUnit 1) := by
  refine (sentences_wordsBlocks fun m hm => ?_).trans List.map_replicate
  rw [List.eq_of_mem_replicate hm]
  exact ⟨le_refl 1, h⟩

theorem greedy_shortSentences {n : Nat} (hn : 1 ≤ n) (overlap : Int) :
    Greedy Sentence.tokens n overlap (List.replicate n (wordsUnit 1)) [⟨0, n⟩] where
  first := by
    rintro v ⟨⟩
    refine ⟨rfl, .inl ?_⟩
    simp [Window.of, weigh_replicate, tokens_one]
  next := .singleton _
  last := by
    rintro v ⟨⟩
    simp
  bounded := by
    intro v hv
    rw [List.mem_singleton.mp hv]
    exact ⟨hn, by simp⟩
  nil_iff := by simp; omega

theorem small_of_shortSentences {n : Nat} {overlap : Int} (hn : 1 ≤ n) (hoverlap : 0 ≤ overlap)
    (h : overlap < n) (hfits : TextFits (shortSentences n) n overlap) : n ≤ 3 * overlap + 1 := by
  have htarget : (1 : Int) ≤ n := by omega
  have hsentences := sentences_shortSentences (n := n) htarget
  have hgreedy := greedy_shortSentences hn overlap
  rw [← hsentences] at hgreedy
  have hroom := (textFits_iff htarget hoverlap h hgreedy).mp hfits _ (List.mem_singleton_self _)
  unfold tokensIn at hroom
  rw [hsentences] at hroom
  simp only [Window.of, List.take_replicate, List.drop_zero, weigh_replicate, tokens_one,
    shortfall_one, Nat.min_self] at hroom
  omega

/-- One more short sentence than the overlap holds, and a long one. -/
def shortThenLong (o m : Nat) : List Block := (List.replicate (o + 1) 1 ++ [m]).map wordsBlock

def shortThenLongUnits (o m : Nat) : List Sentence :=
  List.replicate (o + 1) (wordsUnit 1) ++ [wordsUnit m]

theorem sentences_shortThenLong {o m : Nat} {target : Int} (h : 1 ≤ target) (hm : 1 ≤ m)
    (hfits : tokensOf m ≤ target) :
    sentences (shortThenLong o m) target = shortThenLongUnits o m := by
  refine (sentences_wordsBlocks fun n hn => ?_).trans ?_
  · obtain hn | hn := List.mem_append.mp hn
    · rw [List.eq_of_mem_replicate hn]
      exact ⟨le_refl 1, h⟩
    · rw [List.mem_singleton.mp hn]
      exact ⟨hm, hfits⟩
  · rw [List.map_append, List.map_replicate]
    rfl

theorem window_short {o m k : Nat} :
    (Window.mk k (o + 1)).of (shortThenLongUnits o m) = List.replicate (o + 1 - k) (wordsUnit 1) := by
  rw [shortThenLongUnits, Window.of_append (v := ⟨k, o + 1⟩) (by simp), Window.of]
  simp

theorem window_long (o m : Nat) :
    (Window.mk 1 (o + 2)).of (shortThenLongUnits o m) =
      List.replicate o (wordsUnit 1) ++ [wordsUnit m] := by
  rw [Window.of_last (m := o + 1) (x := wordsUnit m) (by simp) rfl, window_short, Nat.add_sub_cancel]
  rw [shortThenLongUnits]
  simp

theorem greedy_shortThenLong {o m : Nat} {target : Int} (hfirst : o + 1 ≤ target)
    (hcut : target < o + 1 + tokensOf m) :
    Greedy Sentence.tokens target o (shortThenLongUnits o m) [⟨0, o + 1⟩, ⟨1, o + 2⟩] where
  first := by
    rintro v ⟨⟩
    refine ⟨rfl, .inl ?_⟩
    rw [window_short, weigh_replicate, tokens_one]
    omega
  next := by
    have hsum (k : Nat) : weigh Sentence.tokens ((Window.mk k (o + 1)).of (shortThenLongUnits o m)) =
        (o + 1 - k : Nat) := by
      rw [window_short, weigh_replicate, tokens_one, Int.mul_one]
    refine List.isChain_cons_cons.mpr ⟨{
      start_lt := Nat.one_pos
      start_le := Nat.le_add_left 1 o
      stop_lt := Nat.lt_succ_self (o + 1)
      whole := fun hwhole => ?_
      within := .inr ?_
      longest := fun _ k _ hk => ?_
      full := fun u hu => ?_
      filled := .inr rfl }, .singleton _⟩
    · have hkey := (hsum 0).symm.trans_le hwhole
      omega
    · exact (hsum 1).trans_le (by omega)
    · refine lt_of_lt_of_eq ?_ (hsum k).symm
      have hone : k < 1 := hk
      omega
    · have hlast : (shortThenLongUnits o m)[o + 1]? = some (wordsUnit m) := by
        simp [shortThenLongUnits]
      obtain rfl := Option.some.inj (hlast.symm.trans hu)
      rw [hsum, tokens_wordsUnit]
      omega
  last := by
    rintro v ⟨⟩
    simp [shortThenLongUnits]
  bounded := by
    intro v hv
    simp only [List.mem_cons, List.not_mem_nil, or_false] at hv
    rcases hv with rfl | rfl
    · simp [shortThenLongUnits]
    · simp [shortThenLongUnits]
  nil_iff := by simp [shortThenLongUnits]

theorem small_of_shortThenLong {t o : Nat} (ho : 1 ≤ o) (h : o < t)
    (hfits : TextFits (shortThenLong o ((3 * t + 1) / 4)) t o) : o ≤ (3 * t + 1) % 4 := by
  have htarget : (1 : Int) ≤ t := by omega
  have hm : 1 ≤ (3 * t + 1) / 4 := by omega
  have htokens : tokensOf ((3 * t + 1) / 4) ≤ t := tokensOf_le_iff.mpr ⟨htarget, by omega⟩
  have hcut : (t : Int) < o + 1 + tokensOf ((3 * t + 1) / 4) := by
    unfold tokensOf
    omega
  have hsentences := sentences_shortThenLong (o := o) htarget hm htokens
  have hgreedy := @greedy_shortThenLong o _ t (by omega) hcut
  rw [← hsentences] at hgreedy
  have hroom := (textFits_iff htarget (by omega) (by omega) hgreedy).mp hfits ⟨1, o + 2⟩ (by simp)
  have hlong : Worded (wordsUnit ((3 * t + 1) / 4)) := by
    refine ⟨?_, ?_⟩
    · rw [wordCount_wordsUnit]
      omega
    · rw [tokens_wordsUnit, unitWords_wordsUnit, List.length_replicate]
  have hwords := hlong.words
  rw [wordCount_wordsUnit] at hwords
  unfold tokensIn at hroom
  rw [hsentences, window_long] at hroom
  simp only [weigh_append, weigh_replicate, weigh_cons, weigh_nil, tokens_one, shortfall_one] at hroom
  omega

/-- The text of a document's chunks fits exactly if the shortfalls of each chunk's sentences come to
no more than its room, and that of every document's does only under the smallest of settings. -/
theorem text_within_budget_iff (blocks : List Block) (target overlap : Int) (htarget : 1 ≤ target)
    (hoverlap : 0 ≤ overlap) (h : overlap < target) :
    (∀ vs, Greedy Sentence.tokens target overlap (sentences blocks target) vs →
      (TextFits blocks target overlap ↔ ∀ v ∈ vs,
        weigh shortfall (v.of (sentences blocks target)) ≤
          3 * (target + overlap - tokensIn (sentences blocks target) v) + 1)) ∧
    ((∀ document, TextFits document target overlap) ↔
      target ≤ 3 * overlap + 1 ∧ overlap ≤ (3 * target + 1) % 4) := by
  refine ⟨fun vs => textFits_iff htarget hoverlap h, fun hall => ?_,
    fun hsmall _ => textFits_of_small htarget hoverlap h hsmall⟩
  obtain ⟨t, rfl⟩ := Int.eq_ofNat_of_zero_le (Int.le_trans (by decide) htarget)
  obtain ⟨o, rfl⟩ := Int.eq_ofNat_of_zero_le hoverlap
  refine ⟨small_of_shortSentences (by omega) hoverlap h (hall _), ?_⟩
  by_cases ho : o = 0
  · omega
  · have hsmall := small_of_shortThenLong (by omega) (Int.ofNat_lt.mp h) (hall _)
    omega

theorem pages_text_within :
    (∀ vs, Greedy Sentence.tokens 3 1 (sentences Sample.pages 3) vs →
      (TextFits Sample.pages 3 1 ↔ ∀ v ∈ vs, weigh shortfall (v.of (sentences Sample.pages 3)) ≤
        3 * (3 + 1 - tokensIn (sentences Sample.pages 3) v) + 1)) ∧
    ¬ ∀ document, TextFits document 400 60 :=
  ⟨(text_within_budget_iff Sample.pages 3 1 (by decide) (by decide) (by decide)).1,
    fun h => absurd ((text_within_budget_iff [] 400 60 (by decide) (by decide) (by decide)).2.mp h)
      (by decide)⟩

/-- With the default settings, four hundred sentences of a word each make one chunk, the text of
which is estimated at 533 tokens. -/
theorem default_overrun :
    (∃ c, chunkBlocks (shortSentences 400) 400 60 = .ok [c] ∧ estimateTokens c.text = 533) ∧
      ¬ TextFits (shortSentences 400) 400 60 := by
  have hsentences : sentences (shortSentences 400) 400 = List.replicate 400 (wordsUnit 1) :=
    sentences_shortSentences (by decide)
  obtain ⟨vs, hchunked, hgreedy⟩ := exists_chunked (show (60 : Int) < 400 by decide)
    (splittable_of_nonneg (shortSentences 400) (by decide))
  have hwhole : Greedy Sentence.tokens 400 60 (sentences (shortSentences 400) 400) [⟨0, 400⟩] :=
    hsentences ▸ greedy_shortSentences (n := 400) (by decide) 60
  obtain rfl := hgreedy.unique (positive_sentences _ _) hwhole
  have hestimate : estimateTokens (chunkOf ((Window.mk 0 400).of
      (sentences (shortSentences 400) 400))).text = 533 := by
    have hlength := length_flatMap_unitWords ((Window.mk 0 400).of (List.replicate 400 (wordsUnit 1)))
    have hall : (Window.mk 0 400).of (List.replicate 400 (wordsUnit 1)) =
        List.replicate 400 (wordsUnit 1) := List.take_of_length_le List.length_replicate.le
    rw [hall, weigh_replicate, wordCount_wordsUnit] at hlength
    rw [estimateTokens_eq, words_chunkOf, hsentences, hall, Int.ofNat_inj.mp hlength]
    decide
  refine ⟨⟨_, hchunked.chunks, hestimate⟩, fun hfits => ?_⟩
  have hbound := hfits _ hchunked.chunks _ (List.mem_singleton_self _)
  rw [hestimate] at hbound
  exact absurd hbound (by decide)

end RagPlatform
