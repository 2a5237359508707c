import RagPlatform.Lib.Url

/-! The path of a URL as a walk along its segments. -/

namespace RagPlatform.Lib.Url

theorem encode_nil : encode [] = [] := rfl

theorem encode_cons (c : Char) (s : Str) : encode (c :: s) = encodeChar c ++ encode s := rfl

theorem encode_concat (s : Str) (c : Char) : encode (s ++ [c]) = encode s ++ encodeChar c := by
  simp [encode]

theorem encodeChar_of_safe {c : Char} (h : inPathSet c = false) : encodeChar c = [c] := by
  simp [encodeChar, h]

theorem hexDigit_ne_slash {n : Nat} (h : n < 16) : hexDigit n ≠ '/' := by
  have hall : ∀ n : Fin 16, hexDigit n ≠ '/' := by decide
  exact hall ⟨n, h⟩

theorem hexDigit_two {n : Nat} (h : n < 16) (hn : hexDigit n = '2') : n = 2 := by
  have hall : ∀ n : Fin 16, hexDigit n = '2' → n = 2 := by decide
  exact congrArg Fin.val (hall ⟨n, h⟩ hn)

theorem hexDigit_E {n : Nat} (h : n < 16) (hn : hexDigit n = 'e' ∨ hexDigit n = 'E') : n = 14 := by
  have hall : ∀ n : Fin 16, hexDigit n = 'e' ∨ hexDigit n = 'E' → n = 14 := by decide
  exact congrArg Fin.val (hall ⟨n, h⟩ hn)

theorem encodeChar_of_unsafe {c : Char} (h : inPathSet c = true) :
    ∃ x y rest, encodeChar c = '%' :: x :: y :: rest ∧ ¬ (x = '2' ∧ (y = 'e' ∨ y = 'E')) := by
  obtain ⟨b, rest, hc, hb⟩ := utf8EncodeChar_head c
  refine ⟨hexDigit (b.toNat / 16), hexDigit (b.toNat % 16), rest.flatMap percentEncode, ?_, ?_⟩
  · simp [encodeChar, h, hc, percentEncode]
  · rintro ⟨hx, hy⟩
    have hlt := b.toNat_lt
    have h₁ := hexDigit_two (by omega) hx
    have h₂ := hexDigit_E (by omega) hy
    have hdot : c.toNat = 0x2E := by omega
    simp [inPathSet, hdot] at h

theorem slash_not_mem_encodeChar {c : Char} (h : c ≠ '/') : '/' ∉ encodeChar c := by
  unfold encodeChar
  split
  · intro hmem
    obtain ⟨b, -, hb⟩ := List.mem_flatMap.mp hmem
    have hlt := b.toNat_lt
    simp only [percentEncode, List.mem_cons, List.not_mem_nil, or_false] at hb
    rcases hb with hb | hb | hb
    · exact absurd hb (by decide)
    · exact hexDigit_ne_slash (by omega) hb.symm
    · exact hexDigit_ne_slash (by omega) hb.symm
  · simpa using h.symm

theorem slash_not_mem_encode {s : Str} (h : '/' ∉ s) : '/' ∉ encode s := by
  intro hmem
  obtain ⟨c, hc, hslash⟩ := List.mem_flatMap.mp hmem
  exact slash_not_mem_encodeChar (fun heq => h (heq ▸ hc)) hslash

theorem encodeChar_ne_nil (c : Char) : encodeChar c ≠ [] := by
  cases hc : inPathSet c with
  | false => simp [encodeChar_of_safe hc]
  | true =>
    obtain ⟨_, _, _, hcode, -⟩ := encodeChar_of_unsafe hc
    simp [hcode]

theorem encode_eq_nil {s : Str} : encode s = [] ↔ s = [] := by
  cases s with
  | nil => simp [encode_nil]
  | cons c s => simp [encode_cons, encodeChar_ne_nil]

theorem encode_eq_cons {x : Char} {s t : Str} (hx : x ≠ '%') (h : encode s = x :: t) :
    ∃ s', s = x :: s' ∧ encode s' = t := by
  cases s with
  | nil => cases h
  | cons c s =>
    rw [encode_cons] at h
    cases hc : inPathSet c with
    | false =>
      rw [encodeChar_of_safe hc] at h
      obtain ⟨rfl, rfl⟩ := List.cons.inj h
      exact ⟨s, rfl, rfl⟩
    | true =>
      obtain ⟨_, _, _, hcode, -⟩ := encodeChar_of_unsafe hc
      rw [hcode] at h
      exact absurd (List.cons.inj h).1.symm hx

theorem encode_eq_iff {s name : Str} (hname : ∀ c ∈ name, inPathSet c = false ∧ c ≠ '%') :
    encode s = name ↔ s = name := by
  induction name generalizing s with
  | nil => exact encode_eq_nil
  | cons c name ih =>
    obtain ⟨⟨hc, hpct⟩, hrest⟩ := List.forall_mem_cons.mp hname
    constructor
    · intro h
      obtain ⟨s', rfl, hs'⟩ := encode_eq_cons hpct h
      rw [(ih hrest).mp hs']
    · rintro rfl
      rw [encode_cons, encodeChar_of_safe hc, (ih hrest).mpr rfl]
      rfl

theorem encode_eq_dot {dot s t : Str} (hdot : dot ∈ dots) (h : encode s = dot ++ t) :
    ∃ s', s = dot ++ s' ∧ encode s' = t := by
  have hpercent {y : Char} (hy : y = 'e' ∨ y = 'E') (h : encode s = '%' :: '2' :: y :: t) :
      ∃ s', s = '%' :: '2' :: y :: s' ∧ encode s' = t := by
    cases s with
    | nil => cases h
    | cons c s =>
      rw [encode_cons] at h
      cases hc : inPathSet c with
      | false =>
        rw [encodeChar_of_safe hc] at h
        obtain ⟨rfl, h₁⟩ := List.cons.inj h
        obtain ⟨s₁, rfl, h₂⟩ := encode_eq_cons (by decide) h₁
        obtain ⟨s₂, rfl, h₃⟩ := encode_eq_cons (by rcases hy with rfl | rfl <;> decide) h₂
        exact ⟨s₂, rfl, h₃⟩
      | true =>
        obtain ⟨x, z, rest, hcode, hno⟩ := encodeChar_of_unsafe hc
        rw [hcode] at h
        simp only [List.cons_append, List.cons.injEq] at h
        obtain ⟨-, rfl, rfl, -⟩ := h
        exact absurd ⟨rfl, hy⟩ hno
  simp only [dots, List.mem_cons, List.not_mem_nil, or_false] at hdot
  rcases hdot with rfl | rfl | rfl
  · exact encode_eq_cons (by decide) h
  · exact hpercent (.inl rfl) h
  · exact hpercent (.inr rfl) h

theorem encode_dot {dot : Str} (hdot : dot ∈ dots) (s : Str) : encode (dot ++ s) = dot ++ encode s := by
  simp only [dots, List.mem_cons, List.not_mem_nil, or_false] at hdot
  rcases hdot with rfl | rfl | rfl <;> rfl

theorem isSingleDot_encode (s : Str) : isSingleDot (encode s) = isSingleDot s := by
  rw [isSingleDot, isSingleDot, decide_eq_decide]
  constructor
  · intro h
    obtain ⟨s', hs, hnil⟩ := encode_eq_dot h (List.append_nil _).symm
    rw [encode_eq_nil.mp hnil, List.append_nil] at hs
    exact hs.symm ▸ h
  · intro h
    have hself := encode_dot h []
    rw [List.append_nil, encode_nil, List.append_nil] at hself
    rwa [hself]

theorem isDoubleDot_encode (s : Str) : isDoubleDot (encode s) = isDoubleDot s := by
  rw [isDoubleDot, isDoubleDot, decide_eq_decide]
  simp only [List.mem_flatMap, List.mem_map]
  refine exists_congr fun a => and_congr_right fun ha => exists_congr fun b => and_congr_right fun hb => ?_
  constructor
  · intro h
    obtain ⟨s', rfl, hs'⟩ := encode_eq_dot ha h.symm
    obtain ⟨s'', rfl, hnil⟩ := encode_eq_dot hb (hs'.trans (List.append_nil _).symm)
    rw [encode_eq_nil.mp hnil, List.append_nil]
  · rintro rfl
    have hself := encode_dot hb []
    rw [List.append_nil, encode_nil, List.append_nil] at hself
    rw [encode_dot ha, hself]

def moveOf (segment : Str) : Move Str :=
  if isDoubleDot segment then .up else if isSingleDot segment then .stay else .down segment

def pieces (input : Str) : List Str := (input.takeWhile (!endsPath ·)).splitOnP isSlash

def pathTo (place : List Str) : List Str := (place.map encode).reverse

theorem push_slash (place : List Str) (segment : Str) :
    push (pathTo place) (encode segment) true = pathTo ((moveOf segment).apply place) := by
  unfold push moveOf
  rw [isDoubleDot_encode, isSingleDot_encode]
  split
  · simp [pathTo, Move.apply, List.dropLast_reverse]
  · split
    · rfl
    · simp [pathTo, Move.apply]

theorem push_end (place : List Str) (segment : Str) :
    ∃ tail, (tail = [] ∨ tail = [[]]) ∧
      push (pathTo place) (encode segment) false = pathTo ((moveOf segment).apply place) ++ tail := by
  unfold push moveOf
  rw [isDoubleDot_encode, isSingleDot_encode]
  split
  · exact ⟨[[]], .inr rfl, by simp [pathTo, Move.apply, List.dropLast_reverse]⟩
  · split
    · exact ⟨[[]], .inr rfl, rfl⟩
    · exact ⟨[], .inl rfl, by simp [pathTo, Move.apply]⟩

theorem push_last (place : List Str) {read : Str} (hread : ∀ c ∈ read, isSlash c = false) :
    ∃ tail, (tail = [] ∨ tail = [[]]) ∧ push (pathTo place) (encode read) false =
      pathTo (Move.walk place (((read ++ []).splitOnP isSlash).map moveOf)) ++ tail := by
  rw [List.append_nil, List.splitOnP_eq_singleton hread]
  exact push_end place read

theorem not_endsPath {c : Char} (h : isSlash c = true) : endsPath c = false := by
  unfold isSlash at h
  rcases (Bool.or_eq_true_iff).mp h with h | h
  · rw [beq_iff_eq.mp h]
    rfl
  · rw [beq_iff_eq.mp h]
    rfl

theorem pathState_from (place : List Str) (read : Str) (hread : ∀ c ∈ read, isSlash c = false)
    (input : Str) :
    ∃ tail, (tail = [] ∨ tail = [[]]) ∧ pathState (encode read) (pathTo place) input =
      pathTo (Move.walk place
        (((read ++ input.takeWhile (!endsPath ·)).splitOnP isSlash).map moveOf)) ++ tail := by
  induction input generalizing place read with
  | nil => exact push_last place hread
  | cons c input ih =>
    rw [pathState]
    cases hslash : isSlash c with
    | true =>
      rw [if_pos rfl, push_slash, List.takeWhile_cons, not_endsPath hslash, Bool.not_false,
        if_pos rfl, List.splitOnP_append_cons_of_forall_mem hread c hslash, List.map_cons,
        Move.walk_cons]
      exact ih ((moveOf read).apply place) [] (List.forall_mem_nil _)
    | false =>
      cases hc : endsPath c with
      | true =>
        rw [if_neg Bool.false_ne_true, if_pos rfl, List.takeWhile_cons, hc, Bool.not_true,
          if_neg Bool.false_ne_true]
        exact push_last place hread
      | false =>
        have hread' : ∀ d ∈ read ++ [c], isSlash d = false := by
          simpa [or_imp, forall_and, hslash] using hread
        have hsplit : read ++ c :: input.takeWhile (!endsPath ·) =
            (read ++ [c]) ++ input.takeWhile (!endsPath ·) := by simp
        rw [if_neg Bool.false_ne_true, if_neg Bool.false_ne_true, List.takeWhile_cons, hc,
          Bool.not_false, if_pos rfl, hsplit, ← encode_concat]
        exact ih place (read ++ [c]) hread'

theorem pathState_eq (input : Str) :
    ∃ tail, (tail = [] ∨ tail = [[]]) ∧
      pathState [] [] input = pathTo (Move.walk [] ((pieces input).map moveOf)) ++ tail :=
  pathState_from [] [] (List.forall_mem_nil _) input

theorem slash_not_mem_pathTo {input : Str} :
    ∀ segment ∈ pathTo (Move.walk [] ((pieces input).map moveOf)), '/' ∉ segment := by
  intro segment hmem
  obtain ⟨piece, hpiece, rfl⟩ := List.mem_map.mp (List.mem_reverse.mp hmem)
  refine slash_not_mem_encode fun hslash => ?_
  obtain ⟨p, hp, hmove⟩ := List.mem_map.mp ((Move.mem_walk hpiece).resolve_left List.not_mem_nil)
  have hself : p = piece := by
    unfold moveOf at hmove
    split at hmove
    · cases hmove
    · split at hmove
      · cases hmove
      · cases hmove
        rfl
  have hsep := Str.not_mem_splitOnP hp '/' (hself ▸ hslash)
  exact absurd hsep (by decide)

def OpensWithSlash (s : Str) : Prop := s = [] ∨ s.head? = some '/'

theorem serialize_opens (path : List Str) : OpensWithSlash (serialize path) := by
  cases path with
  | nil => exact .inl rfl
  | cons segment path => exact .inr rfl

theorem takeWhile_segment {w s : Str} (hw : '/' ∉ w) (hs : OpensWithSlash s) :
    (w ++ s).takeWhile (· ≠ '/') = w := by
  have hno : ∀ c ∈ w, decide (c ≠ '/') = true := by
    intro c hc
    rw [decide_eq_true_eq]
    rintro rfl
    exact hw hc
  rw [List.takeWhile_append_of_pos hno]
  rcases hs with rfl | hs
  · simp
  · obtain ⟨t, rfl⟩ := List.head?_eq_some_iff.mp hs
    simp

theorem segment_inj {w w' s s' : Str} (hw : '/' ∉ w) (hw' : '/' ∉ w') (hs : OpensWithSlash s)
    (hs' : OpensWithSlash s') (h : w ++ s = w' ++ s') : w = w' ∧ s = s' := by
  have htake := congrArg (List.takeWhile (· ≠ '/')) h
  rw [takeWhile_segment hw hs, takeWhile_segment hw' hs'] at htake
  subst htake
  exact ⟨rfl, List.append_cancel_left h⟩

theorem serialize_eq_cons {w s : Str} {path : List Str} (hw : '/' ∉ w) (hs : OpensWithSlash s)
    (hpath : ∀ segment ∈ path, '/' ∉ segment) (h : serialize path = '/' :: (w ++ s)) :
    ∃ path', path = w :: path' ∧ serialize path' = s := by
  cases path with
  | nil => cases h
  | cons segment path =>
    obtain ⟨rfl, hrest⟩ := segment_inj (hpath _ List.mem_cons_self) hw (serialize_opens path) hs
      (List.cons.inj h).2
    exact ⟨path, rfl, hrest⟩

/-- The path is `/a/b` or begins with `/a/b/`. -/
def Below (a b path : Str) : Prop :=
  path = '/' :: (a ++ '/' :: b) ∨ '/' :: (a ++ '/' :: (b ++ ['/'])) <+: path

instance (a b path : Str) : Decidable (Below a b path) := inferInstanceAs (Decidable (_ ∨ _))

theorem below_serialize {a b : Str} (ha : '/' ∉ a) (hb : '/' ∉ b) {path : List Str}
    (hpath : ∀ segment ∈ path, '/' ∉ segment) : Below a b (serialize path) ↔ [a, b] <+: path := by
  constructor
  · intro h
    have hrest : ∃ s, OpensWithSlash s ∧ serialize path = '/' :: (a ++ '/' :: (b ++ s)) := by
      rcases h with h | ⟨s, h⟩
      · exact ⟨[], .inl rfl, by rw [h, List.append_nil]⟩
      · exact ⟨'/' :: s, .inr rfl, by rw [← h]; simp⟩
    obtain ⟨s, hs, hserialize⟩ := hrest
    obtain ⟨path, rfl, h₁⟩ := serialize_eq_cons ha (.inr rfl) hpath hserialize
    obtain ⟨path, rfl, -⟩ := serialize_eq_cons hb hs (List.forall_mem_cons.mp hpath).2 h₁
    exact ⟨path, rfl⟩
  · rintro ⟨path, rfl⟩
    cases path with
    | nil => exact .inl (by simp [serialize])
    | cons c path => exact .inr ⟨c ++ serialize path, by simp [serialize]⟩

structure PlainSegment (name : Str) : Prop where
  safe : ∀ c ∈ name, inPathSet c = false ∧ c ≠ '%'
  one : '/' ∉ name
  ne_nil : name ≠ []

/-- The path leads below `/a/b` exactly if the walk along its segments does. -/
theorem below_pathState {a b : Str} (ha : PlainSegment a) (hb : PlainSegment b) (input : Str) :
    Below a b (serialize (pathState [] [] input)) ↔
      ∃ top, Move.walk [] ((pieces input).map moveOf) = top ++ [b, a] := by
  obtain ⟨tail, htail, hpath⟩ := pathState_eq input
  have hslash : ∀ segment ∈ pathState [] [] input, '/' ∉ segment := by
    rw [hpath]
    refine List.forall_mem_append.mpr ⟨slash_not_mem_pathTo, ?_⟩
    rcases htail with rfl | rfl
    · exact List.forall_mem_nil _
    · simp
  rw [below_serialize ha.one hb.one hslash, hpath]
  generalize Move.walk [] ((pieces input).map moveOf) = place
  have hcut : [a, b] <+: pathTo place ++ tail ↔ [a, b] <+: pathTo place := by
    rcases htail with rfl | rfl
    · rw [List.append_nil]
    · rw [List.prefix_concat_iff, or_iff_right]
      intro h
      have hlast := congrArg List.getLast? h
      simp at hlast
      exact hb.ne_nil hlast
  rw [hcut]
  constructor
  · intro h
    have hsuffix : [b, a] <:+ place.map encode := List.reverse_prefix.mp h
    obtain ⟨top, htop⟩ := hsuffix
    obtain ⟨top, last, rfl, -, hlast⟩ := List.append_eq_map_iff.mp htop
    cases last with
    | nil => cases hlast
    | cons x last =>
      cases last with
      | nil => cases hlast
      | cons y last =>
        simp only [List.map_cons, List.cons.injEq, List.map_eq_nil_iff] at hlast
        obtain ⟨hx, hy, rfl⟩ := hlast
        rw [(encode_eq_iff hb.safe).mp hx, (encode_eq_iff ha.safe).mp hy]
        exact ⟨top, rfl⟩
  · rintro ⟨top, rfl⟩
    refine ⟨(top.map encode).reverse, ?_⟩
    simp [pathTo, (encode_eq_iff ha.safe).mpr, (encode_eq_iff hb.safe).mpr]

theorem cleanEnd_append {a t : Str} {c : Char} (hc : isC0OrSpace c = false) :
    ((a ++ c :: t).reverse.dropWhile isC0OrSpace).reverse =
      a ++ c :: (t.reverse.dropWhile isC0OrSpace).reverse := by
  have hrev : (a ++ c :: t).reverse = t.reverse ++ c :: a.reverse := by simp
  rw [hrev, List.dropWhile_append]
  split
  · next h =>
    rw [List.isEmpty_iff] at h
    simp [h, hc]
  · simp

theorem not_isTabOrNewline {c : Char} (h : isC0OrSpace c = false) : isTabOrNewline c = false := by
  simp only [isC0OrSpace, decide_eq_false_iff_not] at h
  simp only [isTabOrNewline, Bool.or_eq_false_iff, beq_eq_false_iff_ne]
  omega

theorem clean_append {a t : Str} (ha : ∀ c ∈ a, isC0OrSpace c = false) (hne : a ≠ [])
    (ht : ∀ c ∈ t.head?, isC0OrSpace c = false) : clean (a ++ '/' :: t) = a ++ '/' :: clean t := by
  have hhead : ∀ c ∈ (a ++ '/' :: t).head?, isC0OrSpace c = false := by
    intro c hc
    rw [List.head?_append_of_ne_nil _ hne] at hc
    exact ha c (List.mem_of_mem_head? hc)
  have hkeep : a.filter (!isTabOrNewline ·) = a :=
    List.filter_eq_self.mpr fun c hc => by simp [not_isTabOrNewline (ha c hc)]
  rw [clean, clean, Str.dropWhile_of_head hhead, Str.dropWhile_of_head ht,
    cleanEnd_append (by decide), List.filter_append, hkeep]
  exact congrArg (a ++ ·) (List.filter_cons_of_pos (by decide))

theorem Origin.plain_text (origin : Origin) : ∀ c ∈ origin.text, isC0OrSpace c = false := by
  intro c hc
  have hscheme : ∀ c ∈ origin.scheme, isC0OrSpace c = false := by
    rcases origin.special with h | h
    · simp [h, isC0OrSpace]
    · simp [h, isC0OrSpace]
  simp only [text, List.mem_append, List.mem_cons] at hc
  rcases hc with hc | rfl | rfl | rfl | hc
  · exact hscheme c hc
  · rfl
  · rfl
  · rfl
  · exact (origin.plain c hc).2.2

theorem Origin.afterAuthority (origin : Origin) (t : Str) :
    Url.afterAuthority (origin.text ++ '/' :: t) = '/' :: t := by
  have hscheme (s : Str) : (origin.scheme ++ ':' :: s).dropWhile (· ≠ ':') = ':' :: s := by
    rcases origin.special with h | h
    · rw [h]
      simp
    · rw [h]
      simp
  have hslashes : ('/' :: '/' :: (origin.authority ++ '/' :: t)).dropWhile isSlash =
      origin.authority ++ '/' :: t := by
    cases ha : origin.authority with
    | nil => exact absurd ha origin.ne_nil
    | cons c rest =>
      have hc : isSlash c = false := (origin.plain c (ha ▸ List.mem_cons_self)).1
      simp [isSlash] at hc
      simp [List.dropWhile, isSlash, hc]
  have hrest : (origin.authority ++ '/' :: t).dropWhile (fun c => !isSlash c && !endsPath c) =
      '/' :: t := by
    rw [List.dropWhile_append_of_pos fun c hc => by
      rw [(origin.plain c hc).1, (origin.plain c hc).2.1]
      rfl]
    simp [List.dropWhile, isSlash]
  unfold Url.afterAuthority
  rw [text, List.append_assoc, List.cons_append, hscheme, List.drop_succ_cons, List.drop_zero,
    List.cons_append, List.cons_append, hslashes, hrest]

theorem Origin.pathOf (origin : Origin) {t : Str} (ht : ∀ c ∈ t.head?, isC0OrSpace c = false) :
    Url.pathOf (origin.text ++ '/' :: t) = serialize (pathState [] [] (clean t)) := by
  have hne : origin.text ≠ [] := by simp [text]
  rw [Url.pathOf, segments, clean_append origin.plain_text hne ht, origin.afterAuthority]
  rfl

end RagPlatform.Lib.Url
