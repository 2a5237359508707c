import RagPlatform.Lib.Text

/-! Texts that are read line by line, where a marked line heads what follows it. -/

namespace RagPlatform.Lib

/-- Some characters end a line, and some lines bear a mark, which shows before the first inert
character of the line. -/
structure Framing (M : Type*) where
  breaks : Char → Bool
  mark : Str → Option M
  inert : Char → Bool
  mark_nil : mark [] = none
  inert_of_breaks : ∀ c, breaks c = true → inert c = true
  mark_append : ∀ s c t, inert c = true → mark (s ++ c :: t) = mark s

namespace Framing

variable {M : Type*} (F : Framing M)

def marks (line : Str) : Bool := (F.mark line).isSome

def lines (s : Str) : List Str := s.splitOnP F.breaks

def header (s : Str) : Str := s.takeWhile fun c => !F.breaks c

def reopens : Str → Bool
  | [] => false
  | c :: s => F.breaks c && F.marks s || reopens s

def read : List Str → List (List Str)
  | [] => []
  | line :: lines =>
    if F.marks line then (line :: lines.takeWhile fun l => !F.marks l) :: read lines
    else read lines

variable {F} {s t : Str} {c : Char}

theorem lines_append (h : F.breaks c = true) (s t : Str) :
    F.lines (s ++ c :: t) = F.lines s ++ F.lines t := List.splitOnP_append_cons s t h

theorem lines_plain (h : ∀ c ∈ s, F.breaks c = false) : F.lines s = [s] :=
  List.splitOnP_eq_singleton h

theorem lines_cons (h : F.breaks c = false) (s : Str) :
    F.lines (c :: s) = (F.lines s).modifyHead (c :: ·) := by
  rw [lines, List.splitOnP_cons_eq_if_modifyHead, h]
  rfl

theorem lines_eq_header (s : Str) : F.lines s = F.header s :: (F.lines s).tail := by
  induction s with
  | nil => rfl
  | cons c s ih =>
    cases hc : F.breaks c with
    | true =>
      have hlines : F.lines (c :: s) = [] :: F.lines s := lines_append hc [] s
      simp [hlines, header, hc]
    | false =>
      rw [lines_cons hc, ih]
      simp [header, hc]

theorem marks_nil : F.marks [] = false := by
  rw [marks, F.mark_nil]
  rfl

theorem marks_append (h : F.inert c = true) (s t : Str) : F.marks (s ++ c :: t) = F.marks s :=
  congrArg Option.isSome (F.mark_append s c t h)

theorem mark_header (s : Str) : F.mark (F.header s) = F.mark s := by
  have hsplit := List.takeWhile_append_dropWhile (p := fun c => !F.breaks c) (l := s)
  cases hrest : s.dropWhile fun c => !F.breaks c with
  | nil =>
    rw [hrest, List.append_nil] at hsplit
    rw [header, hsplit]
  | cons c rest =>
    have hhead := List.head?_dropWhile_not (fun c => !F.breaks c) s
    rw [hrest] at hhead hsplit
    have hc : F.breaks c = true := by simpa using hhead
    have hmark := F.mark_append (F.header s) c rest (F.inert_of_breaks c hc)
    rw [← hmark]
    exact congrArg F.mark hsplit

theorem marks_header (s : Str) : F.marks (F.header s) = F.marks s :=
  congrArg Option.isSome (mark_header s)

theorem any_tail_lines (s : Str) : (F.lines s).tail.any F.marks = F.reopens s := by
  induction s with
  | nil => rfl
  | cons c s ih =>
    cases hc : F.breaks c with
    | true =>
      have hlines : F.lines (c :: s) = [] :: F.lines s := lines_append hc [] s
      rw [hlines, List.tail_cons, lines_eq_header, List.any_cons, marks_header, ih, reopens, hc,
        Bool.true_and]
    | false =>
      rw [lines_cons hc, List.tail_modifyHead, ih, reopens, hc, Bool.false_and, Bool.false_or]

theorem filter_tail_eq_nil : (F.lines s).tail.filter F.marks = [] ↔ F.reopens s = false := by
  rw [← any_tail_lines, List.filter_eq_nil_iff, List.any_eq_false]

theorem filter_lines (h : F.marks s = true) :
    (F.lines s).filter F.marks = F.header s :: (F.lines s).tail.filter F.marks := by
  rw [lines_eq_header, List.filter_cons_of_pos (marks_header s ▸ h), List.tail_cons]

theorem filterMap_mark (ls : List Str) :
    ls.filterMap F.mark = (ls.filter F.marks).filterMap F.mark := by
  rw [List.filterMap_filter]
  refine List.filterMap_congr fun l _ => ?_
  cases hl : F.mark l <;> simp [marks, hl]

theorem reopens_append (h : F.inert c = true) (s t : Str) :
    F.reopens (s ++ c :: t) = (F.reopens s || F.reopens (c :: t)) := by
  induction s with
  | nil => rfl
  | cons b s ih =>
    rw [List.cons_append, reopens, reopens, marks_append h, ih, Bool.or_assoc]

theorem reopens_plain_append (h : ∀ c ∈ s, F.breaks c = false) (t : Str) :
    F.reopens (s ++ t) = F.reopens t := by
  induction s with
  | nil => rfl
  | cons b s ih =>
    obtain ⟨hb, hs⟩ := List.forall_mem_cons.mp h
    rw [List.cons_append, reopens, hb, Bool.false_and, Bool.false_or, ih hs]

theorem reopens_plain (h : ∀ c ∈ s, F.breaks c = false) : F.reopens s = false := by
  have happend := reopens_plain_append h []
  rwa [List.append_nil] at happend

theorem reopens_join {sep : Str} (hinert : F.inert c = true)
    (hsep : ∀ d ∈ c :: sep, F.breaks d = false) (parts : List Str) :
    F.reopens (Str.join (c :: sep) parts) = parts.any F.reopens := by
  induction parts with
  | nil => rfl
  | cons p parts ih =>
    cases parts with
    | nil => simp [Str.join, List.intercalate]
    | cons q parts =>
      have hjoin : Str.join (c :: sep) (p :: q :: parts) =
          p ++ c :: (sep ++ Str.join (c :: sep) (q :: parts)) := by
        simp [Str.join, List.intercalate]
      have hrest := reopens_plain_append hsep (Str.join (c :: sep) (q :: parts))
      rw [hjoin, reopens_append hinert, List.any_cons, ← ih, ← hrest, List.cons_append]

variable {first : Str} {parts : List Str}

theorem lines_join (hline : F.breaks '\n' = true) (first : Str) (parts : List Str) :
    F.lines (Str.join ['\n', '\n'] (first :: parts)) =
      F.lines first ++ parts.flatMap fun p => [] :: F.lines p := by
  induction parts generalizing first with
  | nil => simp [Str.join, List.intercalate]
  | cons p parts ih =>
    have hjoin : Str.join ['\n', '\n'] (first :: p :: parts) =
        first ++ '\n' :: ([] ++ '\n' :: Str.join ['\n', '\n'] (p :: parts)) := by
      simp [Str.join, List.intercalate]
    rw [hjoin, lines_append hline, lines_append hline, ih, List.flatMap_cons]
    rfl

theorem flatMap_cons_eq_map_iff {α β : Type*} {f : α → β} {g : α → List β} {xs : List α} :
    (xs.flatMap fun x => f x :: g x) = xs.map f ↔ ∀ x ∈ xs, g x = [] := by
  induction xs with
  | nil => simp
  | cons x xs ih =>
    have hlen : xs.length ≤ (xs.flatMap fun x => f x :: g x).length := by
      rw [List.length_flatMap, ← List.length_map fun x => (f x :: g x).length]
      exact List.length_le_sum_of_one_le _ (by simp)
    rw [List.flatMap_cons, List.map_cons, List.cons_append, List.cons.injEq, List.forall_mem_cons,
      ← ih]
    constructor
    · rintro ⟨-, h⟩
      have hnil : g x = [] := by
        have hboth := congrArg List.length h
        rw [List.length_append, List.length_map] at hboth
        exact List.length_eq_zero_iff.mp (by omega)
      rw [hnil, List.nil_append] at h
      exact ⟨hnil, h⟩
    · rintro ⟨hnil, h⟩
      rw [hnil, List.nil_append]
      exact ⟨rfl, h⟩

theorem filter_join_iff (hline : F.breaks '\n' = true)
    (hfirst : (F.lines first).filter F.marks = []) (hparts : ∀ p ∈ parts, F.marks p = true) :
    (F.lines (Str.join ['\n', '\n'] (first :: parts))).filter F.marks = parts.map F.header ↔
      ∀ p ∈ parts, F.reopens p = false := by
  have hfilter : (F.lines (Str.join ['\n', '\n'] (first :: parts))).filter F.marks =
      parts.flatMap fun p => F.header p :: (F.lines p).tail.filter F.marks := by
    rw [lines_join hline, List.filter_append, hfirst, List.nil_append, List.filter_flatMap]
    refine List.flatMap_congr fun p hp => ?_
    rw [List.filter_cons_of_neg (by simp [marks_nil]), filter_lines (hparts p hp)]
  rw [hfilter, flatMap_cons_eq_map_iff]
  simp only [filter_tail_eq_nil]

theorem read_append {ls : List Str} (h : ls.filter F.marks = []) (rest : List Str) :
    F.read (ls ++ rest) = F.read rest := by
  induction ls with
  | nil => rfl
  | cons l ls ih =>
    have hl : F.marks l = false := by
      simpa using List.filter_eq_nil_iff.mp h l List.mem_cons_self
    rw [List.filter_cons_of_neg (by simp [hl])] at h
    rw [List.cons_append, read, hl]
    exact ih h

theorem takeWhile_unmarked {ls : List Str} (h : ls.filter F.marks = []) (rest : List Str) :
    (ls ++ rest).takeWhile (fun l => !F.marks l) = ls ++ rest.takeWhile fun l => !F.marks l := by
  refine List.takeWhile_append_of_pos fun l hl => ?_
  simpa using List.filter_eq_nil_iff.mp h l hl

theorem read_join (hline : F.breaks '\n' = true)
    (hfirst : (F.lines first).filter F.marks = []) (hparts : ∀ p ∈ parts, F.marks p = true)
    (h : ∀ p ∈ parts, F.reopens p = false) :
    List.Forall₂ (fun group p => ∃ n, group = F.lines p ++ List.replicate n [])
      (F.read (F.lines (Str.join ['\n', '\n'] (first :: parts)))) parts := by
  rw [lines_join hline, read_append hfirst]
  clear hfirst
  induction parts with
  | nil => exact .nil
  | cons p parts ih =>
    obtain ⟨hp, hrest⟩ := List.forall_mem_cons.mp hparts
    obtain ⟨hclean, hothers⟩ := List.forall_mem_cons.mp h
    have htail := filter_tail_eq_nil.mpr hclean
    have hread : F.read (([] :: F.lines p) ++ parts.flatMap fun p => [] :: F.lines p) =
        (F.lines p ++ (parts.flatMap fun p => [] :: F.lines p).takeWhile fun l => !F.marks l) ::
          F.read (parts.flatMap fun p => [] :: F.lines p) := by
      rw [lines_eq_header p, List.cons_append, read, marks_nil, if_neg Bool.false_ne_true,
        List.cons_append, read, if_pos ((marks_header p).trans hp), takeWhile_unmarked htail,
        read_append htail]
      rfl
    rw [List.flatMap_cons, hread]
    refine .cons ?_ (ih hrest hothers)
    cases parts with
    | nil => exact ⟨0, rfl⟩
    | cons q parts =>
      obtain ⟨hq, -⟩ := List.forall_mem_cons.mp hrest
      refine ⟨1, ?_⟩
      rw [List.flatMap_cons, List.cons_append, List.takeWhile_cons, marks_nil, lines_eq_header q,
        List.cons_append, List.takeWhile_cons, marks_header, hq]
      rfl

end Framing

end RagPlatform.Lib
