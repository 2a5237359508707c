import Mathlib.Data.List.Infix

/-! Every occurrence of one text in another is replaced, from left to right. -/

namespace RagPlatform.Lib

variable {α : Type*} [DecidableEq α] {old new s t : List α} {sep : α}

/-- The next `skip` characters have been replaced already. -/
def replaceFrom (old new : List α) : Nat → List α → List α
  | _, [] => []
  | skip + 1, _ :: s => replaceFrom old new skip s
  | 0, c :: s =>
    if old <+: c :: s then new ++ replaceFrom old new (old.length - 1) s
    else c :: replaceFrom old new 0 s

/-- `s.replace(old, new)` -/
def replace (old new s : List α) : List α :=
  if old = [] then new ++ s.flatMap (· :: new) else replaceFrom old new 0 s

theorem replaceFrom_length (old new s : List α) : replaceFrom old new s.length s = [] := by
  induction s with
  | nil => rfl
  | cons c s ih => exact ih

theorem replace_self (hold : old ≠ []) (new : List α) : replace old new old = new := by
  rw [replace, if_neg hold]
  cases old with
  | nil => exact absurd rfl hold
  | cons c s =>
    rw [replaceFrom, if_pos (List.prefix_refl _), List.length_cons, Nat.add_sub_cancel,
      replaceFrom_length, List.append_nil]

theorem replace_of_not_infix (h : ¬old <:+: s) : replace old new s = s := by
  have hold : old ≠ [] := by
    rintro rfl
    exact h List.nil_infix
  rw [replace, if_neg hold]
  induction s with
  | nil => rfl
  | cons c s ih =>
    rw [replaceFrom, if_neg fun hpre => h hpre.isInfix, ih fun hs => h (List.infix_cons hs)]

theorem infix_replace (hold : old ≠ []) (h : old <:+: s) : new <:+: replace old new s := by
  rw [replace, if_neg hold]
  induction s with
  | nil => exact absurd (List.infix_nil.mp h) hold
  | cons c s ih =>
    rw [replaceFrom]
    by_cases hpre : old <+: c :: s
    · rw [if_pos hpre]
      exact (List.prefix_append _ _).isInfix
    · rw [if_neg hpre]
      exact List.infix_cons (ih ((List.infix_cons_iff.mp h).resolve_left hpre))

theorem mem_replaceFrom {skip : Nat} {c : α} (h : c ∈ replaceFrom old new skip s) :
    c ∈ new ∨ c ∈ s := by
  induction s generalizing skip with
  | nil => cases h
  | cons d s ih =>
    cases skip with
    | succ skip => exact (ih h).imp_right (List.mem_cons_of_mem d)
    | zero =>
      rw [replaceFrom] at h
      split at h
      · obtain h | h := List.mem_append.mp h
        · exact .inl h
        · exact (ih h).imp_right (List.mem_cons_of_mem d)
      · obtain rfl | h := List.mem_cons.mp h
        · exact .inr List.mem_cons_self
        · exact (ih h).imp_right (List.mem_cons_of_mem d)

theorem mem_replace {c : α} (hold : old ≠ []) (h : c ∈ replace old new s) : c ∈ new ∨ c ∈ s := by
  rw [replace, if_neg hold] at h
  exact mem_replaceFrom h

omit [DecidableEq α] in
theorem prefix_append_sep (hsep : sep ∉ old) : old <+: s ++ sep :: t ↔ old <+: s := by
  constructor
  · intro h
    obtain hs | ⟨u, rfl⟩ := List.prefix_or_prefix_of_prefix h (List.prefix_append s (sep :: t))
    · exact hs
    · cases u with
      | nil => rw [List.append_nil]
      | cons c u =>
        have hc := List.cons_prefix_cons.mp ((List.prefix_append_right_inj s).mp h)
        exact absurd (by simp [hc.1]) hsep
  · exact fun h => h.trans (List.prefix_append s _)

theorem replaceFrom_sep (hold : old ≠ []) (hsep : sep ∉ old) (new t : List α) :
    replaceFrom old new 0 (sep :: t) = sep :: replaceFrom old new 0 t := by
  rw [replaceFrom, if_neg]
  intro h
  exact hold (List.prefix_nil.mp ((prefix_append_sep (s := []) hsep).mp h))

theorem replaceFrom_append_sep (hsep : sep ∉ old) (new t : List α) {skip : Nat}
    (hskip : skip ≤ s.length) : replaceFrom old new skip (s ++ sep :: t) =
      replaceFrom old new skip s ++ replaceFrom old new 0 (sep :: t) := by
  induction s generalizing skip with
  | nil =>
    obtain rfl := Nat.le_zero.mp hskip
    rfl
  | cons c s ih =>
    cases skip with
    | succ skip => exact ih (Nat.le_of_succ_le_succ hskip)
    | zero =>
      rw [List.cons_append, replaceFrom, replaceFrom, ← List.cons_append]
      by_cases hpre : old <+: c :: s
      · rw [if_pos ((prefix_append_sep hsep).mpr hpre), if_pos hpre,
          ih (Nat.sub_le_of_le_add hpre.length_le), List.append_assoc]
      · rw [if_neg (mt (prefix_append_sep hsep).mp hpre), if_neg hpre, ih (Nat.zero_le _),
          List.cons_append]

theorem replace_parts (hold : old ≠ []) (hsep : sep ∉ old) (new : List α) (parts : List (List α)) :
    replace old new (parts.flatMap (sep :: ·)) =
      (parts.map (replace old new)).flatMap (sep :: ·) := by
  have hreplace (s : List α) : replace old new s = replaceFrom old new 0 s := if_neg hold
  rw [hreplace]
  induction parts with
  | nil => rfl
  | cons part parts ih =>
    rw [List.flatMap_cons, List.map_cons, List.flatMap_cons, List.cons_append,
      replaceFrom_sep hold hsep, ← ih, List.cons_append, hreplace]
    cases parts with
    | nil => simp [replaceFrom]
    | cons next parts =>
      rw [List.flatMap_cons, List.cons_append, replaceFrom_append_sep hsep new _ (Nat.zero_le _)]

theorem takeWhile_part {part : List α} (h : sep ∉ part) (parts : List (List α)) :
    (part ++ parts.flatMap (sep :: ·)).takeWhile (· ≠ sep) = part := by
  have hkeep : ∀ c ∈ part, decide (c ≠ sep) = true := fun c hc =>
    decide_eq_true (ne_of_mem_of_not_mem hc h)
  rw [List.takeWhile_append_of_pos hkeep]
  cases parts with
  | nil => simp
  | cons next parts => simp

theorem parts_injective {parts parts' : List (List α)} (h : ∀ part ∈ parts, sep ∉ part)
    (h' : ∀ part ∈ parts', sep ∉ part)
    (heq : parts.flatMap (sep :: ·) = parts'.flatMap (sep :: ·)) : parts = parts' := by
  induction parts generalizing parts' with
  | nil =>
    cases parts' with
    | nil => rfl
    | cons part' parts' => cases heq
  | cons part parts ih =>
    cases parts' with
    | nil => cases heq
    | cons part' parts' =>
      obtain ⟨hpart, hparts⟩ := List.forall_mem_cons.mp h
      obtain ⟨hpart', hparts'⟩ := List.forall_mem_cons.mp h'
      have htail : part ++ parts.flatMap (sep :: ·) = part' ++ parts'.flatMap (sep :: ·) :=
        List.tail_eq_of_cons_eq heq
      have hfirst := congrArg (List.takeWhile (· ≠ sep)) htail
      rw [takeWhile_part hpart, takeWhile_part hpart'] at hfirst
      subst hfirst
      rw [ih hparts hparts' (List.append_cancel_left htail)]

end RagPlatform.Lib
