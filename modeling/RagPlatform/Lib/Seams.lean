import Mathlib.Data.List.Infix

/-! What stands in a text that is joined from parts: in one of them, or across a seam. -/

namespace RagPlatform.Lib

section

variable {α : Type*} {sep : α} {needle : List α} {parts : List (List α)}

/-- The seam before part `i` is where the text has its `k`th character. -/
def Straddles (sep : α) (needle : List α) (parts : List (List α)) : Prop :=
  ∃ i < parts.length, 0 < i ∧ ∃ k < needle.length, needle[k]? = some sep ∧
    needle.take k <:+ [sep].intercalate (parts.take i) ∧
    needle.drop (k + 1) <+: [sep].intercalate (parts.drop i)

instance [DecidableEq α] : Decidable (Straddles sep needle parts) :=
  inferInstanceAs (Decidable (∃ i < parts.length, 0 < i ∧ ∃ k < needle.length,
    needle[k]? = some sep ∧ needle.take k <:+ [sep].intercalate (parts.take i) ∧
    needle.drop (k + 1) <+: [sep].intercalate (parts.drop i)))

theorem intercalate_append {before after : List (List α)} (hb : before ≠ []) (ha : after ≠ []) :
    [sep].intercalate (before ++ after) =
      [sep].intercalate before ++ sep :: [sep].intercalate after := by
  induction before with
  | nil => exact absurd rfl hb
  | cons part before ih =>
    cases before with
    | nil => simp [List.intercalate_cons_of_ne_nil ha]
    | cons next before =>
      have hrest := ih (List.cons_ne_nil next before)
      rw [List.cons_append] at hrest
      rw [List.cons_append, List.cons_append, List.intercalate_cons_cons, hrest,
        List.intercalate_cons_cons]
      simp only [List.append_assoc]

theorem straddles_iff : Straddles sep needle parts ↔ ∃ before after u v,
    parts = before ++ after ∧ before ≠ [] ∧ after ≠ [] ∧ needle = u ++ sep :: v ∧
      u <:+ [sep].intercalate before ∧ v <+: [sep].intercalate after := by
  constructor
  · rintro ⟨i, hi, hpos, k, hk, hsep, hu, hv⟩
    refine ⟨parts.take i, parts.drop i, needle.take k, needle.drop (k + 1),
      (List.take_append_drop i parts).symm, ?_, ?_, ?_, hu, hv⟩
    · exact List.ne_nil_of_length_pos (by rw [List.length_take]; omega)
    · exact List.ne_nil_of_length_pos (by rw [List.length_drop]; omega)
    · have hget : needle[k] = sep := List.getElem_eq_iff hk |>.mpr hsep
      rw [← hget, ← List.drop_eq_getElem_cons hk, List.take_append_drop]
  · rintro ⟨before, after, u, v, rfl, hb, ha, rfl, hu, hv⟩
    have hbefore := List.length_pos_iff.mpr hb
    have hafter := List.length_pos_iff.mpr ha
    refine ⟨before.length, ?_, hbefore, u.length, ?_, ?_, ?_, ?_⟩
    · rw [List.length_append]
      omega
    · simp
    · simp
    · simpa using hu
    · simpa using hv

theorem infix_of_part {part : List α} (h : part ∈ parts) : part <:+: [sep].intercalate parts := by
  induction parts with
  | nil => cases h
  | cons next parts ih =>
    by_cases hparts : parts = []
    · subst hparts
      rw [List.mem_singleton.mp h, List.intercalate_singleton]
    · rw [List.intercalate_cons_of_ne_nil hparts, List.append_assoc]
      obtain rfl | h := List.mem_cons.mp h
      · exact List.infix_append_left
      · exact (ih h).trans (List.infix_append_right.trans List.infix_append_right)

theorem straddles_cons (part : List α) (h : Straddles sep needle parts) :
    Straddles sep needle (part :: parts) := by
  obtain ⟨before, after, u, v, rfl, hb, ha, hneedle, hu, hv⟩ := straddles_iff.mp h
  refine straddles_iff.mpr ⟨part :: before, after, u, v, rfl, List.cons_ne_nil part before, ha,
    hneedle, ?_, hv⟩
  rw [List.intercalate_cons_of_ne_nil hb]
  exact hu.trans (List.suffix_append _ _)

theorem straddles_head {part u v : List α} (hparts : parts ≠ []) (hu : u <:+ part)
    (hv : v <+: [sep].intercalate parts) : Straddles sep (u ++ sep :: v) (part :: parts) := by
  refine straddles_iff.mpr ⟨[part], parts, u, v, rfl, List.cons_ne_nil part [], hparts, rfl, ?_, hv⟩
  rwa [List.intercalate_singleton]

theorem infix_intercalate (hneedle : needle ≠ []) :
    needle <:+: [sep].intercalate parts ↔
      (∃ part ∈ parts, needle <:+: part) ∨ Straddles sep needle parts := by
  constructor
  · intro h
    induction parts with
    | nil => exact absurd (List.infix_nil.mp h) hneedle
    | cons part parts ih =>
      by_cases hparts : parts = []
      · subst hparts
        rw [List.intercalate_singleton] at h
        exact .inl ⟨part, List.mem_singleton_self part, h⟩
      have hlater (hrest : needle <:+: [sep].intercalate parts) :
          (∃ p ∈ part :: parts, needle <:+: p) ∨ Straddles sep needle (part :: parts) := by
        obtain ⟨p, hp, hocc⟩ | hocc := ih hrest
        · exact .inl ⟨p, List.mem_cons_of_mem part hp, hocc⟩
        · exact .inr (straddles_cons part hocc)
      rw [List.intercalate_cons_of_ne_nil hparts, List.append_assoc, List.infix_append_iff] at h
      obtain h | h | ⟨u, w, rfl, hu, hw⟩ := h
      · exact .inl ⟨part, List.mem_cons_self, h⟩
      · obtain h | h := List.infix_cons_iff.mp h
        · obtain ⟨v, rfl, hv⟩ := (List.prefix_cons_iff.mp h).resolve_left hneedle
          exact .inr (straddles_head hparts (List.nil_suffix (l := part)) hv)
        · exact hlater h
      · obtain rfl | ⟨v, rfl, hv⟩ := List.prefix_cons_iff.mp hw
        · rw [List.append_nil]
          exact .inl ⟨part, List.mem_cons_self, hu.isInfix⟩
        · exact .inr (straddles_head hparts hu hv)
  · rintro (⟨part, hpart, h⟩ | h)
    · exact h.trans (infix_of_part hpart)
    · obtain ⟨before, after, u, v, rfl, hb, ha, rfl, hu, hv⟩ := straddles_iff.mp h
      rw [intercalate_append hb ha]
      exact List.infix_append_iff.mpr (.inr (.inr ⟨u, sep :: v, rfl, hu,
        List.cons_prefix_cons.mpr ⟨rfl, hv⟩⟩))

end

end RagPlatform.Lib
