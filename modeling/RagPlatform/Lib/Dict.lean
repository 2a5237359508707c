import Mathlib.Data.List.Basic

/-! Python's `dict`, as the list of its entries in insertion order. -/

namespace RagPlatform.Lib

abbrev Dict (K V : Type) := List (K × V)

namespace Dict

variable {K V : Type} [DecidableEq K]

def get? (d : Dict K V) (k : K) : Option V := (d.find? (·.1 = k)).map Prod.snd

/-- `d[k] = v`: a key that is there keeps its place. -/
def set (d : Dict K V) (k : K) (v : V) : Dict K V :=
  if (d.get? k).isSome then d.map fun e => if e.1 = k then (k, v) else e else d ++ [(k, v)]

def setdefault (d : Dict K V) (k : K) (v : V) : Dict K V :=
  if (d.get? k).isSome then d else d ++ [(k, v)]

/-- JavaScript's `Map.delete`. -/
def delete (d : Dict K V) (k : K) : Dict K V := d.filter (·.1 ≠ k)

def keys (d : Dict K V) : List K := d.map Prod.fst

theorem get?_cons (e : K × V) (d : Dict K V) (k : K) :
    get? (e :: d) k = if e.1 = k then some e.2 else d.get? k := by
  by_cases h : e.1 = k
  · simp [get?, h]
  · simp [get?, h]

theorem get?_append (d d' : Dict K V) (k : K) : get? (d ++ d') k = (d.get? k).or (d'.get? k) := by
  simp [get?, List.find?_append, Option.map_or]

theorem get?_set_self (d : Dict K V) (k : K) (v : V) : (d.set k v).get? k = some v := by
  unfold set
  split
  · next h =>
    induction d with
    | nil => simp [get?] at h
    | cons e d ih =>
      rw [List.map_cons, get?_cons]
      by_cases he : e.1 = k
      · simp [he]
      · rw [get?_cons, if_neg he] at h
        simp [he, ih h]
  · next h => simp [get?_append, Option.not_isSome_iff_eq_none.mp h, get?_cons]

theorem get?_set_of_ne (d : Dict K V) {k l : K} (v : V) (h : l ≠ k) :
    (d.set k v).get? l = d.get? l := by
  unfold set
  split
  · clear * - h
    induction d with
    | nil => rfl
    | cons e d ih =>
      rw [List.map_cons, get?_cons, get?_cons, ih]
      by_cases he : e.1 = k
      · simp [he, h.symm]
      · simp [he]
  · rw [get?_append, get?_cons, if_neg h.symm]
    exact Option.or_none

theorem get?_delete (d : Dict K V) (k l : K) :
    (d.delete k).get? l = if l = k then none else d.get? l := by
  induction d with
  | nil => simp [delete, get?]
  | cons e d ih =>
    unfold delete at ih ⊢
    by_cases hek : e.1 = k
    · rw [List.filter_cons_of_neg (by simpa using hek), ih, get?_cons]
      by_cases hl : l = k
      · simp [hl]
      · rw [if_neg hl, if_neg hl, if_neg fun hel => hl (hel.symm.trans hek)]
    · rw [List.filter_cons_of_pos (by simpa using hek), get?_cons, get?_cons, ih]
      by_cases hel : e.1 = l
      · rw [if_pos hel, if_pos hel, if_neg fun hl => hek (hel.trans hl)]
      · rw [if_neg hel, if_neg hel]

theorem mem_of_get? {d : Dict K V} {k : K} {v : V} (h : d.get? k = some v) : (k, v) ∈ d := by
  obtain ⟨e, he, rfl⟩ := Option.map_eq_some_iff.mp h
  have hk : e.1 = k := by simpa using List.find?_some he
  exact hk ▸ List.mem_of_find?_eq_some he

theorem mem_set {d : Dict K V} {k : K} {v : V} {e : K × V} (h : e ∈ d.set k v) :
    e ∈ d ∨ e = (k, v) := by
  unfold set at h
  split at h
  · obtain ⟨e', he', rfl⟩ := List.mem_map.mp h
    split
    · exact .inr rfl
    · exact .inl he'
  · simpa using h

theorem mem_setdefault {d : Dict K V} {k : K} {v : V} {e : K × V} (h : e ∈ d.setdefault k v) :
    e ∈ d ∨ e = (k, v) := by
  unfold setdefault at h
  split at h
  · exact .inl h
  · simpa using h

theorem get?_setdefault (d : Dict K V) (k l : K) (v : V) :
    (d.setdefault k v).get? l = (d.get? l).or (if k = l then some v else none) := by
  unfold setdefault
  split
  · next h =>
    by_cases hkl : k = l
    · obtain ⟨w, hw⟩ := Option.isSome_iff_exists.mp h
      rw [← hkl, hw]
      rfl
    · rw [if_neg hkl, Option.or_none]
  · rw [get?_append, get?_cons]
    rfl

theorem isSome_get? {d : Dict K V} {k : K} : (d.get? k).isSome ↔ k ∈ d.keys := by
  simp [get?, keys, List.find?_isSome]

theorem get?_eq_none {d : Dict K V} {k : K} (h : k ∉ d.keys) : d.get? k = none :=
  Option.not_isSome_iff_eq_none.mp fun hsome => h (isSome_get?.mp hsome)

theorem keys_set (d : Dict K V) (k : K) (v : V) :
    (d.set k v).keys = if k ∈ d.keys then d.keys else d.keys ++ [k] := by
  unfold set
  simp only [isSome_get?]
  split
  · unfold keys
    rw [List.map_map]
    refine List.map_congr_left fun e _ => ?_
    simp only [Function.comp_apply]
    split
    · next h => exact h.symm
    · rfl
  · simp [keys]

theorem nodup_keys_set {d : Dict K V} (h : d.keys.Nodup) (k : K) (v : V) :
    (d.set k v).keys.Nodup := by
  rw [keys_set]
  split
  · exact h
  · next hk => exact List.nodup_append.mpr ⟨h, by simp, by simpa using fun a ha => by rintro rfl; exact hk ha⟩

/-- `for k, w in entries: d[k] = f(d.get(k), w)`, where no key comes twice. -/
theorem get?_foldl_update {W : Type} (f : Option V → W → V) {entries : Dict K W}
    (h : entries.keys.Nodup) (d : Dict K V) (k : K) :
    (entries.foldl (fun d e => d.set e.1 (f (d.get? e.1) e.2)) d).get? k =
      ((entries.get? k).map (f (d.get? k))).or (d.get? k) := by
  induction entries generalizing d with
  | nil => rfl
  | cons e entries ih =>
    obtain ⟨he, hrest⟩ := List.nodup_cons.mp h
    rw [List.foldl_cons, ih hrest, get?_cons]
    by_cases hk : e.1 = k
    · subst hk
      rw [if_pos rfl, get?_eq_none he, get?_set_self]
      rfl
    · rw [if_neg hk, get?_set_of_ne _ _ (Ne.symm hk)]

theorem nodup_keys_foldl_set {W : Type} (f : Dict K V → K × W → V) (entries : Dict K W)
    {d : Dict K V} (h : d.keys.Nodup) :
    (entries.foldl (fun d e => d.set e.1 (f d e)) d).keys.Nodup := by
  induction entries generalizing d with
  | nil => exact h
  | cons e entries ih => exact ih (nodup_keys_set h _ _)

section Rename

variable {L U : Type} [DecidableEq L] {f : K → L} (hf : Function.Injective f) (g : V → U)

def rename (f : K → L) (g : V → U) (d : Dict K V) : Dict L U := d.map (Prod.map f g)

omit [DecidableEq K] [DecidableEq L] in
@[simp] theorem keys_rename (d : Dict K V) : (d.rename f g).keys = d.keys.map f := by
  simp [keys, rename]

include hf

@[simp] theorem get?_rename (d : Dict K V) (k : K) :
    (d.rename f g).get? (f k) = (d.get? k).map g := by
  induction d with
  | nil => rfl
  | cons e d ih =>
    change get? (Prod.map f g e :: rename f g d) (f k) = _
    rw [get?_cons, get?_cons, ih]
    by_cases he : e.1 = k
    · simp [he]
    · simp [he, hf.eq_iff]

theorem rename_set (d : Dict K V) (k : K) (v : V) :
    (d.set k v).rename f g = (d.rename f g).set (f k) (g v) := by
  unfold set
  rw [get?_rename hf, Option.isSome_map]
  split
  · simp only [rename, List.map_map]
    refine List.map_congr_left fun e _ => ?_
    by_cases he : e.1 = k
    · simp [he]
    · simp [he, hf.eq_iff]
  · simp [rename]

theorem rename_setdefault (d : Dict K V) (k : K) (v : V) :
    (d.setdefault k v).rename f g = (d.rename f g).setdefault (f k) (g v) := by
  unfold setdefault
  rw [get?_rename hf, Option.isSome_map]
  split
  · rfl
  · simp [rename]

end Rename

end Dict

end RagPlatform.Lib
