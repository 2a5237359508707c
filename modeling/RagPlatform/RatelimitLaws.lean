import RagPlatform.Ratelimit
import RagPlatform.Security

/-! The spelling of ids, and what follows for the keys of the counters. -/

namespace RagPlatform

open Lib

theorem hexValue_digitChar {n : Nat} (h : n < 16) : hexValue n.digitChar = some n := by
  have : ∀ n < 16, hexValue n.digitChar = some n := by decide
  exact this n h

theorem hexNumber_append (s : Str) (c : Char) : hexNumber (s ++ [c]) =
    (hexNumber s).bind fun n => (hexValue c).map (16 * n + ·) := by
  simp only [hexNumber, List.foldlM_append, List.foldlM_cons, List.foldlM_nil, bind_pure]
  rfl

theorem hexNumber_toDigits (n : Nat) : hexNumber (Nat.toDigits 16 n) = some n := by
  induction n using Nat.base_induction 16 (by decide) with
  | single m hm =>
    simp [Nat.toDigits_of_lt_base hm, hexNumber, hexValue_digitChar hm]
  | digit m k hk hm ih =>
    rw [← Nat.toDigits_append_toDigits (by decide) hm hk, Nat.toDigits_of_lt_base hk,
      hexNumber_append, ih, hexValue_digitChar hk]
    rfl

theorem hexNumber_pad (k : Nat) (s : Str) : hexNumber (List.replicate k '0' ++ s) = hexNumber s := by
  induction k with
  | zero => rfl
  | succ k ih => exact ih

namespace Uuid

/-- The digits of `str`, without the dashes. -/
def hex (u : Uuid) : Str :=
  let digits := Nat.toDigits 16 u.toNat
  List.replicate (32 - digits.length) '0' ++ digits

theorem hexNumber_hex (u : Uuid) : hexNumber u.hex = some u.toNat :=
  (hexNumber_pad _ _).trans (hexNumber_toDigits _)

theorem digit_of_mem_hex {u : Uuid} {c : Char} (hc : c ∈ u.hex) : (hexValue c).isSome := by
  have hfold : ∀ (s : Str) (n : Nat), (s.foldlM (fun n c => (hexValue c).map (16 * n + ·)) n).isSome →
      ∀ c ∈ s, (hexValue c).isSome := by
    intro s
    induction s with
    | nil => simp
    | cons d s ih =>
      intro n h c hc
      rw [List.foldlM_cons] at h
      cases hd : hexValue d with
      | none => simp [hd] at h
      | some x =>
        rcases List.mem_cons.mp hc with rfl | hc
        · simp [hd]
        · simp only [hd, Option.map_some, Option.bind_eq_bind, Option.bind_some] at h
          exact ih _ h c hc
  refine hfold u.hex 0 ?_ c hc
  have h := u.hexNumber_hex
  rw [hexNumber] at h
  rw [h]
  rfl

theorem str_eq (u : Uuid) : u.str = u.hex.take 8 ++ '-' :: ((u.hex.drop 8).take 4 ++ '-' ::
    ((u.hex.drop 12).take 4 ++ '-' :: ((u.hex.drop 16).take 4 ++ '-' :: u.hex.drop 20))) := by
  simp [str, hex, Str.join, List.intercalate]

theorem mem_str {u : Uuid} {c : Char} (hc : c ∈ u.str) : c = '-' ∨ c ∈ u.hex := by
  rw [str_eq] at hc
  simp only [List.mem_append, List.mem_cons] at hc
  rcases hc with h | rfl | h | rfl | h | rfl | h | rfl | h
  · exact .inr (List.mem_of_mem_take h)
  · exact .inl rfl
  · exact .inr (List.mem_of_mem_drop (List.mem_of_mem_take h))
  · exact .inl rfl
  · exact .inr (List.mem_of_mem_drop (List.mem_of_mem_take h))
  · exact .inl rfl
  · exact .inr (List.mem_of_mem_drop (List.mem_of_mem_take h))
  · exact .inl rfl
  · exact .inr (List.mem_of_mem_drop h)

theorem hex_eq (u : Uuid) : u.hex.take 8 ++ ((u.hex.drop 8).take 4 ++ ((u.hex.drop 12).take 4 ++
    ((u.hex.drop 16).take 4 ++ u.hex.drop 20))) = u.hex := by
  have h (m n : Nat) : (u.hex.drop m).take n ++ u.hex.drop (m + n) = u.hex.drop m := by
    rw [← List.drop_drop, List.take_append_drop]
  rw [h 16 4, h 12 4, h 8 4, List.take_append_drop]

theorem str_filter (u : Uuid) : u.str.filter (· ≠ '-') = u.hex := by
  have hdash : u.hex.filter (· ≠ '-') = u.hex := by
    refine List.filter_eq_self.mpr fun c hc => decide_eq_true fun hc' => ?_
    exact absurd (digit_of_mem_hex (hc' ▸ hc)) (by decide)
  have hsplit := congrArg (List.filter (· ≠ '-')) u.hex_eq
  rw [hdash] at hsplit
  rw [← hsplit, str_eq]
  simp [List.filter_append]

theorem str_injective : Function.Injective str := by
  intro u v h
  have hhex : u.hex = v.hex := by rw [← str_filter, ← str_filter, h]
  have hn : some u.toNat = some v.toNat := by rw [← hexNumber_hex, ← hexNumber_hex, hhex]
  exact congrArg mk (Option.some.inj hn)

theorem colon_not_mem_str (u : Uuid) : ':' ∉ u.str := by
  intro h
  rcases mem_str h with h | h
  · exact absurd h (by decide)
  · exact absurd (digit_of_mem_hex h) (by decide)

end Uuid

theorem takeWhile_colon {s : Str} (h : ':' ∉ s) (s' : Str) :
    (s ++ ":".toList ++ s').takeWhile (· ≠ ':') = s := by
  rw [List.append_assoc, List.takeWhile_append_of_pos fun c hc => ?_]
  · change s ++ List.takeWhile _ (':' :: s') = s
    simp
  · exact decide_eq_true fun hc' => h (hc' ▸ hc)

theorem bucket_tenant {t u : Uuid} {m n : Nat}
    (h : bucket (rateLimitKey t) m = bucket (rateLimitKey u) n) : t = u := by
  have ht := takeWhile_colon t.colon_not_mem_str (toString m).toList
  have hu := takeWhile_colon u.colon_not_mem_str (toString n).toList
  unfold bucket rateLimitKey at h
  generalize (toString m).toList = s at *
  generalize (toString n).toList = s' at *
  simp only [List.append_assoc] at h ht hu
  have htail := List.append_cancel_left (List.append_cancel_left h)
  exact Uuid.str_injective (by rw [← ht, ← hu, htail])

end RagPlatform
