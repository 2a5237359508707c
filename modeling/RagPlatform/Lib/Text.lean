import Mathlib.Data.List.Basic
import Mathlib.Data.List.TakeWhile
import Mathlib.Data.Rat.Floor

/-! Python's text primitives on lists of code points. -/

namespace RagPlatform.Lib

abbrev Str := List Char

instance : LawfulBEq Str := inferInstance

abbrev Bytes := List UInt8

/-- `str.isspace`, which is also the class `\s` of a `re` pattern on text. -/
def isSpace (c : Char) : Bool :=
  let n := c.toNat
  (9 ≤ n && n ≤ 13) || (28 ≤ n && n ≤ 32) || n == 0x85 || n == 0xA0 || n == 0x1680 ||
    (0x2000 ≤ n && n ≤ 0x200A) || n == 0x2028 || n == 0x2029 || n == 0x202F || n == 0x205F ||
    n == 0x3000

/-- The characters `str.splitlines` breaks at. -/
def isLineBreak (c : Char) : Bool :=
  let n := c.toNat
  (10 ≤ n && n ≤ 13) || (28 ≤ n && n ≤ 30) || n == 0x85 || n == 0x2028 || n == 0x2029

namespace Str

def lstrip (s : Str) : Str := s.dropWhile isSpace

def rstrip (s : Str) : Str := (s.reverse.dropWhile isSpace).reverse

def strip (s : Str) : Str := rstrip (lstrip s)

/-- `str.split()` with no separator. -/
def words (s : Str) : List Str := (s.splitOnP isSpace).filter (· ≠ [])

/-- `sep.join(parts)`. -/
def join (sep : Str) (parts : List Str) : Str := List.intercalate sep parts

def splitlinesFrom : Str → Str → List Str
  | [], [] => []
  | [], line => [line.reverse]
  | '\r' :: '\n' :: s, line => line.reverse :: splitlinesFrom s []
  | c :: s, line =>
    if isLineBreak c then line.reverse :: splitlinesFrom s [] else splitlinesFrom s (c :: line)

def splitlines (s : Str) : List Str := splitlinesFrom s []

def HasText (s : Str) : Prop := ∃ c ∈ s, isSpace c = false

theorem HasText.ne_nil {s : Str} (h : HasText s) : s ≠ [] := by
  rintro rfl
  simp [HasText] at h

theorem HasText.append_left {s : Str} (h : HasText s) (t : Str) : HasText (s ++ t) := by
  obtain ⟨c, hc, hs⟩ := h
  exact ⟨c, by simp [hc], hs⟩

theorem rstrip_eq_nil {s : Str} : rstrip s = [] ↔ ¬ HasText s := by
  simp [rstrip, HasText, List.dropWhile_eq_nil_iff]

theorem hasText_lstrip {s : Str} : HasText (lstrip s) ↔ HasText s := by
  induction s with
  | nil => rfl
  | cons c s ih =>
    cases hc : isSpace c with
    | true => simpa [lstrip, HasText, hc] using ih
    | false => simp [lstrip, HasText, hc]

theorem strip_eq_nil {s : Str} : strip s = [] ↔ ¬ HasText s := by
  rw [strip, rstrip_eq_nil, hasText_lstrip]

theorem hasText_rstrip {s : Str} : HasText (rstrip s) ↔ HasText s := by
  have h := hasText_lstrip (s := s.reverse)
  simpa [rstrip, lstrip, HasText] using h

theorem hasText_strip {s : Str} : HasText (strip s) ↔ HasText s := by
  rw [strip, hasText_rstrip, hasText_lstrip]

theorem words_cons_space {c : Char} (s : Str) (h : isSpace c = true) : words (c :: s) = words s := by
  simp [words, List.splitOnP_cons_eq_if_modifyHead, h]

theorem words_eq_nil {s : Str} : words s = [] ↔ ¬ HasText s := by
  induction s with
  | nil => simp [words, HasText]
  | cons c s ih =>
    cases hc : isSpace c with
    | true => rw [words_cons_space s hc, ih]; simp [HasText, hc]
    | false =>
      have hne := List.splitOnP_ne_nil isSpace s
      cases hs : s.splitOnP isSpace with
      | nil => exact absurd hs hne
      | cons w ws => simp [words, List.splitOnP_cons_eq_if_modifyHead, hc, hs, HasText]

theorem dropWhile_of_head {p : Char → Bool} {s : Str} (h : ∀ c ∈ s.head?, p c = false) :
    s.dropWhile p = s := by
  cases s with
  | nil => rfl
  | cons c s => simp [List.dropWhile, h c rfl]

theorem not_mem_splitOnP {p : Char → Bool} {s w : Str} (h : w ∈ s.splitOnP p) :
    ∀ c ∈ w, p c = false := by
  induction s generalizing w with
  | nil => simp at h; simp [h]
  | cons c s ih =>
    rw [List.splitOnP_cons_eq_if_modifyHead] at h
    split at h
    · rw [List.mem_cons] at h
      cases h with
      | inl h => simp [h]
      | inr h => exact ih h
    · next hc =>
      cases hs : s.splitOnP p with
      | nil => exact absurd hs (List.splitOnP_ne_nil p s)
      | cons v vs =>
        rw [hs, List.modifyHead_cons, List.mem_cons] at h
        rw [hs] at ih
        cases h with
        | inl h =>
          subst h
          intro d hd
          rw [List.mem_cons] at hd
          cases hd with
          | inl hd => simpa [hd] using hc
          | inr hd => exact ih List.mem_cons_self d hd
        | inr h => exact ih (List.mem_cons_of_mem _ h)

end Str

/-- `[xs[i:i + step] for i in range(0, len(xs), step)]` for a positive step. -/
def slicesFrom {α : Type} (step : Nat) : Nat → List α → List (List α)
  | 0, _ => []
  | _ + 1, [] => []
  | n + 1, xs => xs.take step :: slicesFrom step n (xs.drop step)

def slices {α : Type} (step : Nat) (xs : List α) : List (List α) := slicesFrom step xs.length xs

/-- `round` on an exact quotient: ties go to the even neighbour. -/
def pyRound (q : Rat) : Int :=
  let r := q - q.floor
  if r < 1 / 2 then q.floor
  else if 1 / 2 < r then q.floor + 1
  else if q.floor % 2 = 0 then q.floor
  else q.floor + 1

private def isCont (b : UInt8) : Bool := 0x80 ≤ b && b ≤ 0xBF

private def payload (b : UInt8) : Nat := b.toNat % 64

/-- `bytes.decode("utf-8")`: strict, so overlong forms, surrogates and code points above
U+10FFFF are refused. -/
def utf8Decode : Bytes → Option Str
  | [] => some []
  | b :: rest =>
    if b ≤ 0x7F then (utf8Decode rest).map (Char.ofNat b.toNat :: ·)
    else if 0xC2 ≤ b && b ≤ 0xDF then
      match rest with
      | b₁ :: rest =>
        if isCont b₁ then
          (utf8Decode rest).map (Char.ofNat (b.toNat % 32 * 64 + payload b₁) :: ·)
        else none
      | _ => none
    else if 0xE0 ≤ b && b ≤ 0xEF then
      match rest with
      | b₁ :: b₂ :: rest =>
        if isCont b₁ && isCont b₂ && (b != 0xE0 || 0xA0 ≤ b₁) && (b != 0xED || b₁ ≤ 0x9F) then
          (utf8Decode rest).map
            (Char.ofNat ((b.toNat % 16 * 64 + payload b₁) * 64 + payload b₂) :: ·)
        else none
      | _ => none
    else if 0xF0 ≤ b && b ≤ 0xF4 then
      match rest with
      | b₁ :: b₂ :: b₃ :: rest =>
        if isCont b₁ && isCont b₂ && isCont b₃ && (b != 0xF0 || 0x90 ≤ b₁) &&
            (b != 0xF4 || b₁ ≤ 0x8F) then
          (utf8Decode rest).map
            (Char.ofNat (((b.toNat % 8 * 64 + payload b₁) * 64 + payload b₂) * 64 + payload b₃) :: ·)
        else none
      | _ => none
    else none

private def cont (n : Nat) : UInt8 := UInt8.ofNat (0x80 + n % 64)

def utf8EncodeChar (c : Char) : Bytes :=
  let n := c.toNat
  if n < 0x80 then [UInt8.ofNat n]
  else if n < 0x800 then [UInt8.ofNat (0xC0 + n / 64), cont n]
  else if n < 0x10000 then [UInt8.ofNat (0xE0 + n / 4096), cont (n / 64), cont n]
  else [UInt8.ofNat (0xF0 + n / 262144), cont (n / 4096), cont (n / 64), cont n]

theorem utf8EncodeChar_eq (c : Char) :
    utf8EncodeChar c =
      if c.toNat < 0x80 then [UInt8.ofNat c.toNat]
      else if c.toNat < 0x800 then
        [UInt8.ofNat (0xC0 + c.toNat / 64), UInt8.ofNat (0x80 + c.toNat % 64)]
      else if c.toNat < 0x10000 then
        [UInt8.ofNat (0xE0 + c.toNat / 4096), UInt8.ofNat (0x80 + c.toNat / 64 % 64),
          UInt8.ofNat (0x80 + c.toNat % 64)]
      else
        [UInt8.ofNat (0xF0 + c.toNat / 262144), UInt8.ofNat (0x80 + c.toNat / 4096 % 64),
          UInt8.ofNat (0x80 + c.toNat / 64 % 64), UInt8.ofNat (0x80 + c.toNat % 64)] := rfl

theorem toNat_ofNat_byte {n : Nat} (h : n < 256) : (UInt8.ofNat n).toNat = n :=
  UInt8.toNat_ofNat_of_lt h

theorem utf8EncodeChar_head (c : Char) :
    ∃ b rest, utf8EncodeChar c = b :: rest ∧ (b.toNat = c.toNat ∨ 0x80 ≤ b.toNat) := by
  have hvalid : c.toNat < 0xD800 ∨ 0xDFFF < c.toNat ∧ c.toNat < 0x110000 := c.valid
  have hhigh {n : Nat} (h₁ : 0x80 ≤ n) (h₂ : n < 256) : 0x80 ≤ (UInt8.ofNat n).toNat :=
    h₁.trans_eq (toNat_ofNat_byte h₂).symm
  rw [utf8EncodeChar_eq]
  split
  · exact ⟨_, _, rfl, .inl (toNat_ofNat_byte (by omega))⟩
  split
  · exact ⟨_, _, rfl, .inr (hhigh (by omega) (by omega))⟩
  split
  · exact ⟨_, _, rfl, .inr (hhigh (by omega) (by omega))⟩
  · exact ⟨_, _, rfl, .inr (hhigh (by omega) (by omega))⟩

/-- `str.encode("utf-8")` -/
def utf8Encode (s : Str) : Bytes := s.flatMap utf8EncodeChar

end RagPlatform.Lib
