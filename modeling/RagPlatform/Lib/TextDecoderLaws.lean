import RagPlatform.Lib.TextDecoder

/-! What the decoder makes of well formed text, whole or cut short. -/

namespace RagPlatform.Lib

namespace Utf8Decoder

theorem step_lead_one {q : Nat} (h : q < 0x80) :
    step start (UInt8.ofNat q) = (start, [Char.ofNat q]) := by
  have hb : (UInt8.ofNat q).toNat = q := toNat_ofNat_byte (by omega)
  simp only [step, hb, lead, start]
  rw [if_pos trivial, if_pos (by omega)]

theorem step_lead_two {q : Nat} (h₁ : 2 ≤ q) (h₂ : q < 32) :
    step start (UInt8.ofNat (0xC0 + q)) = (⟨q, 0, 1, 0x80, 0xBF⟩, []) := by
  have hb : (UInt8.ofNat (0xC0 + q)).toNat = 0xC0 + q :=
    toNat_ofNat_byte (by omega)
  have hq : (0xC0 + q) % 32 = q := by omega
  simp only [step, hb, lead, start, hq]
  rw [if_pos trivial, if_neg (by omega), if_pos (by omega)]

theorem step_lead_three {q : Nat} (h : q < 16) :
    step start (UInt8.ofNat (0xE0 + q)) =
      (⟨q, 0, 2, if q = 0 then 0xA0 else 0x80, if q = 13 then 0x9F else 0xBF⟩, []) := by
  have hb : (UInt8.ofNat (0xE0 + q)).toNat = 0xE0 + q :=
    toNat_ofNat_byte (by omega)
  have hq : (0xE0 + q) % 16 = q := by omega
  have hlow : (0xE0 + q = 0xE0) = (q = 0) := by simp
  have hhigh : (0xE0 + q = 0xED) = (q = 13) := by simp; omega
  simp only [step, hb, lead, start, hq, hlow, hhigh]
  rw [if_pos trivial, if_neg (by omega), if_neg (by omega), if_pos (by omega)]

theorem step_lead_four {q : Nat} (h : q ≤ 4) :
    step start (UInt8.ofNat (0xF0 + q)) =
      (⟨q, 0, 3, if q = 0 then 0x90 else 0x80, if q = 4 then 0x8F else 0xBF⟩, []) := by
  have hb : (UInt8.ofNat (0xF0 + q)).toNat = 0xF0 + q :=
    toNat_ofNat_byte (by omega)
  have hq : (0xF0 + q) % 8 = q := by omega
  have hlow : (0xF0 + q = 0xF0) = (q = 0) := by simp
  have hhigh : (0xF0 + q = 0xF4) = (q = 4) := by simp; omega
  simp only [step, hb, lead, start, hq, hlow, hhigh]
  rw [if_pos trivial, if_neg (by omega), if_neg (by omega), if_neg (by omega), if_pos (by omega)]

theorem step_cont {d : Utf8Decoder} {r : Nat} (h : r < 64) (hopen : d.needed ≠ 0)
    (hlow : d.lower ≤ 0x80 + r) (hhigh : 0x80 + r ≤ d.upper) :
    step d (UInt8.ofNat (0x80 + r)) =
      if d.seen + 1 = d.needed then (start, [Char.ofNat (d.codePoint * 64 + r)])
      else (⟨d.codePoint * 64 + r, d.seen + 1, d.needed, 0x80, 0xBF⟩, []) := by
  have hb : (UInt8.ofNat (0x80 + r)).toNat = 0x80 + r :=
    toNat_ofNat_byte (by omega)
  have hr : (0x80 + r) % 64 = r := by omega
  simp only [step, hb, hr]
  rw [if_neg hopen, if_neg (by omega)]

theorem scalar (c : Char) : c.toNat < 0xD800 ∨ 0xDFFF < c.toNat ∧ c.toNat < 0x110000 := c.valid

theorem run_cons (d : Utf8Decoder) (b : UInt8) (bs : Bytes) :
    transducer.run d (b :: bs) =
      ((transducer.run (step d b).1 bs).1, (step d b).2 ++ (transducer.run (step d b).1 bs).2) :=
  rfl

theorem run_one {c : Char} (h : c.toNat < 0x80) :
    transducer.run start [UInt8.ofNat c.toNat] = (start, [c]) := by
  simp [run_cons, step_lead_one h]

section Widths

variable (c : Char) (q r₁ r₂ r₃ : Nat)

theorem run_two (hq : 2 ≤ q) (hq' : q < 32) (h₁ : r₁ < 64) (hc : c.toNat = q * 64 + r₁) :
    transducer.run start [UInt8.ofNat (0xC0 + q), UInt8.ofNat (0x80 + r₁)] = (start, [c]) ∧
      (transducer.run start [UInt8.ofNat (0xC0 + q)]).2 = [] := by
  have hlead := step_lead_two hq hq'
  have hlast : step ⟨q, 0, 1, 0x80, 0xBF⟩ (UInt8.ofNat (0x80 + r₁)) = (start, [c]) := by
    rw [step_cont h₁ (by simp) (by simp) (by simp; omega)]
    simp [← hc]
  simp only [run_cons, hlead, hlast, Transducer.run_nil, List.nil_append, List.append_nil,
    and_self]

theorem run_three (hq : q < 16) (h₁ : r₁ < 64) (h₂ : r₂ < 64)
    (hc : c.toNat = (q * 64 + r₁) * 64 + r₂) (hlong : 0x800 ≤ c.toNat) :
    transducer.run start [UInt8.ofNat (0xE0 + q), UInt8.ofNat (0x80 + r₁), UInt8.ofNat (0x80 + r₂)] =
        (start, [c]) ∧
      (transducer.run start [UInt8.ofNat (0xE0 + q), UInt8.ofNat (0x80 + r₁)]).2 = [] := by
  have hscalar := scalar c
  have hlead := step_lead_three hq
  have hmid : step ⟨q, 0, 2, if q = 0 then 0xA0 else 0x80, if q = 13 then 0x9F else 0xBF⟩
      (UInt8.ofNat (0x80 + r₁)) = (⟨q * 64 + r₁, 1, 2, 0x80, 0xBF⟩, []) := by
    rw [step_cont h₁ (by simp)]
    · rfl
    · -- nothing shorter would do
      show (if q = 0 then 0xA0 else 0x80) ≤ 0x80 + r₁
      split <;> omega
    · -- not a surrogate
      show 0x80 + r₁ ≤ if q = 13 then 0x9F else 0xBF
      split <;> omega
  have hlast : step ⟨q * 64 + r₁, 1, 2, 0x80, 0xBF⟩ (UInt8.ofNat (0x80 + r₂)) = (start, [c]) := by
    rw [step_cont h₂ (by simp) (by simp) (by simp; omega)]
    simp [← hc]
  simp only [run_cons, hlead, hmid, hlast, Transducer.run_nil, List.nil_append, List.append_nil,
    and_self]

theorem run_four (hq : q ≤ 4) (h₁ : r₁ < 64) (h₂ : r₂ < 64) (h₃ : r₃ < 64)
    (hc : c.toNat = ((q * 64 + r₁) * 64 + r₂) * 64 + r₃) (hlong : 0x10000 ≤ c.toNat) :
    transducer.run start [UInt8.ofNat (0xF0 + q), UInt8.ofNat (0x80 + r₁), UInt8.ofNat (0x80 + r₂),
        UInt8.ofNat (0x80 + r₃)] = (start, [c]) ∧
      (transducer.run start [UInt8.ofNat (0xF0 + q), UInt8.ofNat (0x80 + r₁),
        UInt8.ofNat (0x80 + r₂)]).2 = [] := by
  have hscalar := scalar c
  have hlead := step_lead_four hq
  have hmid : step ⟨q, 0, 3, if q = 0 then 0x90 else 0x80, if q = 4 then 0x8F else 0xBF⟩
      (UInt8.ofNat (0x80 + r₁)) = (⟨q * 64 + r₁, 1, 3, 0x80, 0xBF⟩, []) := by
    rw [step_cont h₁ (by simp)]
    · rfl
    · -- nothing shorter would do
      show (if q = 0 then 0x90 else 0x80) ≤ 0x80 + r₁
      split <;> omega
    · -- not above the last code point
      show 0x80 + r₁ ≤ if q = 4 then 0x8F else 0xBF
      split <;> omega
  have hnext : step ⟨q * 64 + r₁, 1, 3, 0x80, 0xBF⟩ (UInt8.ofNat (0x80 + r₂)) =
      (⟨(q * 64 + r₁) * 64 + r₂, 2, 3, 0x80, 0xBF⟩, []) := by
    rw [step_cont h₂ (by simp) (by simp) (by simp; omega)]
    rfl
  have hlast : step ⟨(q * 64 + r₁) * 64 + r₂, 2, 3, 0x80, 0xBF⟩ (UInt8.ofNat (0x80 + r₃)) =
      (start, [c]) := by
    rw [step_cont h₃ (by simp) (by simp) (by simp; omega)]
    simp [← hc]
  simp only [run_cons, hlead, hmid, hnext, hlast, Transducer.run_nil, List.nil_append, List.append_nil,
    and_self]

end Widths

theorem decodes_char (c : Char) :
    transducer.run start (utf8EncodeChar c) = (start, [c]) ∧
      (transducer.run start (utf8EncodeChar c).dropLast).2 = [] := by
  have hscalar := scalar c
  rw [utf8EncodeChar_eq]
  by_cases h₁ : c.toNat < 0x80
  · rw [if_pos h₁]
    exact ⟨run_one h₁, rfl⟩
  rw [if_neg h₁]
  by_cases h₂ : c.toNat < 0x800
  · rw [if_pos h₂]
    exact run_two c _ _ (by omega) (by omega) (by omega) (by omega)
  rw [if_neg h₂]
  by_cases h₃ : c.toNat < 0x10000
  · rw [if_pos h₃]
    exact run_three c _ _ _ (by omega) (by omega) (by omega) (by omega) (by omega)
  · rw [if_neg h₃]
    exact run_four c _ _ _ _ (by omega) (by omega) (by omega) (by omega) (by omega) (by omega)

theorem decodes : transducer.Decodes start utf8EncodeChar :=
  .of_dropLast (fun c => (decodes_char c).1) fun c => (decodes_char c).2

end Utf8Decoder

theorem bomTransducer_seen (s : Str) : bomTransducer.run true s = (true, s) := by
  induction s with
  | nil => rfl
  | cons c s ih =>
    have hstep : bomTransducer.step true c = (true, [c]) := by simp [bomTransducer]
    simp only [Transducer.run, hstep, ih, List.singleton_append]

theorem bomTransducer_run {s : Str} (h : s.head? ≠ some byteOrderMark) :
    (bomTransducer.run false s).2 = s := by
  cases s with
  | nil => rfl
  | cons c s =>
    have hc : c ≠ byteOrderMark := by simpa using h
    have hstep : bomTransducer.step false c = (true, [c]) := by simp [bomTransducer, hc]
    simp only [Transducer.run, hstep, bomTransducer_seen, List.singleton_append]

namespace TextDecoder

theorem decode_new (value : Bytes) (h : (Utf8Decoder.transducer.run Utf8Decoder.start value).2.head? ≠
      some byteOrderMark) :
    (new.decode value).2 = (Utf8Decoder.transducer.run Utf8Decoder.start value).2 := by
  rw [decode, new, Transducer.run_comp]
  exact bomTransducer_run h

end TextDecoder

end RagPlatform.Lib
