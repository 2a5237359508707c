import RagPlatform.Frontend.Api

/-! How the reads cut the stream makes no difference to what the browser reads. -/

namespace RagPlatform

open Lib

@[simp] theorem cutFrame_nil : cutFrame [] = none := rfl

@[simp] theorem cutFrame_singleton (c : Char) : cutFrame [c] = none := by
  rw [cutFrame]
  · rfl
  · simp

@[simp] theorem cutFrame_blank (s : Str) : cutFrame ('\n' :: '\n' :: s) = some ([], s) := rfl

theorem cutFrame_cons {c : Char} {s : Str} (h : ¬ (c = '\n' ∧ s.head? = some '\n')) :
    cutFrame (c :: s) = (cutFrame s).map fun cut => (c :: cut.1, cut.2) := by
  rw [cutFrame]
  rintro rest rfl hs
  simp [hs] at h

theorem cutFrame_line {line : Str} (h : '\n' ∉ line) (s : Str) :
    cutFrame (line ++ '\n' :: s) =
      (cutFrame ('\n' :: s)).map fun cut => (line ++ cut.1, cut.2) := by
  induction line with
  | nil => simp
  | cons c line ih =>
    rw [List.mem_cons, not_or] at h
    rw [List.cons_append, cutFrame_cons (fun hc => h.1 hc.1.symm), ih h.2, Option.map_map]
    rfl

theorem eq_of_cutFrame {buffer frame rest : Str} (h : cutFrame buffer = some (frame, rest)) :
    buffer = frame ++ '\n' :: '\n' :: rest := by
  fun_induction cutFrame buffer generalizing frame with
  | case1 rest' =>
    obtain ⟨rfl, rfl⟩ := Prod.mk.inj (Option.some.inj h)
    rfl
  | case2 => cases h
  | case3 c s hne ih =>
    obtain ⟨⟨frame', rest'⟩, hcut, heq⟩ := Option.map_eq_some_iff.mp h
    obtain ⟨rfl, rfl⟩ := Prod.mk.inj heq
    rw [ih hcut, List.cons_append]

theorem cutFrame_append {buffer frame rest : Str} (h : cutFrame buffer = some (frame, rest))
    (more : Str) : cutFrame (buffer ++ more) = some (frame, rest ++ more) := by
  fun_induction cutFrame buffer generalizing frame with
  | case1 rest' =>
    obtain ⟨rfl, rfl⟩ := Prod.mk.inj (Option.some.inj h)
    rfl
  | case2 => cases h
  | case3 c s hne ih =>
    obtain ⟨⟨frame', rest'⟩, hcut, heq⟩ := Option.map_eq_some_iff.mp h
    obtain ⟨rfl, rfl⟩ := Prod.mk.inj heq
    have hs : s ≠ [] := by
      rintro rfl
      cases hcut
    have hhead : ¬ (c = '\n' ∧ (s ++ more).head? = some '\n') := by
      rintro ⟨rfl, hhead⟩
      rw [List.head?_append_of_ne_nil _ hs] at hhead
      obtain ⟨s', rfl⟩ := List.head?_eq_some_iff.mp hhead
      exact hne s' rfl rfl
    rw [List.cons_append, cutFrame_cons hhead, ih hcut]
    rfl

theorem cutFrame_of_append {s more : Str} (h : cutFrame (s ++ more) = none) : cutFrame s = none := by
  cases hs : cutFrame s with
  | none => rfl
  | some cut => rw [cutFrame_append hs] at h; cases h

theorem length_of_cutFrame {buffer frame rest : Str} (h : cutFrame buffer = some (frame, rest)) :
    rest.length < buffer.length := by
  rw [eq_of_cutFrame h, List.length_append, List.length_cons, List.length_cons]
  omega

section Draining

variable {J : Type} (codec : JsonCodec J)

theorem drainFrom_fuel {m n : Nat} {buffer : Str} (hm : buffer.length ≤ m)
    (hn : buffer.length ≤ n) : drainFrom codec m buffer = drainFrom codec n buffer := by
  induction m generalizing n buffer with
  | zero =>
    obtain rfl := List.eq_nil_of_length_eq_zero (Nat.le_zero.mp hm)
    cases n with
    | zero => rfl
    | succ n => rfl
  | succ m ih =>
    cases n with
    | zero =>
      obtain rfl := List.eq_nil_of_length_eq_zero (Nat.le_zero.mp hn)
      rfl
    | succ n =>
      rw [drainFrom, drainFrom]
      cases hcut : cutFrame buffer with
      | none => rfl
      | some cut =>
        have hlen := length_of_cutFrame hcut
        have hrest : drainFrom codec m cut.2 = drainFrom codec n cut.2 := ih (by omega) (by omega)
        simp only [hrest]

theorem drain_of_none {buffer : Str} (h : cutFrame buffer = none) :
    drain codec buffer = ([], some buffer) := by
  unfold drain
  cases buffer.length with
  | zero => rfl
  | succ n => rw [drainFrom, h]

theorem drain_of_cut {buffer frame rest : Str} (h : cutFrame buffer = some (frame, rest)) :
    drain codec buffer =
      if (fieldsOf frame).dataLines = [] then drain codec rest
      else
        match codec.parse (Str.join "\n".toList (fieldsOf frame).dataLines) with
        | none => ([], none)
        | some data => (⟨(fieldsOf frame).event, data⟩ :: (drain codec rest).1, (drain codec rest).2) := by
  have hlen := length_of_cutFrame h
  have hfuel : drain codec buffer = drainFrom codec (buffer.length + 1) buffer :=
    drainFrom_fuel codec (Nat.le_refl _) (Nat.le_succ _)
  have hrest : drainFrom codec buffer.length rest = drain codec rest :=
    drainFrom_fuel codec (Nat.le_of_lt hlen) (Nat.le_refl _)
  rw [hfuel, drainFrom, h]
  cases hparse : codec.parse (Str.join "\n".toList (fieldsOf frame).dataLines) with
  | none => simp only [hrest, hparse]
  | some data => simp only [hrest, hparse]

/-- The loop going on with what it left in the buffer, once more has arrived. -/
def resume (drained : List (SseEvent J) × Option Str) (more : Str) : List (SseEvent J) × Option Str :=
  match drained.2 with
  | none => drained
  | some rest => (drained.1 ++ (drain codec (rest ++ more)).1, (drain codec (rest ++ more)).2)

theorem drain_append (buffer more : Str) :
    drain codec (buffer ++ more) = resume codec (drain codec buffer) more := by
  induction hlen : buffer.length using Nat.strong_induction_on generalizing buffer with
  | _ n ih =>
    cases hcut : cutFrame buffer with
    | none =>
      rw [drain_of_none codec hcut]
      rfl
    | some cut =>
      obtain ⟨frame, rest⟩ := cut
      have hrest := ih rest.length (hlen ▸ length_of_cutFrame hcut) rest rfl
      rw [drain_of_cut codec (cutFrame_append hcut more), drain_of_cut codec hcut, hrest]
      split
      · rfl
      · split
        · rfl
        · cases hleft : (drain codec rest).2 with
          | none => simp [resume, hleft]
          | some left => simp [resume, hleft]

theorem cutFrame_of_drain {buffer rest : Str} (h : (drain codec buffer).2 = some rest) :
    cutFrame rest = none := by
  induction hlen : buffer.length using Nat.strong_induction_on generalizing buffer with
  | _ n ih =>
    cases hcut : cutFrame buffer with
    | none =>
      rw [drain_of_none codec hcut] at h
      cases h
      exact hcut
    | some cut =>
      obtain ⟨frame, later⟩ := cut
      have hlater (h : (drain codec later).2 = some rest) : cutFrame rest = none :=
        ih later.length (hlen ▸ length_of_cutFrame hcut) h rfl
      rw [drain_of_cut codec hcut] at h
      split at h
      · exact hlater h
      · split at h
        · cases h
        · exact hlater h

def endingOf (closed : Bool) (drained : List (SseEvent J) × Option Str) :
    List (SseEvent J) × Ending :=
  (drained.1, match drained.2 with
    | none => .syntaxError
    | some _ => if closed then .done else .readFailed)

theorem readLoop_eq (closed : Bool) (decoder : TextDecoder) {buffer : Str} (reads : List Bytes)
    (hbuffer : cutFrame buffer = none) :
    readLoop codec closed decoder buffer reads =
      endingOf closed (drain codec (buffer ++ (decoder.decode reads.flatten).2)) := by
  induction reads generalizing decoder buffer with
  | nil =>
    rw [List.flatten_nil, TextDecoder.decode_nil, List.append_nil, drain_of_none codec hbuffer]
    rfl
  | cons value reads ih =>
    rw [List.flatten_cons, TextDecoder.decode_append, ← List.append_assoc, drain_append, readLoop]
    cases hdrained : (drain codec (buffer ++ (decoder.decode value).2)).2 with
    | none => simp [resume, endingOf, hdrained]
    | some rest => simp [resume, endingOf, hdrained, ih _ (cutFrame_of_drain codec hdrained)]

theorem sseEvents_eq (status : Nat) (reads : List Bytes) (closed : Bool) :
    sseEvents codec ⟨status, some ⟨reads, closed⟩⟩ =
      endingOf closed (drain codec (TextDecoder.new.decode reads.flatten).2) := by
  have hbody : sseEvents codec ⟨status, some ⟨reads, closed⟩⟩ = readLoop codec closed .new [] reads :=
    rfl
  rw [hbody, readLoop_eq codec closed .new reads cutFrame_nil, List.nil_append]

end Draining

end RagPlatform
