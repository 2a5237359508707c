import RagPlatform.Frontend.Chat

/-! The transcript in every state of the page. -/

namespace RagPlatform

open Lib

namespace Chat

variable {c c' : Chat} {numeral : Rat → Str} {stringify : Json → Str}

/-- The four kinds of step; the second to last goes on with the request, the last ends it. -/
inductive Change (c : Chat) : Chat → Prop
  | same {c' : Chat} : c'.messages = c.messages → c'.busy = c.busy → c'.nextId = c.nextId →
    c'.sending = c.sending → Change c c'
  | asked {q : Str} : c.busy = false → Change c (c.ask q)
  | told {s s' : Sending} {update : ChatMessage → ChatMessage} : c.sending = some s →
    s'.assistantId = s.assistantId →
    (∀ m, (update m).id = m.id ∧ (update m).role = m.role ∧ (update m).error = m.error ∧
      (m.text = s.text → (update m).text = s'.text)) →
    Change c { c.patch s.assistantId update with sending := some s' }
  | settled {s : Sending} {update : ChatMessage → ChatMessage} : c.sending = some s →
    (∀ m, (update m).id = m.id ∧ (update m).role = m.role ∧ (update m).streaming = false) →
    Change c (c.patch s.assistantId update).release

namespace Change

variable {s : Sending} (hs : c.sending = some s)
include hs

theorem fail (thrown : Thrown) : Change c (c.fail s thrown) :=
  .settled hs fun _ => ⟨rfl, rfl, rfl⟩

theorem finish : Change c (c.finish s) := .settled hs fun _ => ⟨rfl, rfl, rfl⟩

theorem patch {update : ChatMessage → ChatMessage}
    (h : ∀ m, (update m).id = m.id ∧ (update m).role = m.role ∧ (update m).error = m.error ∧
      (update m).text = m.text) : Change c (c.patch s.assistantId update) := by
  have hpatch : c.patch s.assistantId update =
      { c.patch s.assistantId update with sending := some s } := by
    rw [← hs]
    rfl
  rw [hpatch]
  exact .told hs rfl fun m => ⟨(h m).1, (h m).2.1, (h m).2.2.1, fun hm => (h m).2.2.2.trans hm⟩

theorem onEvent (e : SseEvent Json) : Change c (c.onEvent numeral s e) := by
  unfold Chat.onEvent
  split
  · cases e.data.prop "citations".toList with
    | none => exact fail hs _
    | some citations => exact patch hs fun _ => ⟨rfl, rfl, rfl, rfl⟩
  · split
    · cases (e.data.prop "text".toList).bind (Json.appendedTo numeral s.text) with
      | none => exact fail hs _
      | some text => exact .told hs rfl fun _ => ⟨rfl, rfl, rfl, fun _ => rfl⟩
    · split
      · cases e.data.prop "usage".toList with
        | none => exact fail hs _
        | some usage =>
          cases e.data.prop "model".toList with
          | none => exact fail hs _
          | some model => exact patch hs fun _ => ⟨rfl, rfl, rfl, rfl⟩
      · exact .same rfl rfl rfl rfl

theorem onEnding (ending : Ending) : Change c (c.onEnding s ending) := by
  cases ending with
  | done => exact finish hs
  | readFailed => exact fail hs .other
  | syntaxError => exact fail hs .other
  | apiError status detail => exact fail hs (.apiError status detail)

end Change

theorem change (c : Chat) (numeral : Rat → Str) (stringify : Json → Str) (act : ChatAct) :
    Change c (c.step numeral stringify act) := by
  cases act with
  | type draft => exact .same rfl rfl rfl rfl
  | send question =>
    by_cases h : jsTrim question = [] ∨ c.busy
    · simp only [step, send, if_pos h]
      exact .same rfl rfl rfl rfl
    · rw [not_or, Bool.not_eq_true] at h
      simp only [step, send, h, or_self, if_false, Bool.false_eq_true]
      exact .asked h.2
  | fetched res =>
    cases hs : c.sending with
    | none =>
      simp only [step, hs]
      exact .same rfl rfl rfl rfl
    | some s =>
      simp only [step, hs]
      split
      · exact .same rfl rfl rfl rfl
      · cases apiFetch stringify res with
        | error thrown => exact .fail hs _
        | ok res =>
          have hread : ({ c with sending := some { s with reading := true } } : Chat) =
              { c.patch s.assistantId id with sending := some { s with reading := true } } := by
            simp [Chat.patch]
          simp only [hread]
          exact .told hs rfl fun _ => ⟨rfl, rfl, rfl, id⟩
  | event e =>
    cases hs : c.sending with
    | none =>
      simp only [step, hs]
      exact .same rfl rfl rfl rfl
    | some s =>
      simp only [step, hs]
      split
      · exact .onEvent hs e
      · exact .same rfl rfl rfl rfl
  | ended ending =>
    cases hs : c.sending with
    | none =>
      simp only [step, hs]
      exact .same rfl rfl rfl rfl
    | some s =>
      simp only [step, hs]
      split
      · exact .onEnding hs ending
      · exact .same rfl rfl rfl rfl

structure Pending (s : Sending) (m : ChatMessage) : Prop where
  id : m.id = s.assistantId
  text : m.text = s.text
  error : m.error = none

/-- Questions and answers take turns, under ids of their own; nothing is streaming but the last
message, and that only while its request is under way. -/
structure Sound (c : Chat) : Prop where
  fresh : ∀ m ∈ c.messages, m.id < c.nextId
  ids : (c.messages.map (·.id)).Nodup
  turns : ∃ n, c.messages.map (·.role) = (List.replicate n [Role.user, .assistant]).flatten
  busy : c.busy = c.sending.isSome
  idle : c.sending = none → ∀ m ∈ c.messages, m.streaming = false
  pending : ∀ s, c.sending = some s → ∃ old m, c.messages = old ++ [m] ∧ Pending s m ∧
    ∀ x ∈ old, x.streaming = false

def settled (c : Chat) : List ChatMessage :=
  match c.sending with
  | none => c.messages
  | some _ => c.messages.dropLast

theorem sound_empty : Sound {} where
  fresh := by simp
  ids := by simp
  turns := ⟨0, rfl⟩
  busy := rfl
  idle := by simp
  pending := by simp

theorem patch_last {old : List ChatMessage} {m : ChatMessage} {id : Nat}
    {update : ChatMessage → ChatMessage} (hids : (c.messages.map (·.id)).Nodup)
    (hmessages : c.messages = old ++ [m]) (hid : m.id = id) :
    (c.patch id update).messages = old ++ [update m] := by
  have hother (x : ChatMessage) (hx : x ∈ old) : x.id ≠ id := by
    rintro rfl
    rw [hmessages, List.map_append, List.map_singleton, List.nodup_append] at hids
    exact hids.2.2 _ (List.mem_map_of_mem hx) _ (List.mem_singleton_self _) hid.symm
  have hold : old.map (fun x => if x.id = id then update x else x) = old :=
    (List.map_congr_left fun x hx => if_neg (hother x hx)).trans (List.map_id old)
  simp only [patch, hmessages, List.map_append, List.map_singleton, if_pos hid, hold]

namespace Sound

variable (h : c.Sound)
include h

theorem patched {s : Sending} {update : ChatMessage → ChatMessage} (hs : c.sending = some s)
    (hupdate : ∀ m, (update m).id = m.id ∧ (update m).role = m.role) :
    ∃ old m, c.messages = old ++ [m] ∧ Pending s m ∧ (∀ x ∈ old, x.streaming = false) ∧
      (c.patch s.assistantId update).messages = old ++ [update m] ∧
      (∀ x ∈ (c.patch s.assistantId update).messages, x.id < c.nextId) ∧
      ((c.patch s.assistantId update).messages.map (·.id)).Nodup ∧
      ∃ n, (c.patch s.assistantId update).messages.map (·.role) =
        (List.replicate n [Role.user, .assistant]).flatten := by
  obtain ⟨old, m, hmessages, hm, hold⟩ := h.pending s hs
  have hlast : (c.patch s.assistantId update).messages = old ++ [update m] :=
    patch_last h.ids hmessages hm.id
  refine ⟨old, m, hmessages, hm, hold, hlast, ?_, ?_, ?_⟩
  · intro x hx
    rw [hlast, List.mem_append, List.mem_singleton] at hx
    rcases hx with hx | rfl
    · exact h.fresh x (hmessages ▸ List.mem_append_left _ hx)
    · rw [(hupdate m).1]
      exact h.fresh m (hmessages ▸ List.mem_append_right _ (List.mem_singleton_self m))
  · have hids := h.ids
    rw [hmessages, List.map_append, List.map_singleton] at hids
    rwa [hlast, List.map_append, List.map_singleton, (hupdate m).1]
  · have hturns := h.turns
    rw [hmessages, List.map_append, List.map_singleton] at hturns
    rwa [hlast, List.map_append, List.map_singleton, (hupdate m).2]

theorem change (hc : Change c c') : c'.Sound ∧ c.settled <+: c'.settled := by
  cases hc with
  | same hmessages hbusy hnext hsending =>
    refine ⟨⟨?_, ?_, ?_, ?_, ?_, ?_⟩, ?_⟩
    · rw [hmessages, hnext]
      exact h.fresh
    · rw [hmessages]
      exact h.ids
    · rw [hmessages]
      exact h.turns
    · rw [hbusy, hsending]
      exact h.busy
    · rw [hmessages, hsending]
      exact h.idle
    · rw [hmessages, hsending]
      exact h.pending
    · simp only [settled, hmessages, hsending]
      exact List.prefix_refl _
  | @asked q hbusy =>
    have hsending : c.sending = none := by
      rw [h.busy] at hbusy
      simpa using hbusy
    refine ⟨⟨fun m hm => ?_, ?_, ?_, rfl, fun hnone => ?_, fun s hs => ?_⟩, ?_⟩
    · rw [ask, List.mem_append, List.mem_pair] at hm
      rcases hm with hm | rfl | rfl
      · exact Nat.lt_of_lt_of_le (h.fresh m hm) (Nat.le_add_right _ 2)
      · exact Nat.lt_succ_self _
      · exact Nat.lt_add_of_pos_right Nat.zero_lt_two
    · rw [ask, List.map_append, List.nodup_append]
      refine ⟨h.ids, by simp [questionMessage, answerMessage], fun i hi j hj => ?_⟩
      obtain ⟨m, hm, rfl⟩ := List.mem_map.mp hi
      have hlt := h.fresh m hm
      simp [questionMessage, answerMessage] at hj
      omega
    · obtain ⟨n, hn⟩ := h.turns
      refine ⟨n + 1, ?_⟩
      rw [ask, List.map_append, hn, List.replicate_succ', List.flatten_append]
      rfl
    · cases hnone
    · obtain rfl := Option.some.inj hs
      refine ⟨c.messages ++ [c.questionMessage q], c.answerMessage, ?_, ⟨rfl, rfl, rfl⟩,
        fun x hx => ?_⟩
      · rw [ask, List.append_assoc]
        rfl
      · rw [List.mem_append, List.mem_singleton] at hx
        rcases hx with hx | rfl
        · exact h.idle hsending x hx
        · rfl
    · rw [settled, settled, hsending]
      refine ⟨[c.questionMessage q], ?_⟩
      simp [ask]
  | @told s s' update hs hid hupdate =>
    obtain ⟨old, m, hmessages, hm, hold, hlast, hfresh, hids, hturns⟩ :=
      h.patched hs fun m => ⟨(hupdate m).1, (hupdate m).2.1⟩
    refine ⟨⟨hfresh, hids, hturns, ?_, fun hnone => ?_, fun s₁ hs₁ => ?_⟩, ?_⟩
    · exact h.busy.trans (by rw [hs]; rfl)
    · cases hnone
    · obtain rfl := Option.some.inj hs₁
      refine ⟨old, update m, hlast, ⟨?_, (hupdate m).2.2.2 hm.text, ?_⟩, hold⟩
      · rw [(hupdate m).1, hm.id, hid]
      · rw [(hupdate m).2.2.1, hm.error]
    · simp only [settled, hs, hlast, hmessages, List.dropLast_concat]
      exact List.prefix_refl _
  | @settled s update hs hupdate =>
    obtain ⟨old, m, hmessages, hm, hold, hlast, hfresh, hids, hturns⟩ :=
      h.patched hs fun m => ⟨(hupdate m).1, (hupdate m).2.1⟩
    refine ⟨⟨hfresh, hids, hturns, rfl, fun _ x hx => ?_, fun s₁ hs₁ => ?_⟩, ?_⟩
    · simp only [release, hlast, List.mem_append, List.mem_singleton] at hx
      rcases hx with hx | rfl
      · exact hold x hx
      · exact (hupdate m).2.2
    · cases hs₁
    · simp only [settled, hs, release, hlast, hmessages, List.dropLast_concat]
      exact List.prefix_append _ _

end Sound

variable {acts acts' : List ChatAct}

theorem run_append : c.run numeral stringify (acts ++ acts') =
    (c.run numeral stringify acts).run numeral stringify acts' := List.foldl_append

theorem Sound.run (h : c.Sound) (acts : List ChatAct) : (c.run numeral stringify acts).Sound ∧
    c.settled <+: (c.run numeral stringify acts).settled := by
  induction acts generalizing c with
  | nil => exact ⟨h, List.prefix_refl _⟩
  | cons act acts ih =>
    obtain ⟨hstep, hsettled⟩ := h.change (c.change numeral stringify act)
    obtain ⟨hrun, hrest⟩ := ih hstep
    exact ⟨hrun, hsettled.trans hrest⟩

/-- Whatever is clicked and whatever the network does: questions and answers take turns, only the
last message can be streaming, and what is settled stays as it is. -/
theorem transcript_sound (numeral : Rat → Str) (stringify : Json → Str)
    (acts acts' : List ChatAct) : (run {} numeral stringify acts).Sound ∧
      (run {} numeral stringify acts).settled <+:
        (run {} numeral stringify (acts ++ acts')).settled := by
  rw [run_append]
  exact ⟨(sound_empty.run acts).1, ((sound_empty.run acts).1.run acts').2⟩

end Chat

end RagPlatform
