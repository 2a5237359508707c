import RagPlatform.Lib.Heed

/-! Keys that one request at most can win: who holds what in a pool. -/

namespace RagPlatform.Lib

variable {S : Signature} {σ ω ι κ α β ε : Type}

/-- The key an answered request has won, if any, and the keys that are gone in a state. -/
structure Contest (S : Signature) (σ κ : Type) where
  won : (r : S.Req) → S.Resp r → Option κ
  gone : σ → κ → Prop

namespace Contest

def winnings (C : Contest S σ κ) (l : Log S) : List κ := l.filterMap fun e => C.won e.1 e.2

/-- Only what is still there can be won, it is gone then, and it stays gone. -/
structure Fair (C : Contest S σ κ) (exec : Exec S σ ω) (step : Log S → ω → S.Req → σ → Prop) :
    Prop where
  there : ∀ {l o r s k}, step l o r s → C.won r (exec o r s).2 = some k → ¬ C.gone s k
  takes : ∀ {l o r s k}, step l o r s → C.won r (exec o r s).2 = some k → C.gone (exec o r s).1 k
  stays : ∀ {l o r s k}, step l o r s → C.gone s k → C.gone (exec o r s).1 k

variable {C : Contest S σ κ}

theorem winnings_append (l l' : Log S) :
    C.winnings (l ++ l') = C.winnings l ++ C.winnings l' := List.filterMap_append

theorem winnings_snoc_none {l : Log S} {r : S.Req} {x : S.Resp r} (h : C.won r x = none) :
    C.winnings (l ++ [⟨r, x⟩]) = C.winnings l := by
  have hlast : C.winnings [⟨r, x⟩] = [] := List.filterMap_cons_none h
  rw [winnings_append, hlast, List.append_nil]

theorem winnings_snoc_some {l : Log S} {r : S.Req} {x : S.Resp r} {k : κ}
    (h : C.won r x = some k) : C.winnings (l ++ [⟨r, x⟩]) = C.winnings l ++ [k] := by
  have hlast : C.winnings [⟨r, x⟩] = [k] := List.filterMap_cons_some h
  rw [winnings_append, hlast]

theorem winnings_mono {l l' : Log S} (h : l <+: l') :
    (C.winnings l).Sublist (C.winnings l') :=
  h.sublist.filterMap _

/-- From where `ks` have been won, `q` gets to where `f` of its result has. -/
def Earns (C : Contest S σ κ) (ks : List κ) (q : ExceptT ε (Async S) α) (f : α → List κ) : Prop :=
  ∀ l, ks.Sublist (C.winnings l) → HeedsE (fun _ _ => True)
    (fun l' r => l <+: l' ∧ ∀ a, r = .ok a → (f a).Sublist (C.winnings l')) q l

namespace Earns

variable {ks : List κ} {q : ExceptT ε (Async S) α} {f : α → List κ}

theorem pure {a : α} (h : (f a).Sublist ks) : C.Earns ks (Pure.pure a : ExceptT ε (Async S) α) f :=
  fun l hl => HeedsE.pure ⟨List.prefix_refl l, fun _ hb => Except.ok.inj hb ▸ h.trans hl⟩

theorem throw {e : ε} : C.Earns ks (MonadExcept.throw e : ExceptT ε (Async S) α) f :=
  fun l _ => HeedsE.throw ⟨List.prefix_refl l, fun _ hb => by cases hb⟩

theorem idle (q : ExceptT ε (Async S) α) : C.Earns ks q fun _ => ks := by
  have honly (p : Async S (Except ε α)) : p.Only fun _ => ∀ _ : Log S, True := by
    induction p with
    | ret a => trivial
    | emit y p ih => exact ih
    | await r k ih => exact ⟨fun _ => trivial, ih⟩
  intro l hl
  exact (Async.Heeds.of_only (honly q.run)).mono fun l' _ hl' =>
    ⟨hl', fun _ _ => hl.trans (winnings_mono hl')⟩

theorem bind {g : β → List κ} {h : α → ExceptT ε (Async S) β} (hq : C.Earns ks q f)
    (hh : ∀ a, C.Earns (f a) (h a) g) : C.Earns ks (q >>= h) g := by
  intro l hl
  refine HeedsE.bind (hq l hl) (fun l' a ha => ?_) fun l' e he => ⟨he.1, fun _ hb => by cases hb⟩
  exact HeedsE.mono (hh a l' (ha.2 a rfl)) fun l'' _ h'' => ⟨ha.1.trans h''.1, h''.2⟩

theorem tryCatch {h : ε → ExceptT ε (Async S) α} (hq : C.Earns ks q f)
    (hh : ∀ e, C.Earns ks (h e) f) : C.Earns ks (MonadExcept.tryCatch q h) f := by
  intro l hl
  refine HeedsE.tryCatch (hq l hl) (fun _ _ ha => ha) fun l' e he => ?_
  refine HeedsE.mono (hh e l' (hl.trans (winnings_mono he.1))) fun l'' _ h'' => ?_
  exact ⟨he.1.trans h''.1, h''.2⟩

end Earns

end Contest

namespace Pool

def logOf (P : Pool S σ ι α) (i : ι) : Log S := (P.threads i).elim [] (·.log)

theorem logOf_eq {P : Pool S σ ι α} {i : ι} {t : Thread S α} (h : P.threads i = some t) :
    P.logOf i = t.log := by
  rw [logOf, h]
  rfl

variable [DecidableEq ι] {exec : Exec S σ ω} {C : Contest S σ κ}

theorem logOf_next (P : Pool S σ ι α) (e : Event S ω ι α) (i : ι) :
    (P.next exec e).logOf i = P.logOf i ∨ (P.next exec e).logOf i = [] ∨
      ∃ o out r k, e = .step i o ∧ P.threads i = some ⟨P.logOf i, out, .await r k⟩ ∧
        (P.next exec e).logOf i = P.logOf i ++ [⟨r, (exec o r P.state).2⟩] := by
  cases hi : (P.next exec e).threads i with
  | none => exact .inr (.inl (by rw [logOf, hi]; rfl))
  | some t =>
    rw [logOf_eq hi]
    cases came hi with
    | same hu => exact .inl (logOf_eq hu).symm
    | spawned p => exact .inr (.inl rfl)
    | emitted hu => exact .inl (logOf_eq hu).symm
    | answered hu =>
      rw [logOf_eq hu]
      exact .inr (.inr ⟨_, _, _, _, rfl, hu, rfl⟩)

structure Held (C : Contest S σ κ) (P : Pool S σ ι α) : Prop where
  gone : ∀ {i k}, k ∈ C.winnings (P.logOf i) → C.gone P.state k
  once : ∀ {i j k} {p q : Nat}, (C.winnings (P.logOf i))[p]? = some k →
    (C.winnings (P.logOf j))[q]? = some k → i = j ∧ p = q

namespace Held

omit [DecidableEq ι] in
theorem init (s : σ) : (Pool.init s : Pool S σ ι α).Held C where
  gone h := by cases h
  once h := by cases h

omit [DecidableEq ι] in
theorem owner {P : Pool S σ ι α} (h : P.Held C) {i j : ι} {k : κ}
    (hi : k ∈ C.winnings (P.logOf i)) (hj : k ∈ C.winnings (P.logOf j)) : i = j := by
  obtain ⟨p, hp⟩ := List.mem_iff_getElem?.mp hi
  obtain ⟨q, hq⟩ := List.mem_iff_getElem?.mp hj
  exact (h.once hp hq).1

omit [DecidableEq ι] in
theorem nodup {P : Pool S σ ι α} (h : P.Held C) {i : ι} : (C.winnings (P.logOf i)).Nodup := by
  refine List.pairwise_iff_getElem.mpr fun p q hp hq hpq he => ?_
  have hp' := List.getElem?_eq_getElem hp
  rw [he] at hp'
  exact Nat.ne_of_lt hpq (h.once hp' (List.getElem?_eq_getElem hq)).2

theorem won_next {P : Pool S σ ι α} {e : Event S ω ι α} {i : ι} {p : Nat} {k : κ}
    (h : (C.winnings ((P.next exec e).logOf i))[p]? = some k) :
    (C.winnings (P.logOf i))[p]? = some k ∨
      ∃ o out r f, e = .step i o ∧ P.threads i = some ⟨P.logOf i, out, .await r f⟩ ∧
        C.won r (exec o r P.state).2 = some k ∧ p = (C.winnings (P.logOf i)).length := by
  rcases (logOf_next P e i : (P.next exec e).logOf i = P.logOf i ∨ _) with
    hl | hl | ⟨o, out, r, f, he, hi, hl⟩
  · exact .inl (hl ▸ h)
  · rw [hl] at h
    cases h
  · rw [hl] at h
    cases hwon : C.won r (exec o r P.state).2 with
    | none =>
      rw [Contest.winnings_snoc_none hwon] at h
      exact .inl h
    | some k' =>
      rw [Contest.winnings_snoc_some hwon] at h
      rw [List.getElem?_append] at h
      split at h
      · exact .inl h
      · next hp =>
        obtain ⟨hq, hk⟩ := List.getElem?_eq_some_iff.mp h
        simp only [List.length_singleton, List.getElem_singleton] at hq hk
        exact .inr ⟨o, out, r, f, he, hi, hk ▸ hwon, by omega⟩

variable {R : Rules S σ ω ι α}

theorem next {P : Pool S σ ι α} {e : Event S ω ι α} (h : P.Held C) (hC : C.Fair exec R.step)
    (he : P.Allows R e) : (P.next exec e).Held C := by
  have hallows {o : ω} {i : ι} {l : Log S} {out : List S.Out} {r : S.Req}
      {f : S.Resp r → Async S α} (hstep : e = .step i o)
      (hi : P.threads i = some ⟨l, out, .await r f⟩) : R.step l o r P.state := by
    subst hstep
    simpa only [Allows, hi] using he
  have hold {i : ι} {p : Nat} {k : κ} (hp : (C.winnings (P.logOf i))[p]? = some k) :
      C.gone P.state k := h.gone (List.mem_of_getElem? hp)
  constructor
  · intro i k hk
    obtain ⟨p, hp⟩ := List.mem_iff_getElem?.mp hk
    rcases won_next hp with hp | ⟨o, out, r, f, hstep, hi, hwon, -⟩
    · rcases (P.next_state e : (P.next exec e).state = P.state ∨ _) with
        hs | ⟨j, o, l, out, r, f, hstep, hj, hs⟩
      · rw [hs]
        exact hold hp
      · rw [hs]
        exact hC.stays (hallows hstep hj) (hold hp)
    · have hs : (P.next exec e).state = (exec o r P.state).1 := by
        subst hstep
        simp only [Pool.next, hi]
      rw [hs]
      exact hC.takes (hallows hstep hi) hwon
  · intro i j p q k hp hq
    rcases won_next hp with hp | ⟨o, out, r, f, hstep, hi, hwon, rfl⟩
    · rcases won_next hq with hq | ⟨o, out, r, f, hstep, hj, hwon, -⟩
      · exact h.once hp hq
      · exact absurd (hold hp) (hC.there (hallows hstep hj) hwon)
    · rcases won_next hq with hq | ⟨o', out', r', f', hstep', hj, -, rfl⟩
      · exact absurd (hold hq) (hC.there (hallows hstep hi) hwon)
      · obtain ⟨rfl, -⟩ := Event.step.inj (hstep.symm.trans hstep')
        exact ⟨rfl, rfl⟩

theorem run {P : Pool S σ ι α} {es : List (Event S ω ι α)} (h : P.Held C)
    (hC : C.Fair exec R.step) (hes : P.Obeys exec R es) : (P.run exec es).Held C := by
  induction es generalizing P with
  | nil => exact h
  | cons e es ih => exact ih (h.next hC hes.1) hes.2

end Held

end Pool

end RagPlatform.Lib
