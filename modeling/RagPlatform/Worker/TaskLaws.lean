import RagPlatform.Services.IngestionLaws
import RagPlatform.Worker.Tasks

/-! What a delivery makes of the way `process` ended, and the contract of calls that do not overlap
with others on the same row. -/

namespace RagPlatform

open Lib

section Task

variable {ext : External} {settings : Settings} {id : Uuid}
  {φ φ' : Feed World Oracle} {w w' : World}

/-- The run of `process` inside a delivery. -/
def processing (ext : External) (settings : Settings) (id : Uuid) :
    Async api (Except Exn Instance) :=
  ((ingestionService settings).process ext none id).run

def delivery (ext : External) (settings : Settings) (retries : Nat) (id : Uuid) :
    Async api (Except Exn TaskResult) :=
  (ingestDocument ext settings retries id).run

def exhaustion (settings : Settings) (id : Uuid) : Async api (Except Exn Unit) :=
  (markFailed none id (exhaustedMessage settings)).run

theorem delivery_ok (retries : Nat) {document : Instance}
    (h : (processing ext settings id).run exec φ w = (w', some (.ok document, φ'))) :
    (delivery ext settings retries id).run exec φ w = (w', some (.ok .done, φ')) := by
  change ((processing ext settings id).bind _ |>.bind _).run exec φ w = _
  rw [Async.run_bind, Async.run_bind, h]
  rfl

theorem delivery_final (retries : Nat) {e : Exn} (he : e.transient = false)
    (h : (processing ext settings id).run exec φ w = (w', some (.error e, φ'))) :
    (delivery ext settings retries id).run exec φ w = (w', some (.ok .done, φ')) := by
  change ((processing ext settings id).bind _ |>.bind _).run exec φ w = _
  rw [Async.run_bind, Async.run_bind, h]
  cases e with
  | parse detail => rfl
  | notFound detail => rfl
  | _ => simp [Exn.transient] at he

theorem delivery_retry (retries : Nat) {e : Exn} (he : e.transient)
    (hretries : (retries : Int) < settings.workerMaxRetries)
    (h : (processing ext settings id).run exec φ w = (w', some (.error e, φ'))) :
    (delivery ext settings retries id).run exec φ w =
      (w', some (.ok (.retry (backoff settings retries)), φ')) := by
  change ((processing ext settings id).bind _ |>.bind _).run exec φ w = _
  rw [Async.run_bind, Async.run_bind, h]
  have hnot : ¬ (retries : Int) ≥ settings.workerMaxRetries := by omega
  cases e with
  | parse detail => cases he
  | notFound detail => cases he
  | _ => simp only [hnot, if_false]; rfl

theorem delivery_exhausted (retries : Nat) {e : Exn} {φ'' : Feed World Oracle} {w'' : World} (he : e.transient)
    (hretries : settings.workerMaxRetries ≤ (retries : Int))
    (h : (processing ext settings id).run exec φ w = (w', some (.error e, φ')))
    (hmark : (exhaustion settings id).run exec φ' w' = (w'', some (.ok (), φ''))) :
    (delivery ext settings retries id).run exec φ w = (w'', some (.ok .done, φ'')) := by
  change ((processing ext settings id).bind _ |>.bind _).run exec φ w = _
  rw [Async.run_bind, Async.run_bind, h]
  cases e with
  | parse detail => cases he
  | notFound detail => cases he
  | _ =>
    simp only [ge_iff_le, hretries, if_true]
    change ((exhaustion settings id).bind _).run exec φ' w' = _
    rw [Async.run_bind, hmark]
    rfl

end Task

def Spares (id : Uuid) (φ : Feed World Oracle) : Prop :=
  ∀ n t, φ n = some t → ∀ s : World,
    (t.others s).db.document id = s.db.document id ∨ (t.others s).db.document id = none

def Deletes (id : Uuid) (φ : Feed World Oracle) : Prop :=
  ∃ n t s, φ n = some t ∧ (t.others s).db.document id ≠ s.db.document id

theorem spares_of_alone {φ : Feed World Oracle} (h : φ.Alone) (id : Uuid) : Spares id φ :=
  fun n t ht s => .inl (by rw [h n t ht]; rfl)

/-- Where `D` says that somebody may delete the row. -/
def sparing (id : Uuid) (D : Prop) (step : Oracle → Prop) : Contract api World Oracle where
  inv _ := True
  rely s t := t.db.document id = s.db.document id ∨ D ∧ t.db.document id = none
  guar _ _ := True
  step _ o _ _ := step o
  rely_refl _ := .inl rfl
  rely_trans h h' := by
    rcases h' with h' | h'
    · rcases h with h | h
      · exact .inl (h'.trans h)
      · exact .inr ⟨h.1, h'.trans h.2⟩
    · exact .inr h'

theorem Spares.respects {id : Uuid} {φ : Feed World Oracle} {D : Prop} {step : Oracle → Prop}
    (h : Spares id φ) (hD : Deletes id φ → D) : φ.Respects (sparing id D step) := by
  refine fun n t ht s _ => ⟨?_, trivial⟩
  by_cases hs : (t.others s).db.document id = s.db.document id
  · exact .inl hs
  · exact .inr ⟨hD ⟨n, t, s, ht, hs⟩, (h n t ht s).resolve_left hs⟩

theorem commits_sparing {id : Uuid} {D : Prop} {step : Oracle → Prop} {txn : Txn} {t : World}
    {Done Fail : World → Prop} (hfail : Fail t)
    (h : ∀ db skip, t.db.commit txn skip = .ok db →
      Done { t with db := db } ∧ Fail { t with db := db }) :
    Commits (sparing id D step) txn t Done Fail :=
  fun _ _ _ => ⟨⟨hfail, trivial, trivial⟩, fun db hc =>
    ⟨trivial, trivial, (h db _ hc).1, fun _ _ => (h db _ hc).2⟩⟩

/-- The row is there and satisfies `P`, or it has been deleted. -/
def Remains (id : Uuid) (D : Prop) (P : Document → Prop) (w : World) : Prop :=
  (∃ row, w.db.document id = some row ∧ P row) ∨ D ∧ w.db.document id = none

section Remains

variable {id : Uuid} {D : Prop} {P Q : Document → Prop} {w : World} {row : Document}

theorem Remains.stable (P : Document → Prop) {step : Oracle → Prop} :
    (sparing id D step).Stable (Remains id D P) := by
  intro s t hs hst _
  rcases hst with hst | hst
  · exact hs.imp (fun ⟨row, hrow, hP⟩ => ⟨row, hst.trans hrow, hP⟩) fun h => ⟨h.1, hst.trans h.2⟩
  · exact .inr hst

theorem Remains.mono (h : Remains id D P w) (hP : ∀ row, P row → Q row) : Remains id D Q w :=
  h.imp (fun ⟨row, hrow, hrow'⟩ => ⟨row, hrow, hP row hrow'⟩) fun h => h

theorem Remains.here (h : Remains id D P w) (hrow : w.db.document id = some row) : P row := by
  rcases h with ⟨row', hrow', hP⟩ | ⟨-, hnone⟩
  · rw [hrow] at hrow'
    exact Option.some.inj hrow' ▸ hP
  · rw [hrow] at hnone
    cases hnone

theorem Remains.gone (h : Remains id D P w) (hnone : w.db.document id = none) :
    Remains id D (fun _ => False) w := by
  rcases h with ⟨row, hrow, -⟩ | h
  · rw [hnone] at hrow
    cases hrow
  · exact .inr h

theorem Remains.commit {db : Database} (txn : Txn) {skip : Nat}
    (h : Remains txn.document.loaded.id D P w) (hc : w.db.commit txn skip = .ok db)
    (hP : ∀ row, P row → Q (txn.document.patch.apply row)) :
    Remains txn.document.loaded.id D Q { w with db := db } := by
  have hdoc := document_commit hc txn.document.loaded.id
  rw [if_pos rfl] at hdoc
  rcases h with ⟨row, hrow, hrow'⟩ | ⟨hD, hnone⟩
  · exact .inl ⟨_, hdoc.trans (by rw [hrow]; rfl), hP row hrow'⟩
  · exact .inr ⟨hD, hdoc.trans (by rw [hnone]; rfl)⟩

end Remains

/-- The ways a `ParseError` cannot leave a row unmarked: `process` marks it, returns before it gets
there, or finds the mark it would have to make. -/
def Document.Recordable (d : Document) : Prop :=
  d.rawContent ≠ none ∨ d.status = .completed ∨ d.Marked noPayload

instance (d : Document) : Decidable d.Recordable := inferInstanceAs (Decidable (_ ∨ _ ∨ _))

/-- How a call of `process` leaves the row. -/
def Settles (id : Uuid) (D : Prop) (step : Oracle → Prop) : Except Exn Instance → World → Prop
  | .ok _ => Remains id D (·.status = .completed)
  | .error (.parse detail) => Remains id D (·.Marked detail)
  | .error (.notFound detail) => fun w =>
    (∀ o, step o → ∀ texts, o.embed texts ≠ .error (.notFound detail)) →
      Remains id D (fun _ => False) w
  | .error _ => fun _ => True

section Call

variable {ext : External} {svc : IngestionService} {id : Uuid} {D : Prop} {step : Oracle → Prop}
  {d : Document}

theorem Settles.of_transient {e : Exn} (he : e.transient) (t : World) :
    Settles id D step (.error e) t := by
  cases e with
  | parse detail => cases he
  | notFound detail => cases he
  | _ => trivial

theorem Settles.stable (r : Except Exn Instance) :
    (sparing id D step).Stable (Settles id D step r) := by
  cases r with
  | ok _ => exact Remains.stable _
  | error e =>
    cases htr : e.transient with
    | true => exact fun s t _ _ _ => .of_transient htr t
    | false =>
      cases e with
      | parse detail => exact Remains.stable _
      | notFound detail => exact fun s t hs hst ht hstep => Remains.stable _ s t (hs hstep) hst ht
      | _ => cases htr

theorem process_sparing (hrec : d.Recordable) :
    ProcessProof (sparing d.id D step) ext svc d.id (Remains d.id D (· = d))
      (fun row w => row = d ∧ Remains d.id D (· = (started d).current) w)
      (Remains d.id D (·.file = d.file))
      (fun r w => Remains d.id D (·.file = d.file) w ∧ Settles d.id D step r w) where
  guar_refl _ := trivial
  pre_stable := Remains.stable _
  mid_stable _ s t hs hst ht := ⟨hs.1, Remains.stable _ s t hs.2 hst ht⟩
  fail_stable := Remains.stable _
  end_stable r s t hs hst ht := ⟨Remains.stable _ s t hs.1 hst ht, Settles.stable r s t hs.2 hst ht⟩
  pre_fail _ h := h.mono fun _ h => by rw [h]
  mid_fail _ _ h := h.2.mono fun _ h => by rw [h]; rfl
  stop _ _ _ := trivial
  transient _ t he h _ := ⟨h, .of_transient he t⟩
  absent t h _ hnone := ⟨(h.gone hnone).mono fun _ h => h.elim, fun _ => h.gone hnone⟩
  completed t row h _ hrow hdone :=
    ⟨h.mono fun _ h => by rw [h], .inl ⟨row, hrow, hdone⟩⟩
  payload t row h _ hrow hdone hraw := by
    refine ⟨h.mono fun _ h => by rw [h], .inl ⟨row, hrow, ?_⟩⟩
    rw [← h.here hrow] at hrec
    exact (hrec.resolve_left (by simp [hraw])).resolve_left hdone
  start t u row h _ hrow _ _ htu hu := by
    obtain rfl := h.here hrow
    have hRemains := Remains.stable _ t u h htu hu
    refine commits_sparing (hRemains.mono fun _ h => by rw [h]) fun db skip hc => ?_
    have hstarted : Remains row.id D (· = (started row).current) { u with db := db } :=
      Remains.commit (startTxn row) hRemains hc fun _ h => by rw [h, startTxn_apply]
    exact ⟨⟨rfl, hstarted⟩, hstarted.mono fun _ h => by rw [h]; rfl⟩
  gone t detail h _ hraises := by
    refine ⟨h, fun hstep => ?_⟩
    obtain ⟨_, o, texts, _, ho, he⟩ := hraises
    exact absurd he (hstep o ho texts)
  fail t row detail h _ _ := by
    obtain ⟨rfl, hRemains⟩ := h
    refine commits_sparing (hRemains.mono fun _ h => by rw [h]; rfl) fun db skip hc => ?_
    have hmarked := Remains.commit (failTxn (started row) detail)
      (Q := fun r => r.file = row.file ∧ r.Marked detail) hRemains hc fun r h => by
        rw [h]
        exact ⟨rfl, failTxn_apply _ detail⟩
    exact ⟨⟨hmarked.mono fun _ h => h.1, hmarked.mono fun _ h => h.2⟩, hmarked.mono fun _ h => h.1⟩
  store t row doomed drafts embeddings h _ _ := by
    obtain ⟨rfl, hRemains⟩ := h
    refine commits_sparing (hRemains.mono fun _ h => by rw [h]; rfl) fun db skip hc => ?_
    have hstored := Remains.commit (storeTxn row doomed drafts embeddings)
      (Q := fun r => r.file = row.file ∧ r.status = .completed) hRemains hc fun r h => by
        rw [h, storeTxn_patch]
        exact ⟨rfl, rfl⟩
    exact ⟨⟨hstored.mono fun _ h => h.1, hstored.mono fun _ h => h.2⟩, hstored.mono fun _ h => h.1⟩

theorem process_outcome {φ φ' : Feed World Oracle} {w w' : World} {r : Except Exn Instance}
    (hrec : d.Recordable) (hw : Remains d.id D (· = d) w) (hφ : Spares d.id φ)
    (hD : Deletes d.id φ → D) (hstep : φ.Answers step)
    (h : (svc.process ext none d.id).run.run exec φ w = (w', some (r, φ'))) :
    Remains d.id D (·.file = d.file) w' ∧ Settles d.id D step r w' ∧
      φ'.Respects (sparing d.id D step) := by
  have hwp : wpE exec (sparing d.id D step) _ (svc.process ext none d.id) w [] :=
    (process_sparing hrec).wpE_process hw
  obtain ⟨-, hφ', -, hkept, hend⟩ := (wp_run hwp trivial (hφ.respects hD)
    (Async.runObeys_of_forall exec (fun n t ht _ _ _ => hstep n t ht) _ _ _)).2 _ _ _ h
  exact ⟨hkept, hend, hφ'⟩

end Call

end RagPlatform
