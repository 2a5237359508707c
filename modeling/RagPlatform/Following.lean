import RagPlatform.Frontend.Documents
import RagPlatform.Lifecycle
import RagPlatform.Paging

/-! What the documents page shows, and what the platform has. -/

namespace RagPlatform

open Lib

theorem terminal_or_inFlight (status : DocumentStatus) : status.terminal = !status.inFlight := by
  cases status <;> rfl

namespace DocumentsPage

/-- The control is locked exactly while an upload is under way, of which there is one at most. -/
def Locked (p : DocumentsPage) : Prop :=
  p.posting.isSome.toNat + p.loads.count .upload = p.uploading.toNat

variable {p : DocumentsPage}

namespace Locked

theorem load_view (h : p.Locked) : (p.load .view).Locked := by
  show p.posting.isSome.toNat + (LoadCause.view :: p.loads).count .upload = p.uploading.toNat
  rw [List.count_cons_of_ne (by decide)]
  exact h

theorem upload (h : p.Locked) (file : Option ChosenFile) : (p.upload file).Locked := by
  cases file with
  | none => exact h
  | some file =>
    simp only [DocumentsPage.upload]
    split
    · exact h
    · next hfree =>
      split
      · exact h
      · unfold Locked at h ⊢
        rw [Bool.not_eq_true] at hfree
        rw [hfree, Bool.toNat_false, Nat.add_eq_zero_iff] at h
        simp only [Option.isSome_some, Bool.toNat_true, h.2]

theorem onPosted (h : p.Locked) {name : Str} (hname : p.posting = some name)
    (res : Except Thrown Unit) : (p.onPosted name res).Locked := by
  unfold Locked at h
  rw [hname, Option.isSome_some, Bool.toNat_true] at h
  have hle := Bool.toNat_le p.uploading
  have hcount : p.loads.count .upload = 0 := by omega
  have huploading : p.uploading.toNat = 1 := by omega
  cases res with
  | ok u =>
    show 0 + (LoadCause.upload :: p.loads).count .upload = p.uploading.toNat
    rw [List.count_cons_self, hcount, huploading]
  | error thrown =>
    show 0 + p.loads.count .upload = 0
    rw [hcount]

theorem loaded (h : p.Locked) {cause : LoadCause} (hcause : cause ∈ p.loads)
    (res : Except Thrown (List DocumentItem)) :
    ((onLoaded { p with loads := p.loads.erase cause } res).onward cause).Locked := by
  unfold Locked at h
  have hle := Bool.toNat_le p.uploading
  cases cause with
  | view =>
    have hcount : (p.loads.erase .view).count .upload = p.loads.count .upload :=
      List.count_erase_of_ne (by decide)
    have hsame : p.posting.isSome.toNat + (p.loads.erase .view).count .upload =
        p.uploading.toNat := by
      rw [hcount]
      exact h
    cases res with
    | ok items => exact hsame
    | error thrown => exact hsame
  | upload =>
    have hpos : 0 < p.loads.count .upload := List.count_pos_iff.mpr hcause
    have hcount : (p.loads.erase .upload).count .upload = p.loads.count .upload - 1 :=
      List.count_erase_self
    have hdone : p.posting.isSome.toNat + (p.loads.erase .upload).count .upload = 0 := by
      rw [hcount]
      omega
    cases res with
    | ok items => exact hdone
    | error thrown => exact hdone

theorem step (h : p.Locked) (act : DocumentsAct) : (p.step act).Locked := by
  cases act with
  | mount => exact h.load_view
  | tick =>
    simp only [DocumentsPage.step]
    split
    · exact h.load_view
    · exact h
  | loaded cause res =>
    simp only [DocumentsPage.step]
    split
    · next hcause => exact h.loaded hcause res
    · exact h
  | usageLoaded res => exact h
  | upload file => exact h.upload file
  | posted res =>
    simp only [DocumentsPage.step]
    split
    · exact h
    · next name hname => exact h.onPosted hname res
  | remove confirmed =>
    simp only [DocumentsPage.step]
    split
    · exact h
    · exact h
  | removed res =>
    simp only [DocumentsPage.step]
    split
    · exact h
    · cases res with
      | ok u => exact load_view h
      | error thrown => exact h

theorem run (h : p.Locked) (acts : List DocumentsAct) : (p.run acts).Locked := by
  induction acts generalizing p with
  | nil => exact h
  | cons act acts ih => exact ih (h.step act)

end Locked

theorem docs_step (p : DocumentsPage) (act : DocumentsAct) : (p.step act).docs = p.docs ∨
    ∃ cause items, act = .loaded cause (.ok items) ∧ (p.step act).docs = some items := by
  cases act with
  | mount => exact .inl rfl
  | tick =>
    left
    simp only [step]
    split <;> rfl
  | loaded cause res =>
    by_cases hcause : cause ∈ p.loads
    · rw [step, if_pos hcause]
      cases res with
      | ok items =>
        refine .inr ⟨cause, items, rfl, ?_⟩
        cases cause <;> rfl
      | error thrown =>
        left
        cases cause <;> rfl
    · exact .inl (by rw [step, if_neg hcause])
  | usageLoaded res => exact .inl rfl
  | upload file =>
    left
    cases file with
    | none => rfl
    | some file =>
      simp only [step, upload]
      split
      · rfl
      · split <;> rfl
  | posted res =>
    left
    simp only [step]
    split
    · rfl
    · cases res <;> rfl
  | remove confirmed =>
    left
    simp only [step]
    split <;> rfl
  | removed res =>
    left
    simp only [step]
    split
    · rfl
    · cases res <;> rfl

theorem docs_run (acts : List DocumentsAct) {items : List DocumentItem}
    (h : (run {} acts).docs = some items) : ∃ cause, .loaded cause (.ok items) ∈ acts := by
  induction acts using List.reverseRecOn with
  | nil => cases h
  | append_singleton acts act ih =>
    rw [run, List.foldl_append, List.foldl_cons, List.foldl_nil] at h
    rcases docs_step (acts.foldl step {}) act with hsame | ⟨cause, items', rfl, hnew⟩
    · rw [hsame] at h
      obtain ⟨cause, hmem⟩ := ih h
      exact ⟨cause, List.mem_append_left _ hmem⟩
    · obtain rfl := Option.some.inj (hnew.symm.trans h)
      exact ⟨cause, List.mem_append_right _ (List.mem_singleton_self _)⟩

end DocumentsPage

section

variable {ι : Type} [DecidableEq ι] {ext : External} {settings : Settings} {w : World}
  {acts : List (Act ι)}

theorem status_of_listed (hcurrent : Guarded ext settings w acts fun l _ => upToDate l)
    {tenantId : Uuid} {n limit offset : Nat} {rows : List Document}
    (hrows : AnsweredAt ext settings w acts n (.listDocuments tenantId limit offset) rows)
    {row d : Document} (hrow : row ∈ rows) (hterm : row.status.terminal)
    (hd : (after ext settings w acts).db.document row.id = some d) : d.status = row.status := by
  rw [← rows_of_answeredAt hrows] at hrow
  have hsorted := List.mem_of_mem_drop (List.mem_of_mem_take hrow)
  have hmem := (List.mem_filter.mp ((List.mem_insertionSort _).mp hsorted)).1
  rw [← List.take_append_drop n acts] at hcurrent hd
  have hsettled := run_wp (K := abiding) abiding_job (fun h => h) (fun _ _ _ _ h => h) trivial
    hcurrent
  exact hsettled.2.status row.id row d (Database.document_eq_some.mpr ⟨hmem, rfl⟩) hd hterm

/-- In whatever order its loads are answered, what the page shows as completed or failed is so for
as long as the document is there; while it shows anything else, every tick of its timer reads the
list once more; and it sends one file at a time. -/
theorem page_follows {tenantId : Uuid} {events : List DocumentsAct}
    (hcurrent : Guarded ext settings w acts fun l _ => upToDate l)
    (hloads : ∀ cause items, .loaded cause (.ok items) ∈ events → ∃ n rows,
      AnsweredAt ext settings w acts n (.listDocuments tenantId 100 0) rows ∧
        items = rows.map Document.item) :
    let page := DocumentsPage.run {} events
    page.Locked ∧ (page.inFlight = false → page.step .tick = page) ∧
      ∀ items, page.docs = some items → ∀ item ∈ items,
        (item.status.inFlight = true ∧ page.step .tick = page.load .view) ∨
          ∀ d, (after ext settings w acts).db.document item.id = some d →
            d.status = item.status := by
  have hempty : DocumentsPage.Locked {} := rfl
  refine ⟨hempty.run events, fun hflight => if_neg (Bool.eq_false_iff.mp hflight),
    fun items hitems item hitem => ?_⟩
  obtain ⟨cause, hloaded⟩ := DocumentsPage.docs_run events hitems
  obtain ⟨n, rows, hrows, rfl⟩ := hloads cause items hloaded
  obtain ⟨row, hrow, rfl⟩ := List.mem_map.mp hitem
  cases hflight : row.status.inFlight with
  | true =>
    refine .inl ⟨hflight, if_pos ?_⟩
    rw [DocumentsPage.inFlight, hitems]
    exact List.any_eq_true.mpr ⟨row.item, hitem, hflight⟩
  | false =>
    have hterm : row.status.terminal = true := by rw [terminal_or_inFlight, hflight, Bool.not_false]
    exact .inr fun d hd => status_of_listed hcurrent hrows hrow hterm hd

end

namespace Sample

/-- The list is read before the delivery and after it. -/
def followed : List (Act Nat) :=
  whole 0 4 (.upload tenantId note) ++ whole 1 2 (.list tenantId 100 0) ++
    whole 2 6 (.deliver 0 documentId) ++ whole 3 2 (.list tenantId 100 0)

def listedAt (n : Nat) : List Document :=
  (after ext {} world (followed.take n)).db.listDocuments tenantId 100 0

/-- The first load shows a document under way.  While a file is sent and the timer ticks on, the
answer to an older load comes in behind that to a newer one. -/
def overtaken : List DocumentsAct :=
  [.mount, .loaded .view (.ok ((listedAt 7).map Document.item)), .tick, .tick,
    .upload (some ⟨"other.md".toList, 3⟩), .loaded .view (.ok ((listedAt 17).map Document.item)),
    .loaded .view (.ok ((listedAt 7).map Document.item)), .posted (.ok ()), .tick,
    .loaded .upload (.ok ((listedAt 17).map Document.item))]

def lists : Async api (Except Exn Outcome) → Bool
  | .await (.listDocuments t limit offset) _ => t = tenantId && limit = 100 && offset = 0
  | _ => false

theorem answeredAt_followed {n i : Nat} (hact : followed[n]? = some (.answer i oracle))
    (hlists : ((platform ext {} world (followed.take n)).threads i).any (fun t => lists t.code)) :
    AnsweredAt ext {} world followed n (.listDocuments tenantId 100 0) (listedAt n) := by
  obtain ⟨⟨l, out, code⟩, ht, hcode⟩ := (Option.any_eq_true _ _).mp hlists
  unfold lists at hcode
  split at hcode
  · next t limit offset k hawait =>
    simp only [Bool.and_eq_true, decide_eq_true_eq] at hcode
    obtain ⟨⟨rfl, rfl⟩, rfl⟩ := hcode
    exact ⟨i, oracle, l, out, k, hact, hawait ▸ ht, rfl⟩
  · cases hcode

theorem current_followed : Guarded ext {} world followed fun l _ => upToDate l :=
  guarded_of_checks (fun l _ c w => decide (upToDate l c w)) (fun _ _ _ _ h => of_decide_eq_true h)
    (by decide +kernel)

/-- Every load is answered by the list of one of the two moments. -/
theorem loads_overtaken {events : List DocumentsAct} (hevents : events <+: overtaken)
    (cause : LoadCause) (items : List DocumentItem) (h : .loaded cause (.ok items) ∈ events) :
    ∃ n rows, AnsweredAt ext {} world followed n (.listDocuments tenantId 100 0) rows ∧
      items = rows.map Document.item := by
  have hearly : AnsweredAt ext {} world followed 7 (.listDocuments tenantId 100 0) (listedAt 7) :=
    answeredAt_followed rfl (by decide +kernel)
  have hlate : AnsweredAt ext {} world followed 17 (.listDocuments tenantId 100 0) (listedAt 17) :=
    answeredAt_followed rfl (by decide +kernel)
  have hmem := hevents.subset h
  simp only [overtaken, List.mem_cons, DocumentsAct.loaded.injEq, Except.ok.injEq, reduceCtorEq,
    false_or, List.not_mem_nil, or_false] at hmem
  rcases hmem with ⟨-, h⟩ | ⟨-, h⟩ | ⟨-, h⟩ | ⟨-, h⟩
  · exact ⟨7, _, hearly, h⟩
  · exact ⟨17, _, hlate, h⟩
  · exact ⟨7, _, hearly, h⟩
  · exact ⟨17, _, hlate, h⟩

theorem page_follows_overtaken :
    (DocumentsPage.run {} (overtaken.take 8)).step .tick =
      (DocumentsPage.run {} (overtaken.take 8)).load .view ∧
    (DocumentsPage.run {} overtaken).uploading = false ∧
    (DocumentsPage.run {} overtaken).docs = some ((listedAt 17).map Document.item) ∧
    (listedAt 17).map (·.status) = [.completed] ∧ ∀ row ∈ listedAt 17, ∀ d,
      (after ext {} world followed).db.document row.id = some d → d.status = row.status := by
  have hpending :
      (listedAt 7).map (fun row => (row.id, row.status)) = [(documentId, .pending)] := by
    decide +kernel
  have hcompleted : (listedAt 17).map (·.status) = [.completed] := by decide +kernel
  have hend : ((after ext {} world followed).db.document documentId).map (·.status) =
      some .completed := by
    decide +kernel
  obtain ⟨-, -, hfollows⟩ := page_follows current_followed (loads_overtaken (List.take_prefix 8 _))
  obtain ⟨hlocked, -, hfollows'⟩ :=
    page_follows current_followed (loads_overtaken (List.prefix_refl _))
  obtain ⟨row, hrows, hrow⟩ := List.map_eq_singleton_iff.mp hpending
  obtain ⟨hid, hstatus⟩ := Prod.mk.inj hrow
  obtain ⟨d, hd, hdone⟩ := Option.map_eq_some_iff.mp hend
  have hmem : row.item ∈ (listedAt 7).map Document.item :=
    List.mem_map_of_mem (hrows ▸ List.mem_singleton_self row)
  refine ⟨?_, ?_, rfl, hcompleted, fun row hrow d hd => ?_⟩
  · rcases hfollows _ rfl row.item hmem with ⟨-, htick⟩ | hsame
    · exact htick
    · have hrowid : row.item.id = documentId := hid
      have hitem : d.status = row.status := hsame d (hrowid ▸ hd)
      rw [hdone, hstatus] at hitem
      cases hitem
  · exact Bool.toNat_eq_zero.mp hlocked.symm
  · rcases hfollows' _ rfl row.item (List.mem_map_of_mem hrow) with ⟨hflight, -⟩ | hsame
    · have hstatus : row.status ∈ (listedAt 17).map (·.status) := List.mem_map_of_mem hrow
      rw [hcompleted, List.mem_singleton] at hstatus
      have hitem : row.item.status = .completed := hstatus
      rw [hitem] at hflight
      cases hflight
    · exact hsame d hd

end Sample

end RagPlatform
