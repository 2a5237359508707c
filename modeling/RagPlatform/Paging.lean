import RagPlatform.History
import RagPlatform.Lib.Paging
import RagPlatform.SystemLaws

/-! Going through `GET /v1/documents` page by page while the platform is in use. -/

namespace RagPlatform

open Lib

/-- What `ORDER BY created_at DESC, id` compares. -/
abbrev ListKey := Nat × Uuid

def ListKey.le (a b : ListKey) : Prop := b.1 < a.1 ∨ a.1 = b.1 ∧ a.2.toNat ≤ b.2.toNat

instance : DecidableRel ListKey.le := fun _ _ => inferInstanceAs (Decidable (_ ∨ _ ∧ _))

instance : Std.Antisymm ListKey.le where
  antisymm a b hab hba := by
    obtain ⟨n, ⟨i⟩⟩ := a
    obtain ⟨m, ⟨j⟩⟩ := b
    simp only [ListKey.le] at hab hba
    have hn : n = m := by omega
    have hi : i = j := by omega
    rw [hn, hi]

instance : Std.Total ListKey.le where
  total a b := by
    simp only [ListKey.le]
    omega

instance : IsTrans ListKey ListKey.le where
  trans a b c hab hbc := by
    simp only [ListKey.le] at hab hbc ⊢
    omega

def Document.listKey (d : Document) : ListKey := (d.createdAt, d.id)

namespace Database

variable (db : Database) (tenantId : Uuid)

def listing : List Document :=
  (db.documents.filter (·.tenantId = tenantId)).insertionSort fun d e =>
    e.createdAt < d.createdAt ∨ d.createdAt = e.createdAt ∧ d.id.toNat ≤ e.id.toNat

def listKeys : List ListKey := (db.documents.filter (·.tenantId = tenantId)).map Document.listKey

theorem listDocuments_page (limit k : Nat) :
    db.listDocuments tenantId limit (k * limit) = page limit k (db.listing tenantId) := rfl

variable {db tenantId} {db' : Database}

theorem sublist_listing (h : (db.listKeys tenantId).Subperm (db'.listKeys tenantId)) :
    ((db.listing tenantId).map (·.id)).Sublist ((db'.listing tenantId).map (·.id)) := by
  have hkeys := sublist_sorted (r := fun d e : Document => e.createdAt < d.createdAt ∨
    d.createdAt = e.createdAt ∧ d.id.toNat ≤ e.id.toNat) (s := ListKey.le) (fun _ _ => Iff.rfl) h
  have hids := hkeys.map Prod.snd
  rwa [List.map_map, List.map_map] at hids

theorem listKeys_patch (id : Uuid) (p : Patch) :
    (db.patch id p).listKeys tenantId = db.listKeys tenantId := by
  have hkey (d : Document) : (patchRow id p d).listKey = d.listKey := by
    unfold patchRow
    split <;> rfl
  simp [listKeys, patch, List.filter_map, Function.comp_def, hkey]

end Database

def Undeleted (tenantId : Uuid) (_ : Log api) (_ : Oracle) (c : Call) (w : World) : Prop :=
  ∀ id, c = .deleteDocument id → ∀ d, w.db.document id = some d → d.tenantId ≠ tenantId

theorem listKeys_exec {tenantId : Uuid} {l : Log api} {o : Oracle} {c : Call} {w : World}
    (h : Undeleted tenantId l o c w) :
    (w.db.listKeys tenantId).Subperm ((exec o c w).1.db.listKeys tenantId) := by
  have heffect := exec_effect o c w
  generalize (exec o c w).1.db = db at heffect
  cases heffect with
  | same => exact .refl _
  | insert =>
    refine List.Sublist.subperm ?_
    simp only [Database.listKeys, Database.add, List.filter_append, List.map_append]
    exact List.sublist_append_left _ _
  | @commit t _ hcommit =>
    obtain ⟨db₁, hu, hr⟩ := commit_ok hcommit
    obtain ⟨-, ha, rfl⟩ := Database.replaceChunks_ok hr
    rcases Database.update_ok hu with ⟨-, rfl⟩ | ⟨-, -, -, rfl⟩
    · exact .refl _
    · exact (Database.listKeys_patch ..).symm ▸ List.Subperm.refl _
  | @delete id =>
    have hrows : (w.db.deleteDocument id).documents.filter (·.tenantId = tenantId) =
        w.db.documents.filter (·.tenantId = tenantId) := by
      simp only [Database.deleteDocument, List.filter_filter]
      refine List.filter_congr fun d hd => ?_
      by_cases hid : d.id = id
      · have hother := h id rfl d (Database.document_eq_some.mpr ⟨hd, hid⟩)
        simp [hother]
      · simp [hid]
    rw [Database.listKeys, Database.listKeys, hrows]

def growing (tenantId : Uuid) : Contract api World Oracle where
  inv _ := True
  rely w w' := (w.db.listKeys tenantId).Subperm (w'.db.listKeys tenantId)
  guar w w' := (w.db.listKeys tenantId).Subperm (w'.db.listKeys tenantId)
  step := Undeleted tenantId
  rely_refl _ := .refl _
  rely_trans h h' := h.trans h'

theorem growing_keeps {α : Type} (tenantId : Uuid) (p : Io α) :
    Keeps exec (growing tenantId) (fun _ => True) p :=
  .of_wpE fun s l => ⟨_, wp_of_forall (fun l' _ _ _ _ ho => ⟨trivial, listKeys_exec (l := l') ho⟩)
    (fun _ _ => trivial) p s l⟩

section

variable {ι : Type} [DecidableEq ι] (ext : External) (settings : Settings) (w : World)
  (acts : List (Act ι))

/-- The act at position `n` answers the request `c` of some process with `x`. -/
def AnsweredAt (n : Nat) (c : Call) (x : Reply c) : Prop :=
  ∃ i o l out k, acts[n]? = some (.answer i o) ∧
    (platform ext settings w (acts.take n)).threads i = some ⟨l, out, .await c k⟩ ∧
    (exec o c (after ext settings w (acts.take n))).2 = .ok x

variable {ext settings w acts}

theorem rows_of_answeredAt {n limit offset : Nat} {tenantId : Uuid} {rows : List Document}
    (h : AnsweredAt ext settings w acts n (.listDocuments tenantId limit offset) rows) :
    (after ext settings w (acts.take n)).db.listDocuments tenantId limit offset = rows := by
  obtain ⟨i, o, l, out, k, -, -, hanswer⟩ := h
  rcases exec_cases o (.listDocuments tenantId limit offset) _ with he | ⟨name, hname, -⟩
  · rw [he] at hanswer
    exact Except.ok.inj hanswer
  · rw [hname] at hanswer
    cases hanswer

theorem listKeys_take {tenantId : Uuid} {m n : Nat} (hmn : m ≤ n)
    (hguard : Guarded ext settings w acts (Undeleted tenantId)) :
    ((after ext settings w (acts.take m)).db.listKeys tenantId).Subperm
      ((after ext settings w (acts.take n)).db.listKeys tenantId) := by
  obtain ⟨acts', hacts⟩ := List.take_prefix_take_left (l := acts) hmn
  have hprefix : Guarded ext settings w (acts.take n) (Undeleted tenantId) := by
    rw [Guarded, ← List.take_append_drop n acts, List.map_append, Pool.obeys_append] at hguard
    exact hguard.1
  rw [← hacts] at hprefix ⊢
  exact (run_keeps (K := growing tenantId) (fun _ => growing_keeps tenantId _) (fun h => h)
    (fun _ _ _ _ h => h) trivial hprefix).2

/-- Whoever asks for one page after the other, until one is not full, has seen every document that
was there for the first page, whatever is uploaded and processed meanwhile. -/
theorem mem_listed {tenantId : Uuid} {limit last : Nat} {turn : Nat → Nat}
    {rows : Nat → List Document} (hguard : Guarded ext settings w acts (Undeleted tenantId))
    (horder : ∀ k < last, turn k ≤ turn (k + 1))
    (hpages : ∀ k ≤ last, AnsweredAt ext settings w acts (turn k)
      (.listDocuments tenantId limit (k * limit)) (rows k))
    (hshort : (rows last).length < limit) {id : Uuid} {d : Document}
    (hd : (after ext settings w (acts.take (turn 0))).db.document id = some d)
    (htenant : d.tenantId = tenantId) : ∃ k ≤ last, ∃ e ∈ rows k, e.id = id := by
  let ids (k : Nat) : List Uuid :=
    ((after ext settings w (acts.take (turn k))).db.listing tenantId).map (·.id)
  have hpage (k : Nat) (hk : k ≤ last) : page limit k (ids k) = (rows k).map (·.id) := by
    rw [← rows_of_answeredAt (hpages k hk), Database.listDocuments_page]
    simp only [page, ids, List.map_take, List.map_drop]
  have hgrow (k : Nat) (hk : k < last) : (ids k).Sublist (ids (k + 1)) :=
    Database.sublist_listing (listKeys_take (horder k hk) hguard)
  have hstart : id ∈ ids 0 := by
    obtain ⟨hmem, hid⟩ := Database.document_eq_some.mp hd
    refine List.mem_map.mpr ⟨d, ?_, hid⟩
    simp only [Database.listing, List.mem_insertionSort, List.mem_filter, decide_eq_true_eq]
    exact ⟨hmem, htenant⟩
  obtain ⟨k, hk, hmem⟩ := mem_page_of_short hgrow hstart (by
    rw [hpage last le_rfl, List.length_map]
    exact hshort)
  rw [hpage k hk] at hmem
  exact ⟨k, hk, List.mem_map.mp hmem⟩

end

namespace Sample

def later : Oracle := { oracle with uuid := ⟨8⟩, now := 1 }

/-- Pages of one row, and a second upload after the first of them. -/
def paging : List (Act Nat) :=
  whole 0 4 (.upload tenantId note) ++ whole 1 2 (.list tenantId 1 0) ++
    .start 2 (.upload tenantId other) :: List.replicate 4 (.answer 2 later) ++
    whole 3 2 (.list tenantId 1 1) ++ whole 4 2 (.list tenantId 1 2)

def turn (k : Nat) : Nat := [7, 15, 18].getD k 0

def rows (k : Nat) : List Document :=
  (after ext {} world (paging.take (turn k))).db.listDocuments tenantId 1 k

def keepsRows (c : Call) : Bool :=
  match c with
  | .deleteDocument _ => false
  | _ => true

theorem mem_listed_paging : ∃ k ≤ 2, ∃ e ∈ rows k, e.id = documentId := by
  have hguard : Guarded ext {} world paging (Undeleted tenantId) := by
    refine guarded_of_checks (fun _ _ c _ => keepsRows c) (fun _ _ c _ hc id h => ?_) rfl
    subst h
    cases hc
  have horder (k : Nat) (hk : k < 2) : turn k ≤ turn (k + 1) := by
    obtain rfl | rfl : k = 0 ∨ k = 1 := by omega
    · decide
    · decide
  have hpages (k : Nat) (hk : k ≤ 2) : AnsweredAt ext {} world paging (turn k)
      (.listDocuments tenantId 1 (k * 1)) (rows k) := by
    obtain rfl | rfl | rfl : k = 0 ∨ k = 1 ∨ k = 2 := by omega
    · exact ⟨1, oracle, _, _, _, rfl, rfl, rfl⟩
    · exact ⟨3, oracle, _, _, _, rfl, rfl, rfl⟩
    · exact ⟨4, oracle, _, _, _, rfl, rfl, rfl⟩
  have hd : (after ext {} world (paging.take (turn 0))).db.document documentId =
      some ((IngestionService.newDocument ext tenantId "note.md".toList note.raw .markdown).row
        documentId 0) := rfl
  exact mem_listed hguard horder hpages (by decide) hd rfl

end Sample

end RagPlatform
