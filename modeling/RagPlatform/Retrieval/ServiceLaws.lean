import Mathlib.Data.Prod.Lex
import Mathlib.Algebra.Order.Ring.Rat
import RagPlatform.Retrieval.Service

/-! What a search makes of the lists it retrieves. -/

namespace RagPlatform

open Lib

def scoreIn (hits : List ChunkHit) (id : Nat) : Option Rat :=
  (hits.find? (·.chunkId = id)).map (·.score)

/-- The entry `name` of a breakdown, where there is a score for it. -/
def note (name : Str) (score : Option Rat) (scores : Dict Str Rat) : Dict Str Rat :=
  match score with
  | none => scores
  | some score => scores.set name score

theorem get?_note (name name' : Str) (score : Option Rat) (scores : Dict Str Rat) :
    (note name score scores).get? name' =
      if name = name' then score.or (scores.get? name') else scores.get? name' := by
  cases score with
  | none => simp [note]
  | some score =>
    by_cases h : name = name'
    · subst h
      simp [note, Dict.get?_set_self]
    · simp [note, h, Dict.get?_set_of_ne _ _ (Ne.symm h)]

def ChunkHit.retrieved (hit : ChunkHit) (id : Nat) (scores : Dict Str Rat) : RetrievedChunk where
  chunkId := id
  documentId := hit.documentId
  filename := hit.filename
  chunkIndex := hit.chunkIndex
  content := hit.content
  metadata := hit.metadata
  scores := scores

namespace Gathered

def noted (g : Gathered) (id : Nat) : Dict Str Rat := (g.scores.get? id).getD []

def entries (hits : List ChunkHit) : Dict Nat Rat := hits.map fun hit => (hit.chunkId, hit.score)

theorem keys_entries (hits : List ChunkHit) : (entries hits).keys = hits.map (·.chunkId) := by
  simp [entries, Dict.keys]

theorem get?_entries (hits : List ChunkHit) (id : Nat) : (entries hits).get? id = scoreIn hits id := by
  induction hits with
  | nil => rfl
  | cons hit hits ih =>
    have hentries : entries (hit :: hits) = (hit.chunkId, hit.score) :: entries hits := rfl
    rw [hentries, Dict.get?_cons, ih, scoreIn, scoreIn, List.find?_cons]
    by_cases h : hit.chunkId = id
    · simp [h]
    · simp [h]

theorem get?_credit {name : Str} {given : Dict Nat Rat} (h : given.keys.Nodup)
    (scores : Dict Nat (Dict Str Rat)) (id : Nat) :
    (given.foldl (credit name) scores).get? id =
      ((given.get? id).map fun score => ((scores.get? id).getD []).set name score).or
        (scores.get? id) :=
  Dict.get?_foldl_update (fun (old : Option (Dict Str Rat)) score => (old.getD []).set name score)
    h scores id

theorem scores_register (g : Gathered) (name : Str) (hits : List ChunkHit) :
    (g.register (name, hits)).scores = (entries hits).foldl (credit name) g.scores := by
  change (hits.foldl (add name) g).scores = _
  induction hits generalizing g with
  | nil => rfl
  | cons hit hits ih => exact ih (g.add name hit)

theorem get?_hits_register (g : Gathered) (name : Str) (hits : List ChunkHit) (id : Nat) :
    (g.register (name, hits)).hits.get? id = (g.hits.get? id).or (hits.find? (·.chunkId = id)) := by
  change (hits.foldl (add name) g).hits.get? id = _
  induction hits generalizing g with
  | nil => simp
  | cons hit hits ih =>
    rw [List.foldl_cons, ih, add, Dict.get?_setdefault, Option.or_assoc, List.find?_cons]
    by_cases h : hit.chunkId = id
    · simp [h]
    · simp [h]

theorem noted_register {g : Gathered} {name : Str} {hits : List ChunkHit}
    (h : (hits.map (·.chunkId)).Nodup) (id : Nat) :
    (g.register (name, hits)).noted id = note name (scoreIn hits id) (g.noted id) := by
  rw [noted, scores_register, get?_credit (keys_entries hits ▸ h), get?_entries]
  cases scoreIn hits id with
  | none => rfl
  | some score => rfl

def Has (g : Gathered) (id : Nat) : Prop :=
  (∃ hit, g.hits.get? id = some hit) ∧ ∃ scores, g.scores.get? id = some scores

theorem has_register {g : Gathered} {name : Str} {hits : List ChunkHit}
    (h : (hits.map (·.chunkId)).Nodup) {id : Nat} (hid : g.Has id ∨ id ∈ hits.map (·.chunkId)) :
    (g.register (name, hits)).Has id := by
  unfold Has
  rw [get?_hits_register, scores_register, get?_credit (keys_entries hits ▸ h), get?_entries]
  rcases hid with ⟨⟨hit, hhit⟩, scores, hscores⟩ | hid
  · rw [hhit, hscores]
    refine ⟨⟨hit, rfl⟩, ?_⟩
    cases scoreIn hits id with
    | none => exact ⟨scores, rfl⟩
    | some score => exact ⟨_, rfl⟩
  · obtain ⟨hit, hfind⟩ : ∃ hit, hits.find? (·.chunkId = id) = some hit := by
      obtain ⟨hit, hmem, hid⟩ := List.mem_map.mp hid
      exact Option.isSome_iff_exists.mp (List.find?_isSome.mpr ⟨hit, hmem, by simpa using hid⟩)
    rw [scoreIn, hfind]
    constructor
    · cases g.hits.get? id with
      | none => exact ⟨hit, rfl⟩
      | some old => exact ⟨old, rfl⟩
    · exact ⟨_, rfl⟩

theorem noted_credit {g : Gathered} {name : Str} {given : Dict Nat Rat} (h : given.keys.Nodup)
    (id : Nat) :
    ({ g with scores := given.foldl (credit name) g.scores } : Gathered).noted id =
      note name (given.get? id) (g.noted id) := by
  rw [noted, get?_credit h]
  cases given.get? id with
  | none => rfl
  | some score => rfl

theorem has_credit {g : Gathered} {name : Str} {given : Dict Nat Rat} (h : given.keys.Nodup)
    {id : Nat} (hid : g.Has id) :
    ({ g with scores := given.foldl (credit name) g.scores } : Gathered).Has id := by
  obtain ⟨hhit, scores, hscores⟩ := hid
  refine ⟨hhit, ?_⟩
  show ∃ scores', (given.foldl (credit name) g.scores).get? id = some scores'
  rw [get?_credit h, hscores]
  cases given.get? id with
  | none => exact ⟨scores, rfl⟩
  | some score => exact ⟨_, rfl⟩

theorem chunk_of_has {g : Gathered} {id : Nat} (h : g.Has id) :
    ∃ hit, g.hits.get? id = some hit ∧ g.chunk id = .ok (hit.retrieved id (g.noted id)) := by
  obtain ⟨⟨hit, hhit⟩, scores, hscores⟩ := h
  refine ⟨hit, hhit, ?_⟩
  rw [chunk, noted, hhit, hscores]
  rfl

end Gathered

def rrfTerm (rrfK : Int) (rank : Option Nat) : Rat :=
  match rank with
  | none => 0
  | some rank => 1 / (rrfK + rank + 1 : Int)

def placeIn (ids : List Nat) (id : Nat) : Option Nat := ids.idxOf? id

theorem get?_zipIdx (ids : List Nat) (start id : Nat) :
    Dict.get? (ids.zipIdx start) id = (placeIn ids id).map (· + start) := by
  unfold placeIn
  induction ids generalizing start with
  | nil => rfl
  | cons x ids ih =>
    rw [List.zipIdx_cons, Dict.get?_cons, ih, List.idxOf?_cons]
    by_cases h : x = id
    · simp [h]
    · simp [h, Option.map_map, Function.comp_def, Nat.add_assoc, Nat.add_comm 1]

theorem keys_zipIdx (ids : List Nat) (start : Nat) : Dict.keys (ids.zipIdx start) = ids := by
  simp [Dict.keys, List.zipIdx_map_fst]

theorem mem_iff_placeIn {ids : List Nat} {id : Nat} : (placeIn ids id).isSome ↔ id ∈ ids := by
  simp [placeIn]

theorem placeIn_of_mem {ids : List Nat} {id : Nat} (h : id ∈ ids) :
    placeIn ids id = some (ids.idxOf id) := by
  obtain ⟨i, hi⟩ := Option.isSome_iff_exists.mp (mem_iff_placeIn.mpr h)
  rw [hi, List.idxOf_eq_getD_idxOf?]
  unfold placeIn at hi
  rw [hi]
  rfl

/-- `fused.get(chunk_id, 0.0) + 1.0 / (rrf_k + rank + 1)` -/
def addTerm (rrfK : Int) (old : Option Rat) (rank : Nat) : Rat :=
  old.getD 0 + rrfTerm rrfK (some rank)

def zeroDivision : Exn := .other "ZeroDivisionError".toList

theorem foldlM_contribute {rrfK : Int} {entries : List (Nat × Nat)}
    (h : ∀ e ∈ entries, rrfK + e.2 + 1 ≠ 0) (fused : Dict Nat Rat) :
    entries.foldlM (contribute rrfK) fused =
      .ok (entries.foldl (fun d e => d.set e.1 (addTerm rrfK (d.get? e.1) e.2)) fused) := by
  induction entries generalizing fused with
  | nil => rfl
  | cons e entries ih =>
    obtain ⟨he, hrest⟩ := List.forall_mem_cons.mp h
    rw [List.foldlM_cons, contribute, if_neg he]
    exact ih hrest _

theorem foldlM_contribute_zero {rrfK : Int} {entries : List (Nat × Nat)}
    (h : ∃ e ∈ entries, rrfK + e.2 + 1 = 0) (fused : Dict Nat Rat) :
    entries.foldlM (contribute rrfK) fused = .error zeroDivision := by
  induction entries generalizing fused with
  | nil => simp at h
  | cons e entries ih =>
    rw [List.foldlM_cons, contribute]
    split
    · rfl
    · next he =>
      obtain ⟨e', hmem, hzero⟩ := h
      rcases List.mem_cons.mp hmem with rfl | hmem
      · exact absurd hzero he
      · exact ih ⟨e', hmem, hzero⟩ _

def Divides (rrfK : Int) (a b : List Nat) : Prop :=
  ∃ i : Nat, (i < a.length ∨ i < b.length) ∧ rrfK + i + 1 = 0

theorem mem_zipIdx_snd {ids : List Nat} {i : Nat} : (∃ e ∈ ids.zipIdx, e.2 = i) ↔ i < ids.length := by
  constructor
  · rintro ⟨e, he, rfl⟩
    exact List.snd_lt_of_mem_zipIdx he
  · intro hi
    exact ⟨(ids[i], i), List.mk_mem_zipIdx_iff_getElem?.mpr (List.getElem?_eq_getElem hi), rfl⟩

theorem not_divides {rrfK : Int} (h : 0 ≤ rrfK) (a b : List Nat) : ¬ Divides rrfK a b := by
  rintro ⟨i, -, hi⟩
  omega

section Fuse

variable {rrfK : Int} {a b : List Nat}

theorem divides_iff :
    Divides rrfK a b ↔ ∃ e ∈ a.zipIdx ++ b.zipIdx, rrfK + e.2 + 1 = 0 := by
  constructor
  · rintro ⟨i, hi, hzero⟩
    rcases hi with hi | hi
    · obtain ⟨e, he, rfl⟩ := mem_zipIdx_snd.mpr hi
      exact ⟨e, List.mem_append_left _ he, hzero⟩
    · obtain ⟨e, he, rfl⟩ := mem_zipIdx_snd.mpr hi
      exact ⟨e, List.mem_append_right _ he, hzero⟩
  · rintro ⟨e, he, hzero⟩
    exact ⟨e.2, (List.mem_append.mp he).imp (fun h => mem_zipIdx_snd.mp ⟨e, h, rfl⟩)
      fun h => mem_zipIdx_snd.mp ⟨e, h, rfl⟩, hzero⟩

theorem fuse_error (h : Divides rrfK a b) : fuse rrfK [a, b] = .error zeroDivision := by
  have hentries : [a, b].flatMap List.zipIdx = a.zipIdx ++ b.zipIdx := by simp
  rw [fuse, hentries]
  exact foldlM_contribute_zero (divides_iff.mp h) []

theorem fuse_ok (ha : a.Nodup) (hb : b.Nodup) (h : ¬ Divides rrfK a b) :
    ∃ fused, fuse rrfK [a, b] = .ok fused ∧ fused.keys.Nodup ∧
      ∀ id, fused.get? id = if id ∈ a ∨ id ∈ b then
        some (rrfTerm rrfK (placeIn a id) + rrfTerm rrfK (placeIn b id)) else none := by
  have hentries : [a, b].flatMap List.zipIdx = a.zipIdx ++ b.zipIdx := by simp
  have hnonzero : ∀ e ∈ a.zipIdx ++ b.zipIdx, rrfK + e.2 + 1 ≠ 0 :=
    fun e he hzero => h (divides_iff.mpr ⟨e, he, hzero⟩)
  refine ⟨_, by rw [fuse, hentries, foldlM_contribute hnonzero], ?_, fun id => ?_⟩
  · exact Dict.nodup_keys_foldl_set (fun d e => addTerm rrfK (d.get? e.1) e.2) _ List.nodup_nil
  · rw [List.foldl_append,
      Dict.get?_foldl_update (addTerm rrfK) ((keys_zipIdx b 0).symm ▸ hb),
      Dict.get?_foldl_update (addTerm rrfK) ((keys_zipIdx a 0).symm ▸ ha), get?_zipIdx, get?_zipIdx]
    simp only [← mem_iff_placeIn]
    cases placeIn a id with
    | none =>
      cases placeIn b id with
      | none => rfl
      | some j => simp [addTerm, rrfTerm, Dict.get?]
    | some i =>
      cases placeIn b id with
      | none => simp [addTerm, rrfTerm, Dict.get?]
      | some j => simp [addTerm, rrfTerm, Dict.get?]

end Fuse

def rankKey (score : Rat) (id : Nat) : Ratᵒᵈ ×ₗ Nat := toLex (OrderDual.toDual score, id)

theorem rankKey_le {s t : Rat} {a b : Nat} :
    rankKey s a ≤ rankKey t b ↔ t < s ∨ s = t ∧ a ≤ b := by
  simp [rankKey, Prod.Lex.toLex_le_toLex]

theorem rankKey_lt {s t : Rat} {a b : Nat} :
    rankKey s a < rankKey t b ↔ t < s ∨ s = t ∧ a < b := by
  simp [rankKey, Prod.Lex.toLex_lt_toLex]

theorem rankKey_inj {s t : Rat} {a b : Nat} (h : rankKey s a = rankKey t b) : a = b :=
  congrArg (fun x => (ofLex x).2) h

theorem rankKey_place_lt {i j a b : Nat} (h : i < j) :
    rankKey (-((i : Nat) : Rat)) a < rankKey (-((j : Nat) : Rat)) b := by
  refine Prod.Lex.toLex_lt_toLex.mpr (.inl ?_)
  show -((j : Nat) : Rat) < -((i : Nat) : Rat)
  exact neg_lt_neg (Nat.cast_lt.mpr h)

theorem perm_best (score : Nat → Rat) (ids : List Nat) : (best score ids).Perm ids :=
  List.perm_insertionSort ..

theorem sorted_best (score : Nat → Rat) {ids : List Nat} (h : ids.Nodup) :
    (best score ids).Pairwise fun a b => rankKey (score a) a < rankKey (score b) b := by
  have hle : (best score ids).Pairwise fun a b => rankKey (score a) a ≤ rankKey (score b) b := by
    have htrans : IsTrans Nat fun a b => rankKey (score a) a ≤ rankKey (score b) b :=
      ⟨fun _ _ _ h₁ h₂ => h₁.trans h₂⟩
    have htotal : Std.Total fun a b => rankKey (score a) a ≤ rankKey (score b) b :=
      ⟨fun _ _ => le_total _ _⟩
    unfold best
    simp only [← rankKey_le]
    exact List.pairwise_insertionSort _ ids
  have hne : (best score ids).Pairwise (· ≠ ·) := (perm_best score ids).nodup_iff.mpr h
  exact (hle.and hne).imp fun ⟨h₁, h₂⟩ => lt_of_le_of_ne h₁ fun heq => h₂ (rankKey_inj heq)

theorem sorted_places {ids : List Nat} (h : ids.Nodup) :
    ids.Pairwise fun a b => rankKey (-(((placeIn ids a).getD 0 : Nat) : Rat)) a <
      rankKey (-(((placeIn ids b).getD 0 : Nat) : Rat)) b := by
  rw [List.pairwise_iff_getElem]
  intro i j hi hj hij
  rw [placeIn_of_mem (List.getElem_mem hi), placeIn_of_mem (List.getElem_mem hj),
    h.idxOf_getElem i hi, h.idxOf_getElem j hj]
  exact rankKey_place_lt hij

def brief (c : RetrievedChunk) : Nat × Dict Str Rat := (c.chunkId, c.scores)

theorem mem_of_mem_upTo {α : Type} {xs : List α} {n : Int} {x : α} (h : x ∈ upTo xs n) : x ∈ xs := by
  unfold upTo at h
  split at h
  · exact List.mem_of_mem_take h
  · exact List.mem_of_mem_take h

theorem mapM_chunk {g : Gathered} {ids : List Nat} (h : ∀ id ∈ ids, g.Has id) :
    ∃ chunks, ids.mapM g.chunk = .ok chunks ∧ chunks.map (·.chunkId) = ids ∧
      ∀ c ∈ chunks, ∃ hit, g.hits.get? c.chunkId = some hit ∧
        c = hit.retrieved c.chunkId (g.noted c.chunkId) := by
  induction ids with
  | nil => exact ⟨[], rfl, rfl, fun _ hc => (by cases hc)⟩
  | cons id ids ih =>
    obtain ⟨hid, hrest⟩ := List.forall_mem_cons.mp h
    obtain ⟨hit, hhit, hchunk⟩ := Gathered.chunk_of_has hid
    obtain ⟨chunks, hchunks, hids, hdata⟩ := ih hrest
    refine ⟨hit.retrieved id (g.noted id) :: chunks, ?_, ?_, List.forall_mem_cons.mpr
      ⟨⟨hit, hhit, rfl⟩, hdata⟩⟩
    · rw [List.mapM_cons, hchunk, hchunks]
      rfl
    · rw [List.map_cons, hids]
      rfl

theorem mapM_chunk_brief {g : Gathered} {ids : List Nat} (h : ∀ id ∈ ids, g.Has id) :
    ∃ chunks, ids.mapM g.chunk = .ok chunks ∧
      chunks.map brief = ids.map fun id => (id, g.noted id) := by
  obtain ⟨chunks, hchunks, hids, hdata⟩ := mapM_chunk h
  refine ⟨chunks, hchunks, ?_⟩
  rw [← hids, List.map_map]
  refine List.map_congr_left fun c hc => ?_
  obtain ⟨hit, -, heq⟩ := hdata c hc
  rw [brief, heq]
  rfl

theorem mapM_content {g : Gathered} {text : Nat → Str} {ids : List Nat} (h : ∀ id ∈ ids, g.Has id)
    (htext : ∀ id hit, g.hits.get? id = some hit → hit.content = text id) :
    ids.mapM g.content = .ok (ids.map text) := by
  induction ids with
  | nil => rfl
  | cons id ids ih =>
    obtain ⟨⟨⟨hit, hhit⟩, -⟩, hrest⟩ := List.forall_mem_cons.mp h
    have hcontent : g.content id = .ok (text id) := by
      rw [Gathered.content, hhit]
      exact congrArg Except.ok (htext id hit hhit)
    rw [List.mapM_cons, hcontent, ih hrest]
    rfl

/-- The score that a chunk is given, the scores being those of the chunks of a list in turn. -/
def ownScore (ids : List Nat) (given : List Rat) (id : Nat) : Option Rat := given[ids.idxOf id]?

theorem get?_zip {ids : List Nat} {given : List Rat} (h : given.length = ids.length) (id : Nat) :
    Dict.get? (ids.zip given) id = ownScore ids given id := by
  induction ids generalizing given with
  | nil =>
    obtain rfl := List.length_eq_zero_iff.mp h
    rfl
  | cons x ids ih =>
    obtain ⟨score, given, rfl⟩ := List.exists_cons_of_length_eq_add_one h
    rw [List.zip_cons_cons, Dict.get?_cons, ih (Nat.succ.inj h), ownScore, ownScore]
    by_cases hx : x = id
    · simp [hx]
    · simp [hx]

theorem Gathered.reranked_ok {g : Gathered} {ordered : List Nat} {given : List Rat}
    (hnodup : ordered.Nodup) (hlen : given.length = ordered.length)
    (hhas : ∀ id ∈ ordered, g.Has id) :
    (g.reranked ordered given).1.hits = g.hits ∧
      (g.reranked ordered given).2.Perm ordered ∧
      ((g.reranked ordered given).2.Pairwise fun a b =>
        rankKey ((ownScore ordered given a).getD 0) a <
          rankKey ((ownScore ordered given b).getD 0) b) ∧
      ∀ id ∈ ordered, (g.reranked ordered given).1.Has id ∧
        (g.reranked ordered given).1.noted id =
          note "rerank".toList (ownScore ordered given id) (g.noted id) := by
  have hkeys : Dict.keys (ordered.zip given) = ordered := List.map_fst_zip hlen.ge
  have hnodup' : (Dict.keys (ordered.zip given)).Nodup := hkeys.symm ▸ hnodup
  have hscore {id : Nat} (hid : id ∈ ordered) :
      ((((ordered.zip given).foldl (credit "rerank".toList) g.scores).get? id).bind
        (·.get? "rerank".toList)).getD 0 = (ownScore ordered given id).getD 0 := by
    have hsome : (ownScore ordered given id).isSome := by
      rw [← get?_zip hlen, Dict.isSome_get?, hkeys]
      exact hid
    obtain ⟨score, hscore⟩ := Option.isSome_iff_exists.mp hsome
    rw [Gathered.get?_credit hnodup', get?_zip hlen, hscore]
    simp [Dict.get?_set_self]
  refine ⟨rfl, perm_best _ _, ?_, fun id hid => ?_⟩
  · refine (sorted_best _ hnodup).imp_of_mem fun {a b} ha hb hlt => ?_
    rwa [hscore ((perm_best _ _).mem_iff.mp ha), hscore ((perm_best _ _).mem_iff.mp hb)] at hlt
  · rw [← get?_zip hlen]
    exact ⟨Gathered.has_credit hnodup' (hhas id hid), Gathered.noted_credit hnodup' id⟩

namespace RetrievalService

variable (svc : RetrievalService)

def rescore (score : Str → Rat) (g : Gathered) (ordered : List Nat) :
    Except Exn (Gathered × List Nat) :=
  if svc.reranker = .none ∨ ordered = [] then .ok (g, ordered)
  else do
    let contents ← ordered.mapM g.content
    return g.reranked ordered (contents.map score)

/-- What `search` does with the lists once it has them. -/
def conclude (mode : SearchMode) (limit : Int) (score : Str → Rat)
    (sources : List (Str × List ChunkHit)) : Except Exn (List RetrievedChunk) := do
  let g := sources.foldl Gathered.register {}
  let rankLists := sources.map fun source => source.2.map (·.chunkId)
  let ranked ← g.order mode svc.rrfK rankLists
  let ranked ← svc.rescore score ranked.1 ranked.2
  (upTo ranked.2 limit).mapM ranked.1.chunk

variable {svc} {score : Str → Rat} {text : Nat → Str} {g : Gathered} {ordered : List Nat}

/-- The score of the reranker, for the chunks it is asked about. -/
def rerankScore (svc : RetrievalService) (score : Str → Rat) (text : Nat → Str) (id : Nat) :
    Option Rat := if svc.reranker = .none then none else some (score (text id))

theorem rescore_ok (hsome : svc.reranker ≠ .none) (hnodup : ordered.Nodup)
    (hhas : ∀ id ∈ ordered, g.Has id)
    (htext : ∀ id hit, g.hits.get? id = some hit → hit.content = text id) :
    ∃ g' ordered', svc.rescore score g ordered = .ok (g', ordered') ∧ ordered'.Perm ordered ∧
      (ordered'.Pairwise fun a b => rankKey (score (text a)) a < rankKey (score (text b)) b) ∧
      ∀ id ∈ ordered, g'.Has id ∧
        g'.noted id = note "rerank".toList (some (score (text id))) (g.noted id) := by
  by_cases hnil : ordered = []
  · subst hnil
    exact ⟨g, [], by rw [rescore, if_pos (.inr rfl)], .refl _, .nil, fun _ h => absurd h List.not_mem_nil⟩
  have hok : svc.rescore score g ordered =
      .ok (g.reranked ordered ((ordered.map text).map score)) := by
    rw [rescore, if_neg (by simp [hsome, hnil]), mapM_content hhas htext]
    rfl
  have hown {id : Nat} (hid : id ∈ ordered) :
      ownScore ordered ((ordered.map text).map score) id = some (score (text id)) := by
    rw [ownScore, List.map_map, List.getElem?_map,
      List.getElem?_eq_getElem (List.idxOf_lt_length_of_mem hid), List.getElem_idxOf]
    rfl
  have hlen : ((ordered.map text).map score).length = ordered.length := by
    rw [List.length_map, List.length_map]
  obtain ⟨-, hperm, hsorted, hnoted⟩ := Gathered.reranked_ok hnodup hlen hhas
  refine ⟨_, _, hok, hperm, hsorted.imp_of_mem fun {a b} ha hb hlt => ?_, fun id hid => ?_⟩
  · rwa [hown (hperm.mem_iff.mp ha), hown (hperm.mem_iff.mp hb)] at hlt
  · rw [← hown hid]
    exact hnoted id hid

end RetrievalService

def idsOf (hits : List ChunkHit) : List Nat := hits.map (·.chunkId)

/-- The lists of a search, the one its mode leaves out being empty. -/
structure Lists where
  mode : SearchMode
  dense : List ChunkHit
  keyword : List ChunkHit
  dense_out : mode = .keyword → dense = []
  keyword_out : mode = .dense → keyword = []
  dense_nodup : (idsOf dense).Nodup
  keyword_nodup : (idsOf keyword).Nodup

namespace Lists

variable (l : Lists)

def sources : List (Str × List ChunkHit) :=
  match l.mode with
  | .hybrid => [("dense_cosine_sim".toList, l.dense), ("keyword_ts_rank".toList, l.keyword)]
  | .dense => [("dense_cosine_sim".toList, l.dense)]
  | .keyword => [("keyword_ts_rank".toList, l.keyword)]

def gathered : Gathered := l.sources.foldl Gathered.register {}

def rankLists : List (List Nat) := l.sources.map fun source => source.2.map (·.chunkId)

def Brings (id : Nat) : Prop := id ∈ idsOf l.dense ∨ id ∈ idsOf l.keyword

def base (id : Nat) : Dict Str Rat :=
  note "keyword_ts_rank".toList (scoreIn l.keyword id)
    (note "dense_cosine_sim".toList (scoreIn l.dense id) [])

def rrfScore (rrfK : Int) (id : Nat) : Rat :=
  rrfTerm rrfK (placeIn (idsOf l.dense) id) + rrfTerm rrfK (placeIn (idsOf l.keyword) id)

def rrfNote (rrfK : Int) (id : Nat) : Option Rat :=
  if l.mode = .hybrid then some (l.rrfScore rrfK id) else none

/-- What the lists are ordered by before any reranking: a single list by its places. -/
def mark (rrfK : Int) (id : Nat) : Rat :=
  match l.mode with
  | .hybrid => l.rrfScore rrfK id
  | .dense => -(((placeIn (idsOf l.dense) id).getD 0 : Nat) : Rat)
  | .keyword => -(((placeIn (idsOf l.keyword) id).getD 0 : Nat) : Rat)

theorem noted_gathered (id : Nat) : l.gathered.noted id = l.base id := by
  have hd := l.dense_nodup
  have hk := l.keyword_nodup
  unfold gathered sources base
  cases hm : l.mode with
  | hybrid =>
    rw [List.foldl_cons, List.foldl_cons, List.foldl_nil, Gathered.noted_register hk,
      Gathered.noted_register hd]
    rfl
  | dense =>
    rw [List.foldl_cons, List.foldl_nil, Gathered.noted_register hd, l.keyword_out hm]
    rfl
  | keyword =>
    rw [List.foldl_cons, List.foldl_nil, Gathered.noted_register hk, l.dense_out hm]
    rfl

theorem has_gathered {id : Nat} (h : l.Brings id) : l.gathered.Has id := by
  have hd := l.dense_nodup
  have hk := l.keyword_nodup
  unfold gathered sources
  cases hm : l.mode with
  | hybrid => exact Gathered.has_register hk (h.imp_left fun h => Gathered.has_register hd (.inr h))
  | dense =>
    refine Gathered.has_register hd (.inr (h.resolve_right ?_))
    simp [l.keyword_out hm, idsOf]
  | keyword =>
    refine Gathered.has_register hk (.inr (h.resolve_left ?_))
    simp [l.dense_out hm, idsOf]

theorem mem_of_hits {id : Nat} {hit : ChunkHit} (h : l.gathered.hits.get? id = some hit) :
    (hit ∈ l.dense ∨ hit ∈ l.keyword) ∧ hit.chunkId = id := by
  have hfind {hits : List ChunkHit} (h : hits.find? (·.chunkId = id) = some hit) :
      hit ∈ hits ∧ hit.chunkId = id :=
    ⟨List.mem_of_find?_eq_some h, by simpa using List.find?_some h⟩
  unfold gathered sources at h
  cases hm : l.mode with
  | hybrid =>
    rw [hm, List.foldl_cons, List.foldl_cons, List.foldl_nil, Gathered.get?_hits_register,
      Gathered.get?_hits_register, Option.or_eq_some_iff] at h
    rcases h with h | ⟨-, h⟩
    · exact (hfind h).imp_left .inl
    · exact (hfind h).imp_left .inr
  | dense =>
    rw [hm, List.foldl_cons, List.foldl_nil, Gathered.get?_hits_register] at h
    exact (hfind h).imp_left .inl
  | keyword =>
    rw [hm, List.foldl_cons, List.foldl_nil, Gathered.get?_hits_register] at h
    exact (hfind h).imp_left .inr

variable {l} {rrfK : Int}

theorem order_error (hm : l.mode = .hybrid)
    (h : Divides rrfK (idsOf l.dense) (idsOf l.keyword)) :
    l.gathered.order l.mode rrfK l.rankLists = .error zeroDivision := by
  have hlists : l.rankLists = [idsOf l.dense, idsOf l.keyword] := by
    simp [rankLists, sources, hm, idsOf]
  rw [Gathered.order, if_pos hm, Gathered.fused, hlists, fuse_error h]
  rfl

theorem order_ok (h : l.mode = .hybrid → ¬ Divides rrfK (idsOf l.dense) (idsOf l.keyword)) :
    ∃ g ordered, l.gathered.order l.mode rrfK l.rankLists = .ok (g, ordered) ∧
      g.hits = l.gathered.hits ∧ ordered.Nodup ∧ (∀ id, id ∈ ordered ↔ l.Brings id) ∧
      (ordered.Pairwise fun a b => rankKey (l.mark rrfK a) a < rankKey (l.mark rrfK b) b) ∧
      ∀ id ∈ ordered, g.Has id ∧ g.noted id = note "rrf".toList (l.rrfNote rrfK id) (l.base id) := by
  have hd := l.dense_nodup
  have hk := l.keyword_nodup
  unfold Gathered.order mark rrfNote
  cases hm : l.mode with
  | hybrid =>
    have hlists : l.rankLists = [idsOf l.dense, idsOf l.keyword] := by
      simp [rankLists, sources, hm, idsOf]
    obtain ⟨fused, hfuse, hkeys, hget⟩ := fuse_ok hd hk (h hm)
    have hmem (id : Nat) : id ∈ fused.keys ↔ l.Brings id := by
      rw [← Dict.isSome_get?, hget]
      split
      · next hid => exact iff_of_true rfl hid
      · next hid => exact iff_of_false Bool.false_ne_true hid
    have hscore {id : Nat} (hid : id ∈ fused.keys) : fused.get? id = some (l.rrfScore rrfK id) :=
      (hget id).trans (if_pos ((hmem id).mp hid))
    have hperm := perm_best (fun id => (fused.get? id).getD 0) fused.keys
    refine ⟨{ l.gathered with scores := fused.foldl (credit "rrf".toList) l.gathered.scores }, _,
      by rw [if_pos rfl, Gathered.fused, hlists, hfuse]; rfl, rfl,
      hperm.nodup_iff.mpr hkeys, fun id => hperm.mem_iff.trans (hmem id), ?_, fun id hid => ?_⟩
    · refine (sorted_best _ hkeys).imp_of_mem fun {a b} ha hb hlt => ?_
      rw [hscore (hperm.mem_iff.mp ha), hscore (hperm.mem_iff.mp hb)] at hlt
      exact hlt
    · have hid := hperm.mem_iff.mp hid
      refine ⟨Gathered.has_credit hkeys (l.has_gathered ((hmem id).mp hid)), ?_⟩
      rw [Gathered.noted_credit hkeys, hscore hid, noted_gathered, if_pos rfl]
  | dense =>
    have hlists : l.rankLists = [idsOf l.dense] := by simp [rankLists, sources, hm, idsOf]
    have hbrings (id : Nat) : id ∈ idsOf l.dense ↔ l.Brings id := by
      simp [Brings, l.keyword_out hm, idsOf]
    refine ⟨_, _, by rw [if_neg (by decide), hlists]; rfl, rfl, hd, hbrings, sorted_places hd,
      fun id hid => ⟨l.has_gathered ((hbrings id).mp hid), ?_⟩⟩
    rw [noted_gathered, if_neg (by decide)]
    rfl
  | keyword =>
    have hlists : l.rankLists = [idsOf l.keyword] := by simp [rankLists, sources, hm, idsOf]
    have hbrings (id : Nat) : id ∈ idsOf l.keyword ↔ l.Brings id := by
      simp [Brings, l.dense_out hm, idsOf]
    refine ⟨_, _, by rw [if_neg (by decide), hlists]; rfl, rfl, hk, hbrings, sorted_places hk,
      fun id hid => ⟨l.has_gathered ((hbrings id).mp hid), ?_⟩⟩
    rw [noted_gathered, if_neg (by decide)]
    rfl

variable (l) (svc : RetrievalService) (score : Str → Rat) (text : Nat → Str)

def finalMark (id : Nat) : Rat :=
  if svc.reranker = .none then l.mark svc.rrfK id else score (text id)

def breakdown (id : Nat) : Dict Str Rat :=
  note "rerank".toList (svc.rerankScore score text id)
    (note "rrf".toList (l.rrfNote svc.rrfK id) (l.base id))

variable {l svc score text}

/-- The first `limit` of the chunks brought, with all their scores. -/
theorem conclude_ok (h : l.mode = .hybrid → ¬ Divides svc.rrfK (idsOf l.dense) (idsOf l.keyword))
    (htext : ∀ hit, hit ∈ l.dense ∨ hit ∈ l.keyword → hit.content = text hit.chunkId)
    (limit : Int) :
    ∃ ordered chunks, svc.conclude l.mode limit score l.sources = .ok chunks ∧
      chunks.map brief = (upTo ordered limit).map (fun id => (id, l.breakdown svc score text id)) ∧
      ordered.Nodup ∧ (∀ id, id ∈ ordered ↔ l.Brings id) ∧
      ordered.Pairwise fun a b => rankKey (l.finalMark svc score text a) a <
        rankKey (l.finalMark svc score text b) b := by
  obtain ⟨g, ordered, horder, hhits, hnodup, hmem, hsorted, hnoted⟩ := order_ok h
  have hgtext (id : Nat) (hit : ChunkHit) (hget : g.hits.get? id = some hit) :
      hit.content = text id := by
    rw [hhits] at hget
    obtain ⟨hhit, rfl⟩ := l.mem_of_hits hget
    exact htext hit hhit
  have hmapM (g : Gathered) (ids : List Nat)
      (hids : ∀ id ∈ ids, g.Has id ∧ g.noted id = l.breakdown svc score text id) :
      ∃ chunks, (upTo ids limit).mapM g.chunk = .ok chunks ∧
        chunks.map brief = (upTo ids limit).map (fun id => (id, l.breakdown svc score text id)) := by
    obtain ⟨chunks, hok, hbrief⟩ := mapM_chunk_brief fun id hid => (hids id (mem_of_mem_upTo hid)).1
    refine ⟨chunks, hok, hbrief.trans (List.map_congr_left fun id hid => ?_)⟩
    rw [(hids id (mem_of_mem_upTo hid)).2]
  have hconclude : svc.conclude l.mode limit score l.sources =
      (svc.rescore score g ordered).bind fun ranked => (upTo ranked.2 limit).mapM ranked.1.chunk := by
    change (l.gathered.order l.mode svc.rrfK l.rankLists).bind _ = _
    rw [horder]
    rfl
  rw [hconclude]
  by_cases hnone : svc.reranker = .none
  · have hrescore : svc.rescore score g ordered = .ok (g, ordered) := if_pos (.inl hnone)
    rw [hrescore]
    obtain ⟨chunks, hok, hbrief⟩ := hmapM g ordered fun id hid => by
      refine ⟨(hnoted id hid).1, (hnoted id hid).2.trans ?_⟩
      rw [breakdown, RetrievalService.rerankScore, if_pos hnone]
      rfl
    refine ⟨ordered, chunks, hok, hbrief, hnodup, hmem, ?_⟩
    simpa only [finalMark, if_pos hnone] using hsorted
  · obtain ⟨g', ordered', hrescore, hperm, hsorted', hnoted'⟩ :=
      RetrievalService.rescore_ok hnone hnodup (fun id hid => (hnoted id hid).1) hgtext
    rw [hrescore]
    obtain ⟨chunks, hok, hbrief⟩ := hmapM g' ordered' fun id hid => by
      have hid := hperm.mem_iff.mp hid
      refine ⟨(hnoted' id hid).1, (hnoted' id hid).2.trans ?_⟩
      rw [breakdown, RetrievalService.rerankScore, if_neg hnone, (hnoted id hid).2]
    refine ⟨ordered', chunks, hok, hbrief, hperm.nodup_iff.mpr hnodup,
      fun id => hperm.mem_iff.trans (hmem id), ?_⟩
    simpa only [finalMark, if_neg hnone] using hsorted'

theorem conclude_error {limit : Int} (hm : l.mode = .hybrid)
    (h : Divides svc.rrfK (idsOf l.dense) (idsOf l.keyword)) :
    svc.conclude l.mode limit score l.sources = .error zeroDivision := by
  change (l.gathered.order l.mode svc.rrfK l.rankLists).bind _ = _
  rw [order_error hm h]
  rfl

end Lists

end RagPlatform
