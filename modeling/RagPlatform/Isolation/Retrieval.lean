import RagPlatform.Isolation.Names

/-! Retrieval sees of a chunk id only how it compares with the others: renaming the chunks in order
renames the results. -/

namespace RagPlatform

open Lib

instance : Nominal Nat (Str × List ChunkHit) where
  rename f s := (s.1, Nominal.rename f s.2)
  Mentions s n := Nominal.Mentions s.2 n
  rename_congr h := by rw [Nominal.rename_congr h]

variable {f : Nat → Nat}

def Gathered.rename (f : Nat → Nat) (g : Gathered) : Gathered where
  hits := g.hits.rename f (Nominal.rename f)
  scores := g.scores.rename f id

def renameRanked (f : Nat → Nat) (ranked : Gathered × List Nat) : Gathered × List Nat :=
  (ranked.1.rename f, ranked.2.map f)

theorem upTo_map {α β : Type} (f : α → β) (xs : List α) (n : Int) :
    upTo (xs.map f) n = (upTo xs n).map f := by
  unfold upTo
  split
  · exact List.map_take.symm
  · rw [List.length_map, List.map_take]

theorem mapM_map_congr {α β γ : Type} {f : α → β} {k : β → Except Exn γ} {k' : α → Except Exn γ}
    (h : ∀ a, k (f a) = k' a) (as : List α) : (as.map f).mapM k = as.mapM k' := by
  rw [List.mapM_map]
  exact congrArg (fun k => List.mapM k as) (funext h)

theorem mapM_except_map {α β γ : Type} (k : α → Except Exn β) (g : β → γ) (as : List α) :
    as.mapM (fun a => (k a).map g) = (as.mapM k).map (List.map g) := by
  induction as with
  | nil => rfl
  | cons a as ih =>
    simp only [List.mapM_cons, ih]
    cases k a with
    | error e => rfl
    | ok b =>
      cases as.mapM k with
      | error e => rfl
      | ok bs => rfl

theorem mem_of_mapM {α β : Type} {k : α → Except Exn β} {as : List α} {bs : List β}
    (h : as.mapM k = .ok bs) {b : β} (hb : b ∈ bs) : ∃ a ∈ as, k a = .ok b := by
  induction as generalizing bs with
  | nil =>
    cases h
    cases hb
  | cons a as ih =>
    rw [List.mapM_cons] at h
    cases ha : k a with
    | error e => simp [ha, bind, Except.bind] at h
    | ok b' =>
      cases has : as.mapM k with
      | error e => simp [ha, has, bind, Except.bind] at h
      | ok bs' =>
        simp only [ha, has, bind, Except.bind, pure, Except.pure, Except.ok.injEq] at h
        subst h
        rcases List.mem_cons.mp hb with rfl | hb
        · exact ⟨a, .head _, ha⟩
        · obtain ⟨a', ha', hk⟩ := ih has hb
          exact ⟨a', .tail _ ha', hk⟩

section Injective

variable (hf : Function.Injective f)
include hf

theorem credit_rename (name : Str) (scores : Dict Nat (Dict Str Rat)) (e : Nat × Rat) :
    (credit name scores e).rename f id = credit name (scores.rename f id) (f e.1, e.2) := by
  simp only [credit, Dict.rename_set hf, Dict.get?_rename hf, Option.map_id, id_eq]

theorem foldl_credit_rename (name : Str) (entries : List (Nat × Rat))
    (scores : Dict Nat (Dict Str Rat)) : (entries.foldl (credit name) scores).rename f id =
      (entries.map (Prod.map f id)).foldl (credit name) (scores.rename f id) := by
  induction entries generalizing scores with
  | nil => rfl
  | cons e entries ih =>
    simp only [List.foldl_cons, List.map_cons, ih, credit_rename hf]
    rfl

namespace Gathered

theorem add_rename (name : Str) (g : Gathered) (hit : ChunkHit) :
    (g.add name hit).rename f = (g.rename f).add name (Nominal.rename f hit) := by
  simp only [add, rename, Dict.rename_setdefault hf, credit_rename hf]
  rfl

theorem register_rename (g : Gathered) (source : Str × List ChunkHit) :
    (g.register source).rename f = (g.rename f).register (Nominal.rename f source) := by
  obtain ⟨name, hits⟩ := source
  change (hits.foldl (add name) g).rename f =
    (hits.map (Nominal.rename f)).foldl (add name) (g.rename f)
  induction hits generalizing g with
  | nil => rfl
  | cons hit hits ih => simp only [List.foldl_cons, List.map_cons, ih, add_rename hf]

theorem foldl_register_rename (g : Gathered) (sources : List (Str × List ChunkHit)) :
    (sources.foldl register g).rename f =
      (Nominal.rename f sources).foldl register (g.rename f) := by
  change _ = (sources.map (Nominal.rename f)).foldl register (g.rename f)
  induction sources generalizing g with
  | nil => rfl
  | cons source sources ih => simp only [List.foldl_cons, List.map_cons, ih, register_rename hf]

theorem content_rename (g : Gathered) (id : Nat) : (g.rename f).content (f id) = g.content id := by
  simp only [content, rename, Dict.get?_rename hf]
  cases g.hits.get? id with
  | none => rfl
  | some hit => rfl

theorem chunk_rename (g : Gathered) (id : Nat) :
    (g.rename f).chunk (f id) = (g.chunk id).map (Nominal.rename f) := by
  simp only [chunk, rename, Dict.get?_rename hf, Option.map_id, id_eq]
  cases g.hits.get? id with
  | none => rfl
  | some hit =>
    cases g.scores.get? id with
    | none => rfl
    | some scores => rfl

theorem chunks_rename (g : Gathered) (ids : List Nat) :
    (ids.map f).mapM (g.rename f).chunk = (ids.mapM g.chunk).map (Nominal.rename f) :=
  (mapM_map_congr (g.chunk_rename hf) ids).trans (mapM_except_map g.chunk _ ids)

end Gathered

theorem contribute_rename (rrfK : Int) (fused : Dict Nat Rat) (e : Nat × Nat) :
    contribute rrfK (fused.rename f id) (f e.1, e.2) =
      (contribute rrfK fused e).map (Dict.rename f id) := by
  unfold contribute
  split
  · rfl
  · simp only [Except.map, Dict.rename_set hf, Dict.get?_rename hf, Option.map_id, id_eq]

theorem fuse_rename (rrfK : Int) (rankLists : List (List Nat)) :
    fuse rrfK (rankLists.map (List.map f)) = (fuse rrfK rankLists).map (Dict.rename f id) := by
  have hentries : (rankLists.map (List.map f)).flatMap List.zipIdx =
      (rankLists.flatMap List.zipIdx).map (Prod.map f id) := by
    rw [List.flatMap_map, List.map_flatMap]
    exact congrArg (List.flatMap · rankLists) (funext fun ids => by rw [List.zipIdx_map])
  have hfold (entries : List (Nat × Nat)) (fused : Dict Nat Rat) :
      (entries.map (Prod.map f id)).foldlM (contribute rrfK) (fused.rename f id) =
        (entries.foldlM (contribute rrfK) fused).map (Dict.rename f id) := by
    induction entries generalizing fused with
    | nil => rfl
    | cons e entries ih =>
      simp only [List.map_cons, List.foldlM_cons]
      rw [show Prod.map f id e = (f e.1, e.2) from rfl, contribute_rename hf]
      cases contribute rrfK fused e with
      | error e => rfl
      | ok fused => exact ih fused
  unfold fuse
  rw [hentries]
  exact hfold _ []

end Injective

section Ordered

variable (hf : StrictMono f)
include hf

theorem best_map {score score' : Nat → Rat} (h : ∀ id, score' (f id) = score id) (ids : List Nat) :
    best score' (ids.map f) = (best score ids).map f := by
  unfold best
  refine (List.map_insertionSort _ _ f ids fun a _ b _ => ?_).symm
  rw [h, h, hf.le_iff_le]

namespace Gathered

theorem order_rename (g : Gathered) (mode : SearchMode) (rrfK : Int) (rankLists : List (List Nat)) :
    (g.rename f).order mode rrfK (rankLists.map (List.map f)) =
      (g.order mode rrfK rankLists).map (renameRanked f) := by
  unfold order
  split
  · simp only [fused, fuse_rename hf.injective]
    cases fuse rrfK rankLists with
    | error e => rfl
    | ok scores =>
      refine congrArg Except.ok (Prod.ext ?_ ?_)
      · simp only [renameRanked, rename, foldl_credit_rename hf.injective]
        rfl
      · simp only [renameRanked, Dict.keys_rename]
        refine best_map hf (fun id => ?_) scores.keys
        rw [Dict.get?_rename hf.injective, Option.map_id, id_eq]
  · cases rankLists with
    | nil => rfl
    | cons ids rankLists => rfl

theorem reranked_rename (g : Gathered) (ordered : List Nat) (given : List Rat) :
    (g.rename f).reranked (ordered.map f) given = renameRanked f (g.reranked ordered given) := by
  have hzip : (ordered.map f).zip given = (ordered.zip given).map (Prod.map f id) := by
    rw [List.zip_map_left]
  refine Prod.ext ?_ ?_
  · simp only [reranked, renameRanked, rename, foldl_credit_rename hf.injective, hzip]
  · simp only [reranked, renameRanked, rename, hzip]
    refine best_map hf (fun id => ?_) ordered
    rw [← foldl_credit_rename hf.injective, Dict.get?_rename hf.injective, Option.map_id, id_eq]

end Gathered

end Ordered

end RagPlatform
