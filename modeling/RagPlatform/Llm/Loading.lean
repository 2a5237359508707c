import RagPlatform.Lib.Monitor
import RagPlatform.Llm.Local

/-! A process loads its model once, however many of its threads need one. -/

namespace RagPlatform

open Lib

section

variable {M : Type} (accepts : M → Bool)

namespace Provider

/-- Of the models constructed at most one was accepted, and only such a one is kept. -/
structure Sound (s : Provider M) : Prop where
  once : s.constructed.countP accepts ≤ 1
  kept : ∀ m, s.model = some m → accepts m ∧ m ∈ s.constructed

def Tidy (s : Provider M) : Prop :=
  s.constructed.countP accepts = if s.model.isSome then 1 else 0

structure Keeps (s t : Provider M) : Prop where
  model : ∀ m, s.model = some m → t.model = some m
  sound : s.Sound accepts → t.Sound accepts

end Provider

def loadLock : Monitor (threading M) (Provider M) where
  lock
    | .acquire => some true
    | .release => some false
    | _ => none
  locked := Provider.locked
  tidy := Provider.Tidy accepts
  keeps := Provider.Keeps accepts
  keeps_refl _ := ⟨fun _ h => h, id⟩
  keeps_trans h h' := ⟨fun m hm => h'.model m (h.model m hm), h'.sound ∘ h.sound⟩

theorem loadLock_serves : (loadLock accepts).Serves access where
  acquire o r s hr htidy := by
    cases r with
    | acquire => exact ⟨rfl, htidy, fun _ h => h, fun h => ⟨h.once, h.kept⟩⟩
    | _ => cases hr
  release o r s hr htidy := by
    cases r with
    | release => exact ⟨rfl, htidy, fun _ h => h, fun h => ⟨h.once, h.kept⟩⟩
    | _ => cases hr
  other o r s hr := by
    cases r with
    | acquire => cases hr
    | release => cases hr
    | construct modelName =>
      simp only [loadLock, access]
      cases o.construct modelName with
      | ok m => rfl
      | error e => rfl
    | _ => rfl

variable {accepts}

section

variable {α : Type} {Q : Bool → Except Exn α → Provider M → Prop} {held : Bool} {s : Provider M}

theorem behaves_reach {r : Access M} {f : r.Answer → Threaded M α}
    (hneeds : (loadLock accepts).lock r ≠ some held)
    (htidy : (loadLock accepts).lock r = some false → s.Tidy accepts)
    (h : ∀ t, (loadLock accepts).Finds held s t →
      ((loadLock accepts).lock r = some true → t.Tidy accepts) → ∀ o,
      ((loadLock accepts).lock r = none → (loadLock accepts).Does held t (access o r t).1) ∧
      BehavesE access (loadLock accepts) Q ((loadLock accepts).after held r) (f (access o r t).2)
        (access o r t).1) :
    BehavesE access (loadLock accepts) Q held (reach r >>= f) s :=
  ⟨hneeds, htidy, h⟩

theorem behaves_model {f : Option M → Threaded M α}
    (h : ∀ t, s.Keeps accepts t → BehavesE access (loadLock accepts) Q false (f t.model) t) :
    BehavesE access (loadLock accepts) Q false (reach .model >>= f) s :=
  behaves_reach nofun nofun fun t ht _ _ => ⟨fun _ => rfl, h t ht⟩

theorem behaves_held {r : Access M} {f : r.Answer → Threaded M α}
    (hr : (loadLock accepts).lock r = none)
    (h : ∀ o, s.Keeps accepts (access o r s).1 ∧
      BehavesE access (loadLock accepts) Q true (f (access o r s).2) (access o r s).1) :
    BehavesE access (loadLock accepts) Q true (reach r >>= f) s := by
  refine behaves_reach (by rw [hr]; nofun) (by rw [hr]; nofun) fun t ht _ o => ?_
  obtain rfl : t = s := ht
  have hafter : (loadLock accepts).after true r = true := by
    simp only [Monitor.after, hr, Option.getD_none]
  rw [hafter]
  exact ⟨fun _ => (h o).1, (h o).2⟩

end

theorem behaves_withLoadLock {Q : Bool → Except Exn Unit → Provider M → Prop}
    {body : Threaded M Unit} {s : Provider M}
    (h : ∀ t : Provider M, t.locked = true → t.Tidy accepts →
      BehavesE access (loadLock accepts) (fun held r u => held = true ∧ u.Tidy accepts ∧
        ∀ v, u.Keeps accepts v → Q false r v) true body t) :
    BehavesE access (loadLock accepts) Q false (withLoadLock body) s := by
  refine behaves_reach nofun nofun fun t _ htidy o => ⟨nofun, .bind (.lift ?_)⟩
  refine Async.Behaves.mono (h { t with locked := true } rfl (htidy rfl)) ?_
  rintro held r u ⟨rfl, hu, hQ⟩ v rfl
  refine behaves_reach nofun (fun _ => hu) fun v hv _ o => ⟨nofun, fun x hx => ?_⟩
  obtain rfl : v = _ := hv
  have hkeeps : Provider.Keeps accepts { v with locked := false } x := hx
  exact hQ x ⟨hkeeps.model, fun hs => hkeeps.sound ⟨hs.once, hs.kept⟩⟩

def Fetched (accepts : M → Bool) (held : Bool) (r : Except Exn M) (s : Provider M) : Prop :=
  held = true ∧ s.model = none ∧ match r with
    | .ok m => accepts m ∧ m ∈ s.constructed ∧ s.constructed.countP accepts = 1
    | .error _ => s.Tidy accepts

/-- Under the lock and with no model there, `load` ends like this. -/
def Loads (accepts : M → Bool) (load : Threaded M M) : Prop :=
  ∀ s : Provider M, s.model = none → s.Tidy accepts →
    BehavesE access (loadLock accepts) (Fetched accepts) true load s

/-- What a thread has got from `_get_model`. -/
def Got (held : Bool) (r : Except Exn (Option M)) (s : Provider M) : Prop :=
  held = false ∧ ∀ found, r = .ok found → ∃ m, found = some m ∧ s.model = some m

/-- `return self._model` -/
theorem behaves_return {s : Provider M} {m : M} (hm : s.model = some m) :
    BehavesE access (loadLock accepts) Got false (reach .model) s := by
  refine ⟨nofun, nofun, fun t ht _ o => ⟨fun _ => rfl, fun u hu => ⟨rfl, fun found hfound => ?_⟩⟩⟩
  have htm : t.model = some m := ht.model m hm
  obtain rfl : t.model = found := Except.ok.inj hfound
  exact ⟨m, htm, hu.model m htm⟩

theorem behaves_getModel {load : Threaded M M} (hload : Loads accepts load) (s : Provider M) :
    BehavesE access (loadLock accepts) Got false (getModel load) s := by
  refine behaves_model fun t _ => ?_
  cases hm : t.model with
  | some m => exact behaves_return hm
  | none =>
    refine .bind (behaves_withLoadLock fun u _ htidy => behaves_held rfl fun _ =>
      ⟨⟨fun _ h => h, id⟩, ?_⟩)
    change BehavesE access _ _ true (if u.model.isNone then _ else _) u
    -- the second look, now that nobody else can load
    cases hu : u.model with
    | some m =>
      exact .pure fun v hv => ⟨rfl, hv ▸ htidy, fun x hx => behaves_return (hx.model m (hv ▸ hu))⟩
    | none =>
      refine .bind (Async.Behaves.mono (hload u hu htidy) ?_)
      rintro held r v ⟨rfl, hnone, hr⟩
      cases r with
      | error e =>
        exact .throw fun x hx => ⟨rfl, hx ▸ hr, fun y hy => .throw fun _ _ => ⟨rfl, nofun⟩⟩
      | ok m =>
        obtain ⟨haccepts, hmem, hcount⟩ := hr
        refine ⟨nofun, nofun, fun w hw _ o => ⟨fun _ => ⟨fun m' hm' => ?_, fun _ => ?_⟩, ?_⟩⟩
        all_goals obtain rfl : w = v := hw
        · rw [hnone] at hm'
          cases hm'
        · exact ⟨hcount.le, fun m' hm' => Option.some.inj hm' ▸ ⟨haccepts, hmem⟩⟩
        · exact fun x hx => ⟨rfl, hx ▸ hcount, fun y hy =>
            behaves_return (hy.model m (hx ▸ rfl))⟩

theorem loads_construct {modelName : Str} {f : M → Threaded M M}
    (hf : ∀ m (s : Provider M), s.model = none → m ∈ s.constructed →
      s.constructed.countP accepts = (if accepts m then 1 else 0) →
      BehavesE access (loadLock accepts) (Fetched accepts) true (f m) s) :
    Loads accepts (reach (.construct modelName) >>= fun constructed =>
      (ExceptT.mk (pure constructed) : Threaded M M) >>= f) := by
  intro s hnone htidy
  have hzero : s.constructed.countP accepts = 0 := by rw [htidy, hnone]; rfl
  refine behaves_held rfl fun o => ?_
  cases hconstruct : o.construct modelName with
  | error e =>
    simp only [access, hconstruct]
    exact ⟨⟨fun _ h => h, id⟩, .throw fun t ht => ⟨rfl, ht ▸ hnone, ht ▸ htidy⟩⟩
  | ok m =>
    simp only [access, hconstruct]
    have hcount : (s.constructed ++ [m]).countP accepts = if accepts m then 1 else 0 := by
      rw [List.countP_append, hzero, List.countP_singleton, Nat.zero_add]
    refine ⟨⟨fun _ h => h, fun _ => ⟨?_, fun m' hm' => ?_⟩⟩, hf m _ hnone (by simp) hcount⟩
    · change (s.constructed ++ [m]).countP accepts ≤ 1
      rw [hcount]
      split <;> omega
    · rw [show s.model = some m' from hm'] at hnone
      cases hnone

theorem loads_import {load : Threaded M M} {e : Exn} (h : Loads accepts load) :
    Loads accepts (reach .importLibrary >>= fun installed =>
      if installed then load else throw e) := by
  intro s hnone htidy
  refine behaves_held rfl fun o => ⟨⟨fun _ h => h, id⟩, ?_⟩
  change BehavesE access _ _ true (if o.installed then load else throw e) s
  split
  · exact h s hnone htidy
  · exact .throw fun t ht => ⟨rfl, ht ▸ hnone, ht ▸ htidy⟩

section

variable {ι κ α : Type} [DecidableEq ι]

/-- Any number of threads, and a lock that one of them gets at a time. -/
def loading (code : κ → Threaded M α) :
    Pool.Rules (threading M) (Provider M) (Loading M) ι (Except Exn α) where
  spawn _ p _ := ∃ k, p = code k
  step _ _ r s := r = .acquire → s.locked = false

theorem once_of_behaves {code : κ → Threaded M α} {Q : Except Exn α → Provider M → Prop}
    (hcode : ∀ k s, BehavesE access (loadLock accepts) (fun held r t => held = false ∧ Q r t) false
      (code k) s) {es : List (Event (threading M) (Loading M) ι (Except Exn α))}
    (hobeys : (Pool.init {}).Obeys access (loading code) es) (halive : Pool.Alive es) :
    ((Pool.init {}).run access es).state.Sound accepts ∧
    (∀ i t r, ((Pool.init {}).run access es).threads i = some t → t.code = .ret r →
      Q r ((Pool.init {}).run access es).state) ∧
    (((Pool.init {}).run access es).state.locked = true →
      ∃ i t r k, ((Pool.init {}).run access es).threads i = some t ∧ t.code = .await r k ∧
        r ≠ .acquire) := by
  have hinit : (Pool.init {} : Pool (threading M) (Provider M) ι _).Orderly access
      (loadLock accepts) (fun held r t => held = false ∧ Q r t) := Pool.orderly_init rfl rfl
  obtain ⟨horderly, hkeeps⟩ := hinit.run (loadLock_serves _)
    (R := loading code) (fun i p s ⟨k, hp⟩ => hp ▸ hcode k s)
    (fun l o r s hstep hr => hstep (by cases r with | acquire => rfl | _ => cases hr)) hobeys halive
  generalize (Pool.init {}).run access es = P at horderly hkeeps
  refine ⟨hkeeps.sound ⟨by simp [Pool.init], nofun⟩, fun i t r ht hr => ?_, fun hlocked => ?_⟩
  · obtain ⟨held, -, hQ⟩ := horderly.ret ht hr
    exact hQ
  · obtain ⟨i, t, ht, hbehaves, -⟩ := horderly.held hlocked
    cases hcode : t.code with
    | ret r =>
      rw [hcode] at hbehaves
      obtain ⟨h, -⟩ := hbehaves _ rfl
      cases h
    | emit y code => exact y.elim
    | await r k =>
      rw [hcode] at hbehaves
      exact ⟨i, t, r, k, ht, hcode, fun hr => hbehaves.1 (by rw [hr]; rfl)⟩

end

end

section

variable {M : Type} (hub : Hub M)

def LocalEmbeddingProvider.accepts (p : LocalEmbeddingProvider) (m : M) : Bool :=
  hub.getSentenceEmbeddingDimension m = some p.dim

theorem LocalEmbeddingProvider.loads (p : LocalEmbeddingProvider) :
    Loads (p.accepts hub) (p.load hub) := by
  refine loads_import (loads_construct fun m s hnone hmem hcount => ?_)
  by_cases hdim : hub.getSentenceEmbeddingDimension m = some p.dim
  · have hm : p.accepts hub m = true := decide_eq_true hdim
    rw [hm] at hcount
    simp only [hdim, ne_eq, not_true_eq_false, if_false]
    exact .pure fun t ht => ⟨rfl, ht ▸ hnone, hm, ht ▸ hmem, ht ▸ hcount⟩
  · have hm : p.accepts hub m = false := decide_eq_false hdim
    rw [hm] at hcount
    simp only [hdim, ne_eq, not_false_eq_true, if_true]
    refine .throw fun t ht => ⟨rfl, ht ▸ hnone, ?_⟩
    obtain rfl : t = s := ht
    rw [Provider.Tidy, hnone, hcount]
    rfl

theorem CrossEncoderReranker.loads (p : CrossEncoderReranker) :
    Loads (fun _ : M => true) p.load := by
  have hconstruct : Loads (fun _ : M => true) (reach (.construct p.modelName) >>= fun constructed =>
      (ExceptT.mk (pure constructed) : Threaded M M) >>= pure) :=
    loads_construct fun _ _ hnone hmem hcount =>
      .pure fun t ht => ⟨rfl, ht ▸ hnone, rfl, ht ▸ hmem, ht ▸ hcount⟩
  simp only [bind_pure] at hconstruct
  exact loads_import hconstruct

inductive EmbedRequest
  | documents (texts : List Str)
  | query (text : Str)

def EmbedRequest.serve (p : LocalEmbeddingProvider) :
    EmbedRequest → Threaded M (EmbedRequest × List Embedding)
  | .documents texts => do
    let embeddings ← p.embedDocuments hub texts
    return (.documents texts, embeddings)
  | .query text => do
    let embedding ← p.embedQuery hub text
    return (.query text, [embedding])

def EmbedRequest.Answered (m : M) : EmbedRequest → List Embedding → Prop
  | .documents texts, embeddings => hub.encode m texts = .ok embeddings
  | .query text, embeddings => ∃ embedding rest, embeddings = [embedding] ∧
    hub.encode m [bgeQueryPrefix ++ text] = .ok (embedding :: rest)

def Embedded (r : Except Exn (EmbedRequest × List Embedding)) (s : Provider M) : Prop :=
  ∀ request embeddings, r = .ok (request, embeddings) →
    ∃ m, s.model = some m ∧ request.Answered hub m embeddings

theorem behaves_encode (p : LocalEmbeddingProvider) (texts : List Str) (s : Provider M) :
    BehavesE access (loadLock (p.accepts hub)) (fun held r t => held = false ∧
      ∀ embeddings, r = .ok embeddings → ∃ m, t.model = some m ∧ hub.encode m texts = .ok embeddings)
      false (p.encode hub texts) s := by
  refine .bind (Async.Behaves.mono (behaves_getModel (p.loads hub) s) ?_)
  rintro held r t ⟨rfl, hgot⟩
  cases r with
  | error e => exact .throw fun _ _ => ⟨rfl, nofun⟩
  | ok found =>
    obtain ⟨m, rfl, hm⟩ := hgot found rfl
    exact fun u hu => ⟨rfl, fun embeddings h => ⟨m, hu.model m hm, h⟩⟩

theorem behaves_serve (p : LocalEmbeddingProvider) (request : EmbedRequest) (s : Provider M) :
    BehavesE access (loadLock (p.accepts hub)) (fun held r t => held = false ∧ Embedded hub r t) false
      (request.serve hub p) s := by
  cases request with
  | documents texts =>
    refine .bind (Async.Behaves.mono (behaves_encode hub p texts s) ?_)
    rintro held r t ⟨rfl, h⟩
    cases r with
    | error e => exact .throw fun _ _ => ⟨rfl, nofun⟩
    | ok embeddings =>
      obtain ⟨m, hm, henc⟩ := h embeddings rfl
      refine .pure fun u hu => ⟨rfl, fun request vs h => ⟨m, hu.model m hm, ?_⟩⟩
      cases h
      exact henc
  | query text =>
    refine .bind (.bind (Async.Behaves.mono (behaves_encode hub p _ s) ?_))
    rintro held r t ⟨rfl, h⟩
    cases r with
    | error e => exact .throw fun _ _ => .throw fun _ _ => ⟨rfl, nofun⟩
    | ok embeddings =>
      obtain ⟨m, hm, henc⟩ := h embeddings rfl
      cases embeddings with
      | nil => exact .throw fun _ _ => .throw fun _ _ => ⟨rfl, nofun⟩
      | cons embedding rest =>
        refine .pure fun u hu => .pure fun v hv => ⟨rfl, fun request vs h => ⟨m, ?_, ?_⟩⟩
        · exact hv.model m (hu.model m hm)
        · cases h
          exact ⟨embedding, rest, rfl, henc⟩

variable {ι : Type} [DecidableEq ι]

/-- However the threads of a process interleave, and however often the library fails or the dimension
is wrong: at most one model is ever accepted, every answer comes from it, and a thread that waits for
the lock waits for another one that can go on. -/
theorem loaded_once (p : LocalEmbeddingProvider)
    {es : List (Event (threading M) (Loading M) ι (Except Exn (EmbedRequest × List Embedding)))}
    (hobeys : (Pool.init {}).Obeys access (loading (EmbedRequest.serve hub p)) es)
    (halive : Pool.Alive es) :
    ((Pool.init {}).run access es).state.constructed.countP (p.accepts hub) ≤ 1 ∧
    (∀ i t request embeddings, ((Pool.init {}).run access es).threads i = some t →
      t.code = .ret (.ok (request, embeddings)) →
      ∃ m, ((Pool.init {}).run access es).state.model = some m ∧ p.accepts hub m ∧
        request.Answered hub m embeddings) ∧
    (((Pool.init {}).run access es).state.locked = true →
      ∃ i t r k, ((Pool.init {}).run access es).threads i = some t ∧ t.code = .await r k ∧
        r ≠ .acquire) := by
  obtain ⟨hsound, hanswers, hprogress⟩ := once_of_behaves (behaves_serve hub p) hobeys halive
  refine ⟨hsound.once, fun i t request embeddings ht hcode => ?_, hprogress⟩
  obtain ⟨m, hm, hanswered⟩ := hanswers i t _ ht hcode request embeddings rfl
  exact ⟨m, hm, (hsound.kept m hm).1, hanswered⟩

/-- The scores of one model; without texts, of none. -/
def Scored (r : Except Exn ((Str × List Str) × List Rat)) (s : Provider M) : Prop :=
  ∀ query texts scores, r = .ok ((query, texts), scores) →
    if texts = [] then scores = []
    else ∃ m, s.model = some m ∧ hub.predict m (texts.map fun t => (query, t)) = .ok scores

def CrossEncoderReranker.serve (p : CrossEncoderReranker) (request : Str × List Str) :
    Threaded M ((Str × List Str) × List Rat) := do
  let scores ← p.rerank hub request.1 request.2
  return (request, scores)

theorem behaves_rerank (p : CrossEncoderReranker) (request : Str × List Str) (s : Provider M) :
    BehavesE access (loadLock fun _ => true) (fun held r t => held = false ∧ Scored hub r t) false
      (p.serve hub request) s := by
  refine .bind ?_
  unfold CrossEncoderReranker.rerank
  split
  · next hnil =>
    refine .pure fun t _ => .pure fun u _ => ⟨rfl, fun query texts scores h => ?_⟩
    cases h
    rw [if_pos hnil]
  · next hsome =>
    refine .bind (Async.Behaves.mono (behaves_getModel p.loads s) ?_)
    rintro held r t ⟨rfl, hgot⟩
    cases r with
    | error e => exact .throw fun _ _ => .throw fun _ _ => ⟨rfl, nofun⟩
    | ok found =>
      obtain ⟨m, rfl, hm⟩ := hgot found rfl
      intro u hu
      change behavesBind access _ _ _ false (hub.predict m _) u
      cases hpredict : hub.predict m (request.2.map fun t => (request.1, t)) with
      | error e => exact .throw fun _ _ => ⟨rfl, nofun⟩
      | ok scores =>
        refine .pure fun v hv => ⟨rfl, fun query texts scores' h => ?_⟩
        cases h
        rw [if_neg hsome]
        exact ⟨m, hv.model m (hu.model m hm), hpredict⟩

theorem CrossEncoderReranker.constructed_once (p : CrossEncoderReranker)
    {es : List (Event (threading M) (Loading M) ι (Except Exn ((Str × List Str) × List Rat)))}
    (hobeys : (Pool.init {}).Obeys access (loading (p.serve hub)) es) (halive : Pool.Alive es) :
    ((Pool.init {}).run access es).state.constructed.length ≤ 1 ∧
    ∀ i t r, ((Pool.init {}).run access es).threads i = some t → t.code = .ret r →
      Scored hub r ((Pool.init {}).run access es).state := by
  obtain ⟨hsound, hscored, -⟩ := once_of_behaves (behaves_rerank hub p) hobeys halive
  refine ⟨?_, hscored⟩
  have honce := hsound.once
  rwa [List.countP_true] at honce

end

namespace Sample

def hub : Hub Nat where
  getSentenceEmbeddingDimension m := some m
  encode _ texts := .ok (texts.map fun _ => [.finite 1])
  predict _ pairs := .ok (pairs.map fun _ => 0)

def provider : LocalEmbeddingProvider := ⟨"BAAI/bge-small-en-v1.5".toList, 384⟩

/-- Both threads look before either has the lock; the first one loads. -/
def contenders : List (Event (threading Nat) (Loading Nat) Bool
    (Except Exn (EmbedRequest × List Embedding))) :=
  let step (i : Bool) : Event _ (Loading Nat) Bool _ := .step i ⟨true, fun _ => .ok 384⟩
  [.spawn true ((EmbedRequest.query "a".toList).serve hub provider),
    .spawn false ((EmbedRequest.query "b".toList).serve hub provider), step true, step false] ++
    List.replicate 7 (step true) ++ List.replicate 4 (step false)

def grants (r : Access Nat) (s : Provider Nat) : Bool :=
  match r with
  | .acquire => !s.locked
  | _ => true

theorem loaded_once_contenders :
    ((Pool.init {}).run access contenders).state.constructed.countP (provider.accepts hub) ≤ 1 := by
  have hchecks : (Pool.init {} : Pool (threading Nat) (Provider Nat) Bool _).checks access
      (fun _ _ r s => grants r s) contenders = true := rfl
  refine (loaded_once hub provider (Pool.obeys_of_checks access (fun _ _ r s h hr => ?_)
    (fun i code h s => ?_) hchecks) (fun i h => ?_)).1
  · subst hr
    simpa [grants] using h
  · simp only [contenders, List.mem_append, List.mem_cons, List.mem_replicate] at h
    rcases h with ((h | h | h | h | h) | h) | h
    · cases h
      exact ⟨_, rfl⟩
    · cases h
      exact ⟨_, rfl⟩
    all_goals simp at h
  · simp [contenders] at h

end Sample

end RagPlatform
