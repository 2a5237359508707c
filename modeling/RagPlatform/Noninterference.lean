import RagPlatform.Isolation.Requests
import RagPlatform.Isolation.Steps

/-! What a tenant receives does not depend on the other tenants. -/

namespace RagPlatform

open Lib

section

variable {ι : Type} (ext : External) (settings : Settings)

def Move.thread : Move ι → ι
  | .start i _ => i
  | .answer i _ => i
  | .kill i => i

@[simp] theorem Move.event_thread (m : Move ι) : (m.event ext settings).thread = m.thread := by
  cases m <;> rfl

/-- Made by the tenant, or for it: a request with one of its tokens, or a delivery of one of its
documents. -/
def Visit.For (t : Uuid) (w : World) : Visit → Prop
  | .request authorization _ => Speaks ext settings t authorization
  | .deliver _ documentId => (documentId, t) ∈ w.db.issued
  | .issueToken .. | .createCredential .. | .revokeCredential _ => False

/-- Every thread runs for its owner, and a document gets an id of its own. -/
def tenancy (owner : ι → Uuid) : Pool.Rules api World Oracle ι (Except Exn Outcome) where
  spawn i p w := ∃ visit : Visit, p = visit.code ext settings ∧ visit.For ext settings (owner i) w
  step _ o c w := Call.Fresh o w c

variable [DecidableEq ι]

def ByTenants (owner : ι → Uuid) (w : World) (moves : List (Move ι)) : Prop :=
  (Pool.init w : Platform ι).Obeys exec (tenancy ext settings owner)
    (moves.map (Move.event ext settings))

end

/-- The events sent so far, and the response once there is one. -/
abbrev Received := List ServerEvent × Option (Except Exn Outcome)

def response : Async api (Except Exn Outcome) → Option (Except Exn Outcome)
  | .ret r => some r
  | _ => none

def received {ι : Type} (P : Platform ι) (i : ι) : Option Received :=
  (P.threads i).map fun t => (t.out, response t.code)

def Received.rename (f : Nat → Nat) (r : Received) : Received :=
  (Nominal.rename f r.1, r.2.map (Except.map (Nominal.rename f)))

section

variable {t : Uuid} {v : View} {p p' : Async api (Except Exn Outcome)}

/-- The outcomes of alike visits: the same error, or the same response. -/
abbrev SameOutcome (v : View) : Except Exn Outcome → Except Exn Outcome → Prop :=
  Agree v.Relates

theorem response_eq (h : Alike (likeness t) SameOutcome v p p') :
    response p = (response p').map (Except.map (Nominal.rename v.name)) := by
  cases h with
  | ret h =>
    simp only [response, Option.map_some, Option.some.injEq]
    have hv := h v le_rfl
    clear h
    cases hv with
    | ok hv => exact congrArg Except.ok hv.eq
    | error e => rfl
  | await | emit => rfl

theorem events_eq {out out' : List ServerEvent} (h : List.Forall₂ v.Relates out out') :
    out = Nominal.rename v.name out' := by
  induction h with
  | nil => rfl
  | cons h _ ih =>
    rw [ih, h.eq]
    rfl

theorem received_eq {ι : Type} {P P' : Platform ι} {i : ι}
    (h : Pool.SameThread (likeness t) SameOutcome v (P.threads i) (P'.threads i)) :
    received P i = (received P' i).map (Received.rename v.name) := by
  unfold received
  generalize P.threads i = x at h
  generalize P'.threads i = x' at h
  cases h with
  | absent => rfl
  | present hout hcode =>
    exact congrArg some (Prod.ext (events_eq hout) (response_eq hcode))

theorem like_visit {ext : External} {settings : Settings} {w w' : World} {visit : Visit}
    (h : visit.For ext settings t w) (hw : SameView t v w w') :
    Alike (likeness t) SameOutcome v (visit.code ext settings) (visit.code ext settings) := by
  cases visit with
  | request authorization endpoint => exact like_request h endpoint
  | deliver retries documentId => exact like_deliver ((hw.rows.owned documentId).mpr h) retries
  | issueToken | createCredential | revokeCredential => exact h.elim

end

theorem sameView_init {w : World} (hw : w.db.Denormalised) (t : Uuid) : ∃ v, SameView t v w w := by
  obtain ⟨v, hv⟩ := SameRows.init w.db t hw.scoped
  exact ⟨v, hv, rfl, rfl, fun _ => rfl⟩

section

variable {ι : Type} [DecidableEq ι] {ext : External} {settings : Settings} {owner : ι → Uuid}
  {w : World} {moves : List (Move ι)} (hw : w.db.Denormalised)
  (h : ByTenants ext settings owner w moves) (tenantId : Uuid)
include hw h

theorem parallel_gateway : Pool.Parallel likeness SameView SameOutcome owner tenantId
    (gateway ext settings w moves)
    (gateway ext settings w (moves.filter fun m => owner m.thread = tenantId)) := by
  have hinit (t : Uuid) : Pool.Parallel likeness SameView SameOutcome owner t
      (Pool.init w : Platform ι) (Pool.init w) := by
    obtain ⟨v, hv⟩ := sameView_init hw t
    exact Pool.Parallel.init hv
  have hspawn (i : ι) (p : Async api (Except Exn Outcome)) (s : World)
      (hp : (tenancy ext settings owner).spawn i p s) (v : View) (s' : World)
      (hs : SameView (owner i) v s s') : Alike (likeness (owner i)) SameOutcome v p p := by
    obtain ⟨visit, rfl, hfor⟩ := hp
    exact like_visit hfor hs
  have hrun := Pool.Parallel.run unwinding hspawn (fun _ _ _ _ h => h) hinit h tenantId
  have hmoves : (moves.map (Move.event ext settings)).filter (fun e => owner e.thread = tenantId) =
      (moves.filter fun m => owner m.thread = tenantId).map (Move.event ext settings) := by
    rw [List.filter_map]
    refine congrArg (List.map _) (List.filter_congr fun m _ => ?_)
    simp
  rwa [hmoves] at hrun

/-- Left alone, a tenant receives what it receives among the others, its chunks renamed in order. -/
theorem tenant_isolation : ∃ f : Nat → Nat, StrictMono f ∧ ∀ i, owner i = tenantId →
    received (gateway ext settings w moves) i =
      (received (gateway ext settings w (moves.filter fun m => owner m.thread = tenantId)) i).map
        (Received.rename f) := by
  obtain ⟨v, -, hthreads⟩ := parallel_gateway hw h tenantId
  exact ⟨v.name, v.strictMono, fun i hi => received_eq (hthreads i hi)⟩

end

namespace Sample

def otherTenantId : Uuid := ⟨2⟩

/-- Bearer `a` speaks for the first tenant, any other token for the second. -/
def tokens (token _secret _issuer : Str) (_now : Nat) : Option JwtPayload :=
  if token = ['a'] then some ⟨tenantId.str, (⟨11⟩ : Uuid).str⟩
  else some ⟨otherTenantId.str, (⟨12⟩ : Uuid).str⟩

def tokenExt : External := { ext with jwtDecode := tokens }

def sharedWorld : World where
  db := { world.db with tenants := [{ id := tenantId }, { id := otherTenantId }] }
  credentials := { rows := [⟨⟨11⟩, tenantId, ['c'], [], none, none⟩,
    ⟨⟨12⟩, otherTenantId, ['d'], [], none, none⟩] }

def owner (i : Nat) : Uuid := if i = 0 then tenantId else otherTenantId

/-- Both tenants upload the same file, await by await in turn. -/
def sideBySide : List (Move Nat) :=
  [.start 0 (.request (some "Bearer a".toList) (.upload note)),
    .start 1 (.request (some "Bearer b".toList) (.upload note))] ++
  (List.replicate 9 [.answer 0 oracle, .answer 1 { oracle with uuid := ⟨8⟩ }]).flatten

end Sample

def isFresh (_ : Log api) (o : Oracle) (c : Call) (w : World) : Bool :=
  match c with
  | .insertDocument _ => o.uuid ∉ w.db.issued.map Prod.fst
  | _ => true

theorem fresh_of_isFresh (l : Log api) (o : Oracle) (c : Call) (w : World)
    (h : isFresh l o c w = true) : Call.Fresh o w c := by
  cases c with
  | insertDocument d => simpa [isFresh, Call.Fresh] using h
  | _ => trivial

theorem Sample.byTenants : ByTenants Sample.tokenExt {} Sample.owner Sample.sharedWorld
    Sample.sideBySide := by
  have hchecks : (Pool.init Sample.sharedWorld : Platform Nat).checks exec isFresh
      (Sample.sideBySide.map (Move.event Sample.tokenExt {})) = true := by decide
  refine Pool.obeys_of_checks (R := tenancy Sample.tokenExt {} Sample.owner) exec fresh_of_isFresh
    (fun i p hp s => ?_) hchecks
  simp [Sample.sideBySide, Move.event] at hp
  rcases hp with ⟨rfl, rfl⟩ | ⟨rfl, rfl⟩
  · exact ⟨_, rfl, fun now c hc => by cases hc; rfl⟩
  · exact ⟨_, rfl, fun now c hc => by cases hc; rfl⟩

theorem tenant_isolation_sideBySide : ∃ f : Nat → Nat, StrictMono f ∧
    ∀ i, Sample.owner i = Sample.tenantId →
      received (gateway Sample.tokenExt {} Sample.sharedWorld Sample.sideBySide) i =
        (received (gateway Sample.tokenExt {} Sample.sharedWorld
          (Sample.sideBySide.filter fun m => Sample.owner m.thread = Sample.tenantId)) i).map
            (Received.rename f) :=
  tenant_isolation (by simp [Database.Denormalised, Sample.sharedWorld, Sample.world]) Sample.byTenants
    Sample.tenantId

end RagPlatform
