import Mathlib.Data.List.Nodup
import RagPlatform.Exceptions

/-! The statements on `api_credentials`. -/

namespace RagPlatform

open Lib

structure Credentials where
  rows : List ApiCredential := []
  pk : (rows.map (·.id)).Nodup := by simp
  uq : (rows.map (·.clientId)).Nodup := by simp

structure NewCredential where
  tenantId : Uuid
  clientId : Str
  secretHash : Str

def NewCredential.row (c : NewCredential) (id : Uuid) : ApiCredential where
  id := id
  tenantId := c.tenantId
  clientId := c.clientId
  secretHash := c.secretHash
  lastUsedAt := none
  revokedAt := none

structure CredentialPatch where
  lastUsedAt : Option (Option Nat) := none
  revokedAt : Option (Option Nat) := none
  deriving DecidableEq

def CredentialPatch.apply (p : CredentialPatch) (c : ApiCredential) : ApiCredential :=
  { c with
    lastUsedAt := p.lastUsedAt.getD c.lastUsedAt
    revokedAt := p.revokedAt.getD c.revokedAt }

@[simp] theorem CredentialPatch.apply_id (p : CredentialPatch) (c : ApiCredential) :
    (p.apply c).id = c.id := rfl

@[simp] theorem CredentialPatch.apply_clientId (p : CredentialPatch) (c : ApiCredential) :
    (p.apply c).clientId = c.clientId := rfl

namespace Credentials

variable (cs : Credentials)

def byId (id : Uuid) : Option ApiCredential := cs.rows.find? (·.id = id)

def byClientId (clientId : Str) : Option ApiCredential := cs.rows.find? (·.clientId = clientId)

def Fits (c : ApiCredential) : Prop :=
  c.id ∉ cs.rows.map (·.id) ∧ c.clientId ∉ cs.rows.map (·.clientId)

instance (c : ApiCredential) : Decidable (cs.Fits c) := inferInstanceAs (Decidable (_ ∧ _))

def add (c : ApiCredential) (h : cs.Fits c) : Credentials where
  rows := cs.rows ++ [c]
  pk := by
    rw [List.map_append, List.map_singleton, ← List.concat_eq_append, List.nodup_concat]
    exact ⟨h.1, cs.pk⟩
  uq := by
    rw [List.map_append, List.map_singleton, ← List.concat_eq_append, List.nodup_concat]
    exact ⟨h.2, cs.uq⟩

def insert (c : ApiCredential) : Except Exn Credentials :=
  if h : cs.Fits c then .ok (cs.add c h) else .error .integrity

def patchRow (id : Uuid) (p : CredentialPatch) (c : ApiCredential) : ApiCredential :=
  if c.id = id then p.apply c else c

@[simp] theorem patchRow_id (id : Uuid) (p : CredentialPatch) (c : ApiCredential) :
    (patchRow id p c).id = c.id := by
  unfold patchRow; split <;> rfl

@[simp] theorem patchRow_clientId (id : Uuid) (p : CredentialPatch) (c : ApiCredential) :
    (patchRow id p c).clientId = c.clientId := by
  unfold patchRow; split <;> rfl

def patch (id : Uuid) (p : CredentialPatch) : Credentials where
  rows := cs.rows.map (patchRow id p)
  pk := by simpa [Function.comp_def] using cs.pk
  uq := by simpa [Function.comp_def] using cs.uq

/-- The UPDATE of one row, by primary key; matching no row is an error. -/
def update (id : Uuid) (p : CredentialPatch) : Except Exn Credentials :=
  if p = {} then .ok cs
  else if (cs.byId id).isNone then .error .staleData
  else .ok (cs.patch id p)

theorem byId_id {id : Uuid} {c : ApiCredential} (h : cs.byId id = some c) : c.id = id := by
  simpa using List.find?_some h

theorem byId_add {c : ApiCredential} (h : cs.Fits c) {id : Uuid} {d : ApiCredential}
    (hd : cs.byId id = some d) : (cs.add c h).byId id = some d := by
  simp only [byId, add, List.find?_append] at *
  rw [hd]
  rfl

theorem byId_patch (id : Uuid) (p : CredentialPatch) (id' : Uuid) :
    (cs.patch id p).byId id' = (cs.byId id').map (patchRow id p) := by
  simp only [byId, patch, List.find?_map]
  refine congrArg (Option.map _) (congrArg (List.find? · cs.rows) (funext fun c => ?_))
  simp

end Credentials

end RagPlatform
