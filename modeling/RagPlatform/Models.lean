import RagPlatform.Lib.Text

/-! The rows of the schema. -/

namespace RagPlatform

open Lib

structure Uuid where
  toNat : Nat
  deriving DecidableEq

/-- `str(uuid)`: 32 hexadecimal digits in groups of 8, 4, 4, 4 and 12. -/
def Uuid.str (u : Uuid) : Str :=
  let digits := Nat.toDigits 16 u.toNat
  let hex := List.replicate (32 - digits.length) '0' ++ digits
  Str.join ['-'] [hex.take 8, (hex.drop 8).take 4, (hex.drop 12).take 4, (hex.drop 16).take 4,
    hex.drop 20]

instance : ToString Uuid := ⟨fun u => String.ofList u.str⟩

def embeddingDim : Nat := 384

inductive Component
  | finite (x : Rat)
  | infinity (negative : Bool)
  | nan
  deriving DecidableEq

/-- `FLT_MAX` and half a step: what is further from zero rounds to no finite `float4`. -/
def float4Bound : Nat := 2 ^ 128 - 2 ^ 103

def Component.storable : Component → Bool
  | .finite x => x.num.natAbs < float4Bound * x.den
  | _ => false

abbrev Embedding := List Component

inductive DocumentSourceType
  | pdf | markdown | html
  deriving DecidableEq

inductive DocumentStatus
  | pending | processing | completed | failed
  deriving DecidableEq

structure Tenant where
  id : Uuid
  slug : Str := []
  deriving DecidableEq

/-- `documents`; `updated_at` is written by the ORM and read by nobody. -/
structure Document where
  id : Uuid
  tenantId : Uuid
  filename : Str
  sourceType : DocumentSourceType
  contentSha256 : Str
  sizeBytes : Nat
  status : DocumentStatus
  rawContent : Option Bytes
  errorMessage : Option Str
  chunkCount : Option Nat
  createdAt : Nat
  deriving DecidableEq

/-- The keys `_merge_meta` may put into `chunks.meta`. -/
structure ChunkMeta where
  pageStart : Option Nat := none
  pageEnd : Option Nat := none
  headings : Option (List Str) := none
  deriving DecidableEq

structure Chunk where
  id : Nat
  documentId : Uuid
  tenantId : Uuid
  chunkIndex : Nat
  content : Str
  tokenCount : Int
  embedding : Embedding
  metadata : ChunkMeta
  deriving DecidableEq

/-- `api_credentials`; nobody reads the name. -/
structure ApiCredential where
  id : Uuid
  tenantId : Uuid
  clientId : Str
  secretHash : Str
  lastUsedAt : Option Nat
  revokedAt : Option Nat
  deriving DecidableEq

/-- `usage_records`; nobody reads the ids. -/
structure UsageRecord where
  tenantId : Uuid
  operation : Str
  model : Str
  inputTokens : Nat
  outputTokens : Nat
  costUsd : Option Rat
  createdAt : Nat
  deriving DecidableEq

end RagPlatform
