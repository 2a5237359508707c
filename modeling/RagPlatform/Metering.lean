import Mathlib.Data.Char
import Mathlib.Data.List.Lex
import RagPlatform.Database

/-! The statements on `usage_records`. -/

namespace RagPlatform

open Lib

/-- `VARCHAR(100)`, `INTEGER` and `NUMERIC(12, 6)` bounds. -/
def UsageRecord.storable (u : UsageRecord) : Bool :=
  storableText u.model && u.model.length ≤ 100 && u.inputTokens ≤ 2147483647 &&
    u.outputTokens ≤ 2147483647 && u.costUsd.all fun c => -1000000 < c && c < 1000000

structure UsageRow where
  model : Str
  calls : Nat
  inputTokens : Nat
  outputTokens : Nat
  costUsd : Option Rat
  uncosted : Nat
  deriving DecidableEq

def usageRow (records : List UsageRecord) (model : Str) : UsageRow :=
  let group := records.filter (·.model = model)
  let costs := group.filterMap (·.costUsd)
  { model := model
    calls := group.length
    inputTokens := (group.map (·.inputTokens)).sum
    outputTokens := (group.map (·.outputTokens)).sum
    costUsd := if costs = [] then none else some costs.sum
    uncosted := (group.filter (·.costUsd.isNone)).length }

/-- `GROUP BY model ORDER BY model` over a tenant's rows since a point in time. -/
def usageRollup (records : List UsageRecord) (tenantId : Uuid) (since : Int) : List UsageRow :=
  let rows := records.filter fun u => u.tenantId = tenantId ∧ since ≤ u.createdAt
  let models := (rows.map (·.model)).dedup.insertionSort fun x y => x ≤ y
  models.map (usageRow rows)

end RagPlatform
