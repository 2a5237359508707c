import RagPlatform.Api.Deps

/-! The usage rollup. -/

namespace RagPlatform

open Lib

structure UsageByModelOut where
  model : Str
  calls : Nat
  inputTokens : Nat
  outputTokens : Nat
  costUsd : Option Rat
  deriving DecidableEq

structure UsageSummaryOut where
  days : Int
  totalCalls : Nat
  totalInputTokens : Nat
  totalOutputTokens : Nat
  totalCostUsd : Option Rat
  byModel : List UsageByModelOut
  deriving DecidableEq

def usageByModel (r : UsageRow) : UsageByModelOut where
  model := r.model
  calls := r.calls
  inputTokens := r.inputTokens
  outputTokens := r.outputTokens
  costUsd := if r.uncosted ≠ 0 then none else r.costUsd

def summarize (days : Int) (byModel : List UsageByModelOut) : UsageSummaryOut where
  days := days
  totalCalls := (byModel.map (·.calls)).sum
  totalInputTokens := (byModel.map (·.inputTokens)).sum
  totalOutputTokens := (byModel.map (·.outputTokens)).sum
  totalCostUsd :=
    if byModel.any (·.costUsd.isNone) then none else some (byModel.filterMap (·.costUsd)).sum
  byModel := byModel

def usageSummary (tenantId : Uuid) (days : Int) : Io UsageSummaryOut := do
  validate (1 ≤ days && days ≤ 365)
  let now ← perform .time
  let rows ← perform (.usageRollup tenantId (now - days * 86400000000))
  return summarize days (rows.map usageByModel)

end RagPlatform
