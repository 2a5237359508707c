import Mathlib.Data.List.Dedup
import RagPlatform.Api.Usage
import RagPlatform.Lib.Grouping
import RagPlatform.Surroundings
import RagPlatform.System

/-! What the usage rollup adds up to. -/

namespace RagPlatform

open Lib

structure UsageFigures where
  calls : Nat
  inputTokens : Nat
  outputTokens : Nat
  costUsd : Option Rat

def UsageByModelOut.figures (m : UsageByModelOut) : UsageFigures :=
  ⟨m.calls, m.inputTokens, m.outputTokens, m.costUsd⟩

def UsageSummaryOut.figures (s : UsageSummaryOut) : UsageFigures :=
  ⟨s.totalCalls, s.totalInputTokens, s.totalOutputTokens, s.totalCostUsd⟩

/-- The figures are those of the rows; the cost is left out when a row has none. -/
structure Sums (rows : List UsageRecord) (f : UsageFigures) : Prop where
  calls : f.calls = rows.length
  inputTokens : f.inputTokens = (rows.map (·.inputTokens)).sum
  outputTokens : f.outputTokens = (rows.map (·.outputTokens)).sum
  costUsd : Totals (rows.map (·.costUsd)) f.costUsd

/-- One entry for each model, and a total of all rows, which is what the entries add up to. -/
structure RollsUp (rows : List UsageRecord) (s : UsageSummaryOut) : Prop where
  models : Keys (·.model) rows (s.byModel.map (·.model))
  entries : ∀ m ∈ s.byModel, Sums (groupOf (·.model) rows m.model) m.figures
  totals : Sums rows s.figures
  calls : (s.byModel.map (·.calls)).sum = s.totalCalls
  inputTokens : (s.byModel.map (·.inputTokens)).sum = s.totalInputTokens
  outputTokens : (s.byModel.map (·.outputTokens)).sum = s.totalOutputTokens
  costUsd : Totals (s.byModel.map (·.costUsd)) s.totalCostUsd

def usageWindow (records : List UsageRecord) (tenantId : Uuid) (since : Int) : List UsageRecord :=
  records.filter fun u => u.tenantId = tenantId ∧ since ≤ u.createdAt

theorem totals_usageRow {rows : List UsageRecord} {model : Str}
    (hne : groupOf (·.model) rows model ≠ []) :
    Totals ((groupOf (·.model) rows model).map (·.costUsd))
      (usageByModel (usageRow rows model)).costUsd := by
  have htotals := totals_filterMap ((groupOf (·.model) rows model).map (·.costUsd))
  have hcost : (usageByModel (usageRow rows model)).costUsd =
      if ((groupOf (·.model) rows model).map (·.costUsd)).any (·.isNone) then none
      else some (((groupOf (·.model) rows model).map (·.costUsd)).filterMap id).sum := by
    change (if ((groupOf (·.model) rows model).filter (·.costUsd.isNone)).length ≠ 0 then none
      else if (groupOf (·.model) rows model).filterMap (·.costUsd) = [] then none
      else some ((groupOf (·.model) rows model).filterMap (·.costUsd)).sum) = _
    generalize groupOf (·.model) rows model = group at hne
    have hany : (group.map (·.costUsd)).any (·.isNone) = true ↔ ∃ u ∈ group, u.costUsd.isNone := by
      simp
    by_cases hmissing : ∃ u ∈ group, u.costUsd.isNone = true
    · rw [if_pos (by simpa using hmissing), if_pos (hany.mpr hmissing)]
    · have hcosts : group.filterMap (·.costUsd) ≠ [] := by
        obtain ⟨u, group, rfl⟩ := List.exists_cons_of_ne_nil hne
        obtain ⟨c, hc⟩ := Option.ne_none_iff_exists'.mp fun hnone =>
          hmissing ⟨u, List.mem_cons_self, Option.isNone_iff_eq_none.mpr hnone⟩
        rw [List.filterMap_cons_some hc]
        exact List.cons_ne_nil _ _
      rw [if_neg (by simpa using hmissing), if_neg hcosts, if_neg (mt hany.mp hmissing),
        List.filterMap_map]
      rfl
  exact hcost ▸ htotals

theorem sums_usageRow {rows : List UsageRecord} {model : Str}
    (hne : groupOf (·.model) rows model ≠ []) :
    Sums (groupOf (·.model) rows model) (usageByModel (usageRow rows model)).figures :=
  ⟨rfl, rfl, rfl, totals_usageRow hne⟩

def modelsOf (rows : List UsageRecord) : List Str :=
  (rows.map (·.model)).dedup.insertionSort fun x y => x ≤ y

theorem keys_modelsOf (rows : List UsageRecord) : Keys (·.model) rows (modelsOf rows) where
  nodup := (List.perm_insertionSort _ _).nodup_iff.mpr (List.nodup_dedup _)
  mem_iff model := by simp [modelsOf, List.mem_dedup]

def summaryOf (rows : List UsageRecord) (days : Int) : UsageSummaryOut :=
  summarize days ((modelsOf rows).map fun model => usageByModel (usageRow rows model))

theorem rollsUp_summaryOf (rows : List UsageRecord) (days : Int) :
    RollsUp rows (summaryOf rows days) := by
  have hkeys := keys_modelsOf rows
  have hmodels : (summaryOf rows days).byModel.map (·.model) = modelsOf rows := by
    rw [summaryOf, summarize, List.map_map]
    exact List.map_id _
  have hentry (model : Str) (hmodel : model ∈ modelsOf rows) :
      Sums (groupOf (·.model) rows model) (usageByModel (usageRow rows model)).figures :=
    sums_usageRow (groupOf_ne_nil hkeys hmodel)
  have hcover (u : UsageRecord) (hu : u ∈ rows) : u.model ∈ modelsOf rows :=
    (hkeys.mem_iff _).mpr ⟨u, hu, rfl⟩
  have hcosts : Totals ((summaryOf rows days).byModel.map (·.costUsd))
      (summaryOf rows days).totalCostUsd := by
    have htotals := totals_filterMap ((summaryOf rows days).byModel.map (·.costUsd))
    rwa [List.any_map, List.filterMap_map] at htotals
  have htotals : Sums rows (summaryOf rows days).figures := by
    have hsum (f : UsageByModelOut → Nat) (g : UsageRecord → Nat)
        (hf : ∀ model, f (usageByModel (usageRow rows model)) =
          ((groupOf (·.model) rows model).map g).sum) :
        ((summaryOf rows days).byModel.map f).sum = (rows.map g).sum := by
      rw [summaryOf, summarize, List.map_map, ← sum_groups g hkeys.nodup hcover]
      exact congrArg List.sum (List.map_congr_left fun model _ => hf model)
    refine ⟨?_, hsum _ _ fun _ => rfl, hsum _ _ fun _ => rfl, ?_⟩
    · have hone := hsum (·.calls) (fun _ => 1) fun model => by
        simp [usageByModel, usageRow, groupOf]
      exact hone.trans (by simp)
    · have hmap : (summaryOf rows days).byModel.map (·.costUsd) =
          (modelsOf rows).map fun model => (usageByModel (usageRow rows model)).costUsd := by
        rw [summaryOf, summarize, List.map_map]
        rfl
      exact .of_groups hkeys (fun model hmodel => (hentry model hmodel).costUsd) (hmap ▸ hcosts)
  refine ⟨hmodels ▸ hkeys, fun m hm => ?_, htotals, rfl, rfl, rfl, hcosts⟩
  obtain ⟨model, hmodel, rfl⟩ := List.mem_map.mp hm
  exact hentry model hmodel

theorem modelsOf_perm {rows rows' : List UsageRecord} (h : rows.Perm rows') :
    modelsOf rows = modelsOf rows' := by
  have hperm : (modelsOf rows).Perm (modelsOf rows') :=
    ((List.perm_insertionSort _ _).trans (h.map _).dedup).trans (List.perm_insertionSort _ _).symm
  exact hperm.eq_of_pairwise (fun _ _ _ _ => le_antisymm) (List.pairwise_insertionSort _ _)
    (List.pairwise_insertionSort _ _)

theorem usageRow_perm {rows rows' : List UsageRecord} (h : rows.Perm rows') (model : Str) :
    usageByModel (usageRow rows model) = usageByModel (usageRow rows' model) := by
  have hgroup := h.filter fun u => u.model = model
  have hcosts := hgroup.filterMap (·.costUsd)
  have hnil : (rows.filter fun u => u.model = model).filterMap (·.costUsd) = [] ↔
      (rows'.filter fun u => u.model = model).filterMap (·.costUsd) = [] := by
    rw [← List.length_eq_zero_iff, hcosts.length_eq, List.length_eq_zero_iff]
  have hrow : usageRow rows model = usageRow rows' model := by
    simp only [usageRow, UsageRow.mk.injEq, true_and]
    exact ⟨hgroup.length_eq, (hgroup.map _).sum_eq, (hgroup.map _).sum_eq,
      if_congr hnil rfl (congrArg some hcosts.sum_eq), (hgroup.filter _).length_eq⟩
  rw [hrow]

theorem summaryOf_perm {rows rows' : List UsageRecord} (h : rows.Perm rows') (days : Int) :
    summaryOf rows days = summaryOf rows' days := by
  simp only [summaryOf, modelsOf_perm h, usageRow_perm h]

def usageSince (env : Surroundings) (w : World) (days : Int) : Int :=
  (env .time w).now - days * 86400000000

section

variable {env : Surroundings} {w : World} {tenantId : Uuid} {days : Int}

theorem eval_usageSummary (hdays : 1 ≤ days ∧ days ≤ 365) :
    Io.eval env (usageSummary tenantId days) w =
      Io.eval env (perform (.usageRollup tenantId (usageSince env w days)) >>= fun rows =>
        pure (summarize days (rows.map usageByModel))) w := by
  have hvalid : Io.eval env (validate (1 ≤ days && days ≤ 365)) w = (w, .ok ()) := by
    simp [validate, hdays.1, hdays.2]
  have htime : Io.eval env (perform .time) w = (w, .ok (env .time w).now) := by
    rw [Io.eval_perform]
    unfold exec
    cases (env .time w).fault <;> rfl
  unfold usageSummary
  rw [Io.eval_bind_ok hvalid, Io.eval_bind_ok htime]
  rfl

theorem eval_usageSummary_refused (hdays : ¬(1 ≤ days ∧ days ≤ 365)) :
    Io.eval env (usageSummary tenantId days) w =
      (w, .error (.other "RequestValidationError".toList)) := by
  have hinvalid : (1 ≤ days && days ≤ 365) = false := by
    rw [← Bool.decide_and]
    exact decide_eq_false hdays
  unfold usageSummary
  rw [hinvalid]
  exact Io.eval_bind_error Io.eval_raise

theorem eval_usageSummary_rows (hdays : 1 ≤ days ∧ days ≤ 365)
    (hrows : Io.eval env (perform (.usageRollup tenantId (usageSince env w days))) w =
      (w, .ok (usageRollup w.usageRecords tenantId (usageSince env w days)))) :
    Io.eval env (usageSummary tenantId days) w = (w, .ok
      (summaryOf (usageWindow w.usageRecords tenantId (usageSince env w days)) days)) := by
  rw [eval_usageSummary hdays, Io.eval_bind_ok hrows, Io.eval_pure, usageRollup, List.map_map]
  rfl

theorem eval_usageRollup_cases (since : Int) :
    Io.eval env (perform (.usageRollup tenantId since)) w =
        (w, .ok (usageRollup w.usageRecords tenantId since)) ∨
      ∃ w' name, Io.eval env (perform (.usageRollup tenantId since)) w =
        (w', .error (.other name)) := by
  obtain hserve | ⟨name, herror, -⟩ :=
    exec_cases (env (.usageRollup tenantId since) w) (.usageRollup tenantId since) w
  · exact .inl hserve
  · exact .inr ⟨_, name, Prod.ext rfl herror⟩

theorem eq_of_eval_usageSummary {w' : World} {summary : UsageSummaryOut}
    (h : Io.eval env (usageSummary tenantId days) w = (w', .ok summary)) :
    w' = w ∧
      summary = summaryOf (usageWindow w.usageRecords tenantId (usageSince env w days)) days := by
  by_cases hdays : 1 ≤ days ∧ days ≤ 365
  · obtain hrows | ⟨w₁, name, herror⟩ :=
      @eval_usageRollup_cases env w tenantId (usageSince env w days)
    · rw [eval_usageSummary_rows hdays hrows] at h
      cases h
      exact ⟨rfl, rfl⟩
    · rw [eval_usageSummary hdays, Io.eval_bind_error herror] at h
      cases h
  · rw [eval_usageSummary_refused hdays] at h
    cases h

/-- Whatever is asked for, a summary that is returned adds up to the rows of the tenant in the window,
in whatever order they are; and one is returned whenever the days are allowed and the rows arrive. -/
theorem usage_rolls_up (env : Surroundings) (w : World) (tenantId : Uuid) (days : Int) :
    (∀ w' summary, Io.eval env (usageSummary tenantId days) w = (w', .ok summary) →
      w' = w ∧ summary.days = days ∧
      RollsUp (usageWindow w.usageRecords tenantId (usageSince env w days)) summary ∧
      ∀ env₂ w₂ w₂' summary₂, w₂.usageRecords.Perm w.usageRecords →
        usageSince env₂ w₂ days = usageSince env w days →
        Io.eval env₂ (usageSummary tenantId days) w₂ = (w₂', .ok summary₂) →
        summary₂ = summary) ∧
    (1 ≤ days ∧ days ≤ 365 →
      (env (.usageRollup tenantId (usageSince env w days)) w).fault = none →
      ∃ summary, Io.eval env (usageSummary tenantId days) w = (w, .ok summary)) := by
  constructor
  · intro w' summary h
    obtain ⟨rfl, rfl⟩ := eq_of_eval_usageSummary h
    refine ⟨rfl, rfl, rollsUp_summaryOf _ _, ?_⟩
    intro env₂ w₂ w₂' summary₂ hperm hsince h₂
    obtain ⟨-, rfl⟩ := eq_of_eval_usageSummary h₂
    have hwindow : (usageWindow w₂.usageRecords tenantId (usageSince env w' days)).Perm
        (usageWindow w'.usageRecords tenantId (usageSince env w' days)) := hperm.filter _
    rw [hsince, summaryOf_perm hwindow]
  · intro hdays hrows
    exact ⟨_, eval_usageSummary_rows hdays (eval_perform_of_no_fault hrows)⟩

end

namespace Sample

def usageOf (tenant : Nat) (model : String) (inputTokens : Nat) (costUsd : Option Rat)
    (createdAt : Nat) : UsageRecord where
  tenantId := ⟨tenant⟩
  operation := "answer".toList
  model := model.toList
  inputTokens := inputTokens
  outputTokens := 1
  costUsd := costUsd
  createdAt := createdAt

/-- Two models, one of them with a row that has no cost, a row of another tenant and an old one. -/
def usageWorld : World :=
  { world with
    usageRecords :=
      [usageOf 1 "b" 10 (some (1 / 2)) 700000000000, usageOf 1 "a" 20 none 700000000000,
        usageOf 2 "a" 40 (some 7) 700000000000, usageOf 1 "b" 80 (some (1 / 4)) 700000000000,
        usageOf 1 "a" 160 (some 3) 100] }

def usageEnv : Surroundings := fun _ _ => { now := 700000000000 }

end Sample

theorem usage_rolls_up_sample : ∃ summary,
    Io.eval Sample.usageEnv (usageSummary ⟨1⟩ 7) Sample.usageWorld =
      (Sample.usageWorld, .ok summary) ∧ summary.days = 7 ∧
      RollsUp (usageWindow Sample.usageWorld.usageRecords ⟨1⟩ 95200000000) summary := by
  obtain ⟨hrolls, hanswers⟩ := usage_rolls_up Sample.usageEnv Sample.usageWorld ⟨1⟩ 7
  obtain ⟨summary, heval⟩ := hanswers (by decide) rfl
  obtain ⟨-, hdays, hsums, -⟩ := hrolls _ _ heval
  exact ⟨summary, heval, hdays, hsums⟩

/-- Only the model whose rows all have one gets a cost, and the total has none. -/
example : summaryOf (usageWindow Sample.usageWorld.usageRecords ⟨1⟩ 95200000000) 7 =
    ⟨7, 3, 110, 3, none,
      [⟨"a".toList, 1, 20, 1, none⟩, ⟨"b".toList, 2, 90, 2, some (3 / 4)⟩]⟩ := by
  decide +kernel

end RagPlatform
