import Mathlib.Data.List.Chain

/-! A value that is observed again and again, and reported where it changes. -/

namespace RagPlatform.Lib

variable {α κ : Type*} (key : α → κ)

def latest : Option κ → List α → Option κ
  | last, [] => last
  | _, x :: xs => latest (some (key x)) xs

variable {key} in
theorem latest_append {last : Option κ} {xs ys : List α} :
    latest key last (xs ++ ys) = latest key (latest key last xs) ys := by
  induction xs generalizing last with
  | nil => rfl
  | cons x xs ih => exact ih

variable [DecidableEq κ]

/-- The observations at which the key is not what it last was. -/
def changes : Option κ → List α → List α
  | _, [] => []
  | last, x :: xs => (if last = some (key x) then [] else [x]) ++ changes (some (key x)) xs

variable {key} {last : Option κ} {xs ys : List α}

theorem changes_append :
    changes key last (xs ++ ys) = changes key last xs ++ changes key (latest key last xs) ys := by
  induction xs generalizing last with
  | nil => rfl
  | cons x xs ih => rw [List.cons_append, changes, changes, ih, List.append_assoc, latest]

theorem changes_sublist (last : Option κ) (xs : List α) : (changes key last xs).Sublist xs := by
  induction xs generalizing last with
  | nil => exact List.Sublist.slnil
  | cons x xs ih =>
    rw [changes]
    split
    · exact (ih _).cons x
    · exact (ih _).cons_cons x

theorem getLast?_changes (last : Option κ) (xs : List α) :
    (last.toList ++ (changes key last xs).map key).getLast? = latest key last xs := by
  induction xs generalizing last with
  | nil => cases last <;> rfl
  | cons x xs ih =>
    rw [latest, ← ih, changes]
    split
    · next h => rw [h, List.nil_append]
    · cases last <;> simp [List.getLast?_cons]

theorem isChain_changes (last : Option κ) (xs : List α) :
    (last.toList ++ (changes key last xs).map key).IsChain (· ≠ ·) := by
  induction xs generalizing last with
  | nil => cases last <;> simp [changes]
  | cons x xs ih =>
    have hrest := ih (some (key x))
    rw [changes]
    split
    · next h => rwa [h, List.nil_append]
    · next h =>
      cases last with
      | none => exact hrest
      | some k => exact List.IsChain.cons_cons (fun heq => h (congrArg some heq)) hrest

end RagPlatform.Lib
