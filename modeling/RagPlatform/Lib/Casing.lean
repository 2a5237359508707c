import RagPlatform.Lib.Text

/-! `str.lower`, by the tables of Unicode. -/

namespace RagPlatform.Lib

/-- The full lower case of each character, and what surrounds a final sigma. -/
structure CaseTables where
  lower : Char → Str
  cased : Char → Bool
  caseIgnorable : Char → Bool
  lower_ne_nil : ∀ c, lower c ≠ []

namespace CaseTables

variable (tables : CaseTables)

def besideCased (s : Str) : Bool := (s.dropWhile tables.caseIgnorable).head?.any tables.cased

/-- A capital sigma after a letter and not before one; `before` is in reverse. -/
def lowerSigma (before after : Str) : Char :=
  if tables.besideCased before && !tables.besideCased after then '\u03C2' else '\u03C3'

def lowerFrom : (before : Str) → Str → Str
  | _, [] => []
  | before, c :: s =>
    (if c = '\u03A3' then [tables.lowerSigma before s] else tables.lower c) ++
      lowerFrom (c :: before) s

/-- `s.lower()` -/
def lowered (s : Str) : Str := tables.lowerFrom [] s

variable {tables}

theorem lowered_ne_nil {s : Str} (h : s ≠ []) : tables.lowered s ≠ [] := by
  cases s with
  | nil => exact absurd rfl h
  | cons c s =>
    rw [lowered, lowerFrom]
    refine List.append_ne_nil_of_left_ne_nil ?_ _
    split
    · exact List.cons_ne_nil _ []
    · exact tables.lower_ne_nil c

end CaseTables

end RagPlatform.Lib
