/-!
# Formulas of linear temporal logic

Formulas speak about a sequence of moments. Their texts have the operators of Promela;
an implication and an until are written in parentheses, a disjunction is not.
-/

namespace ProtocolInference

/-- A formula over atoms of type `α`. -/
inductive Formula (α : Type) where
  /-- The atom holds at this moment. -/
  | atom (a : α)
  | not (body : Formula α)
  | implies (first second : Formula α)
  | or (first second : Formula α)
  /-- The body holds from now on. -/
  | always (body : Formula α)
  /-- The body holds now or at a later moment. -/
  | eventually (body : Formula α)
  /-- The second holds now or later, and the first at every moment before that. -/
  | holdsUntil (first second : Formula α)
  deriving DecidableEq, Repr

namespace Formula

/-- The text of a formula, given the texts of the atoms. -/
def display {α : Type} (atomText : α → String) : Formula α → String
  | atom a => atomText a
  | not f => "!" ++ display atomText f
  | implies f g => "(" ++ display atomText f ++ " -> " ++ display atomText g ++ ")"
  | or f g => display atomText f ++ " || " ++ display atomText g
  | always f => "[] " ++ display atomText f
  | eventually f => "<> " ++ display atomText f
  | holdsUntil f g => "(" ++ display atomText f ++ " U " ++ display atomText g ++ ")"

end Formula

end ProtocolInference
