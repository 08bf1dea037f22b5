/-!
# Strictly ascending lists as finite sets

A finite set over a linearly ordered type is kept as the strictly ascending list
of its elements, so two sets with the same elements are the same list. Sets of
partition members, transition relations and alphabets all have this form.
-/

namespace ProtocolInference.Ascending

variable {α : Type} [Ord α]

/-- Adds `a` at its place; an element that is already there is kept once. -/
def insert (a : α) : List α → List α
  | [] => [a]
  | b :: bs =>
    match compare a b with
    | .lt => a :: b :: bs
    | .eq => b :: bs
    | .gt => b :: insert a bs

/-- The set of the elements of `xs`. -/
def ofList (xs : List α) : List α :=
  xs.foldl (fun s a => insert a s) []

end ProtocolInference.Ascending
