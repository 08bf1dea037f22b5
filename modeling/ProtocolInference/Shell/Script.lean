/-!
# Shell scripts

The scripts that wrap a checker are written in the language of the standard shell. This
is their structure: commands made of words, joined by the operators of the language.
-/

namespace ProtocolInference.Shell

/-- Where a redirection leads. -/
inductive Direction where
  | input
  /-- To a file, `always` also to one that is there already. -/
  | output (always : Bool)
  | append
  /-- To where another descriptor leads, or nowhere. -/
  | duplicate
  /-- From a text in the script, which is kept under a number. -/
  | document (number : Nat)
  deriving DecidableEq, Repr

mutual
/-- A part of a word. What is quoted is not split into several words. -/
inductive Part where
  | text (content : String) (quoted : Bool)
  | parameter (name : String) (use : Use) (quoted : Bool)
  /-- The output of a script. -/
  | output (body : Script) (quoted : Bool)
  | arithmetic (expression : List Part) (quoted : Bool)
/-- What is made of the value of a parameter. One that is set but empty counts as missing
where `orEmpty` says so. -/
inductive Use where
  | value
  | length
  /-- The word if the parameter is missing. -/
  | fallback (orEmpty : Bool) (word : List Part)
  /-- The word, which the parameter gets as its value, if it is missing. -/
  | assignment (orEmpty : Bool) (word : List Part)
  /-- An error with the word as its message if the parameter is missing. -/
  | demand (orEmpty : Bool) (word : List Part)
  /-- The word unless the parameter is missing. -/
  | alternative (orEmpty : Bool) (word : List Part)
  /-- The value without a part at one end that matches the pattern. -/
  | trimmed (fromEnd longest : Bool) (pattern : List Part)
  /-- Not a use that the language knows. -/
  | unknown
/-- A change of one of the descriptors. -/
inductive Redirection where
  | mk (descriptor : Nat) (direction : Direction) (target : List Part)
/-- A script. Commands know the line that they stand on. -/
inductive Script where
  | nothing
  /-- A command with its arguments. -/
  | simple (line : Nat) (assignments : List (String × List Part)) (words : List (List Part))
    (redirections : List Redirection)
  | sequence (first second : Script)
  | conjunction (first second : Script)
  | disjunction (first second : Script)
  | negation (body : Script)
  | pipe (parts : List Script)
  /-- Runs beside the rest of the script. -/
  | background (body : Script)
  | subshell (body : Script)
  | redirected (line : Nat) (body : Script) (redirections : List Redirection)
  | conditional (condition body otherwise : Script)
  /-- Repeats the body as long as the condition succeeds, or fails. -/
  | repetition (succeeds : Bool) (condition body : Script)
  | each (line : Nat) (name : String) (words : List (List Part)) (body : Script)
  /-- Runs the body of the first branch with a pattern that matches the word. -/
  | choice (line : Nat) (word : List Part) (branches : List Branch)
  | definition (name : String) (body : Script)
/-- The patterns of a choice and what to do if one matches. -/
inductive Branch where
  | mk (patterns : List (List Part)) (body : Script)
end

instance : Inhabited Script := ⟨.nothing⟩

/-- A word before it is expanded. -/
abbrev Word := List Part

end ProtocolInference.Shell
