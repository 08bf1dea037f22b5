/-!
# Patterns of words

Words are matched by patterns in which an asterisk stands for any text, a question mark
for any character, and brackets for one character of a set.
-/

namespace ProtocolInference.Shell

/-- A character of an expanded word, and whether it was quoted. -/
abbrev Mark := Char × Bool

/-- Characters from the first one to the second one. -/
abbrev CharRange := Char × Char

/-- The ranges of a class of characters with a name. -/
def classRanges (name : String) : Option (List CharRange) :=
  match name with
  | "alpha" => some [('A', 'Z'), ('a', 'z')]
  | "digit" => some [('0', '9')]
  | "alnum" => some [('A', 'Z'), ('a', 'z'), ('0', '9')]
  | "upper" => some [('A', 'Z')]
  | "lower" => some [('a', 'z')]
  | "space" => some [('\t', '\x0d'), (' ', ' ')]
  | "blank" => some [('\t', '\t'), (' ', ' ')]
  | "punct" => some [('!', '/'), (':', '@'), ('[', Char.ofNat 96), ('\x7b', '~')]
  | "print" => some [(' ', '~')]
  | "graph" => some [('!', '~')]
  | "cntrl" => some [('\x00', '\x1f'), ('\x7f', '\x7f')]
  | "xdigit" => some [('0', '9'), ('A', 'F'), ('a', 'f')]
  | _ => none

/-- The name of a class up to its closing colon and bracket, and how long both are. -/
def className (ms : List Mark) : Option (String × Nat) :=
  let name := (ms.map (·.1)).takeWhile Char.isAlpha
  match ms.drop name.length with
  | (':', _) :: (']', _) :: _ => some (String.ofList name, name.length + 2)
  | _ => none

/-- The ranges of characters up to the closing bracket, and the rest. A bracket that comes
first stands for itself. -/
def bracketRanges : Nat → Bool → List Mark → Option (List CharRange × List Mark)
  | 0, _, _ => none
  | _, _, [] => none
  | fuel + 1, first, (a, quoted) :: rest =>
    let add (ranges : List CharRange) (rest : List Mark) : Option (List CharRange × List Mark) :=
      (bracketRanges fuel false rest).map fun (others, rest) => (ranges ++ others, rest)
    if a = ']' ∧ !quoted ∧ !first then some ([], rest)
    else match rest with
      | (':', _) :: inner =>
        match if a = '[' then className inner else none with
        | some (name, length) => add ((classRanges name).getD []) (inner.drop length)
        | none => add [(a, a)] rest
      | ('-', false) :: (b, q) :: inner =>
        if b = ']' ∧ !q then add [(a, a)] rest else add [(a, b)] inner
      | _ => add [(a, a)] rest

/-- The set of characters in brackets, after the first bracket: whether it is to be
avoided, its ranges, and the rest. -/
def bracketSet (ms : List Mark) : Option (Bool × List CharRange × List Mark) :=
  let (negated, ms) := match ms with
    | ('!', false) :: rest | ('^', false) :: rest => (true, rest)
    | _ => (false, ms)
  (bracketRanges (ms.length + 1) true ms).map fun (rs, rest) => (negated, rs, rest)

/-- Whether a set of ranges holds the character. -/
def inSet (negated : Bool) (ranges : List CharRange) (c : Char) : Bool :=
  (ranges.any fun (a, b) => a ≤ c && c ≤ b) != negated

/-- Whether a text matches a pattern. -/
def matchesWord : Nat → List Mark → List Char → Bool
  | 0, _, _ => false
  | _, [], cs => cs.isEmpty
  | fuel + 1, ('*', false) :: ps, cs =>
    matchesWord fuel ps cs || match cs with
      | [] => false
      | _ :: rest => matchesWord fuel (('*', false) :: ps) rest
  | fuel + 1, (p, quoted) :: ps, c :: cs =>
    if p = '?' ∧ !quoted then matchesWord fuel ps cs
    else if p = '[' ∧ !quoted then
      match bracketSet ps with
      | some (negated, ranges, ps) => inSet negated ranges c && matchesWord fuel ps cs
      | none => c == '[' && matchesWord fuel ps cs
    else p == c && matchesWord fuel ps cs
  | _, _, [] => false

/-- Whether a text as a whole matches a pattern. -/
def matchesPattern (pattern : List Mark) (text : List Char) : Bool :=
  matchesWord (pattern.length + text.length + 1) pattern text

/-- Whether the pattern has a character with a special meaning. -/
def isPattern (ps : List Mark) : Bool :=
  ps.any fun (c, quoted) => !quoted && (c == '*' || c == '?' || c == '[')

/-- The text without a part at one of its ends that matches the pattern: the longest such
part or the shortest. -/
def trimMatch (pattern : List Mark) (fromEnd longest : Bool) (text : List Char) : List Char :=
  let sizes := List.range (text.length + 1)
  let sizes := if longest then sizes.reverse else sizes
  let cut (size : Nat) : List Char × List Char :=
    if fromEnd then (text.drop (text.length - size), text.take (text.length - size))
    else (text.take size, text.drop size)
  match sizes.find? fun size => matchesPattern pattern (cut size).1 with
  | some size => (cut size).2
  | none => text

end ProtocolInference.Shell
