import ProtocolInference.Shell.Machine

/-!
# Arithmetic of the shell

Expressions over integers of 64 bits and variables, with the operators of the shell and
their precedences. A variable without a value counts as zero, and truth is the number one.
-/

namespace ProtocolInference.Shell.Arithmetic

/-- An expression. -/
inductive Expression where
  | number (n : Int)
  | variable (name : String)
  | unary (op : String) (operand : Expression)
  | binary (op : String) (left right : Expression)
  | conditional (condition left right : Expression)
  /-- Sets a variable to the value of the operand, or to what the operator makes of its
  value and that one. -/
  | assignment (name op : String) (operand : Expression)
  deriving Inhabited

/-! ### Numbers -/

/-- The number that digits stand for, in the base that their start tells, and the rest. -/
def digitsValue (cs : List Char) : Int × List Char :=
  let digit (base : Nat) (c : Char) : Option Nat :=
    let n := c.toNat
    let d := if 48 ≤ n ∧ n ≤ 57 then n - 48
      else if 97 ≤ n ∧ n ≤ 102 then n - 87
      else if 65 ≤ n ∧ n ≤ 70 then n - 55
      else base
    if d < base then some d else none
  let read (base : Nat) (cs : List Char) : Int × List Char :=
    let ds := cs.takeWhile fun c => (digit base c).isSome
    (ds.foldl (fun n c => n * base + ((digit base c).getD 0 : Nat)) 0, cs.drop ds.length)
  match cs with
  | '0' :: x :: c :: rest =>
    if (x = 'x' ∨ x = 'X') ∧ (digit 16 c).isSome then read 16 (c :: rest) else read 8 cs
  | '0' :: _ => read 8 cs
  | _ => read 10 cs

/-- The integer of 64 bits with the same last digits. -/
def wrap (n : Int) : Int := n.bmod 0x10000000000000000

/-- The integer within 64 bits that is nearest. -/
def clamp (n : Int) : Int := max (-0x8000000000000000) (min n 0x7fffffffffffffff)

/-- The number that the value of a variable stands for. -/
def numberOf (s : String) : Option Int :=
  let cs := s.toList.dropWhile fun c => c.isWhitespace || c == '\x0b' || c == '\x0c'
  let (negative, cs) := match cs with
    | '-' :: cs => (true, cs)
    | '+' :: cs => (false, cs)
    | cs => (false, cs)
  let (n, rest) := digitsValue cs
  if cs.head?.any Char.isDigit && rest.isEmpty then some (clamp (if negative then -n else n))
  else none

/-! ### Reading -/

/-- A token of an expression. -/
inductive Token where
  | number (n : Int)
  | name (s : String)
  | operator (text : String)
  /-- A character that no expression holds. -/
  | stray
  deriving DecidableEq

/-- The operators that are longer than one character, the longest ones first. -/
def longOperators : List String :=
  ["<<=", ">>=", "<<", ">>", "<=", ">=", "==", "!=", "&&", "||", "+=", "-=", "*=", "/=", "%=",
    "&=", "|=", "^="]

/-- The tokens of an expression. -/
def tokens : Nat → List Char → List Token
  | 0, _ => []
  | _, [] => []
  | fuel + 1, c :: cs =>
    if c = ' ' ∨ c = '\t' ∨ c = '\n' then tokens fuel cs
    else if c.isDigit then
      let (n, rest) := digitsValue (c :: cs)
      .number (clamp n) :: tokens fuel rest
    else if isNameStart c then
      let name := (c :: cs).takeWhile isNameChar
      .name (String.ofList name) :: tokens fuel ((c :: cs).drop name.length)
    else match longOperators.find? fun op => op.toList.isPrefixOf (c :: cs) with
      | some op => .operator op :: tokens fuel ((c :: cs).drop op.length)
      | none =>
        if "+-*/%()<>!~&|^?:=".toList.contains c then
          .operator (String.singleton c) :: tokens fuel cs
        else [.stray]

/-- The operators with two operands, from the weakest to the strongest. -/
def levels : List (List String) :=
  [["||"], ["&&"], ["|"], ["^"], ["&"], ["==", "!="], ["<", ">", "<=", ">="], ["<<", ">>"],
    ["+", "-"], ["*", "/", "%"]]

/-- The operators that set a variable. -/
def assignments : List (String × String) :=
  [("=", ""), ("+=", "+"), ("-=", "-"), ("*=", "*"), ("/=", "/"), ("%=", "%"), ("<<=", "<<"),
    (">>=", ">>"), ("&=", "&"), ("|=", "|"), ("^=", "^")]

/-- Reads a part of an expression, or says what is wrong with it. -/
abbrev Parsed := Except String (Expression × List Token)

mutual
/-- A whole expression. -/
def whole (fuel : Nat) (ts : List Token) : Parsed :=
  match fuel with
  | 0 => throw "expecting primary"
  | fuel + 1 =>
    match ts with
    | .name s :: .operator op :: rest =>
      match assignments.lookup op with
      | some plain => do
        let (e, rest) ← whole fuel rest
        pure (.assignment s plain e, rest)
      | none => conditional fuel ts
    | _ => conditional fuel ts
/-- A choice between two expressions, or one without a choice. -/
def conditional (fuel : Nat) (ts : List Token) : Parsed :=
  match fuel with
  | 0 => throw "expecting primary"
  | fuel + 1 => do
    let (condition, rest) ← leveled fuel levels ts
    match rest with
    | .operator "?" :: rest => do
      let (left, rest) ← whole fuel rest
      match rest with
      | .operator ":" :: rest => do
        let (right, rest) ← conditional fuel rest
        pure (.conditional condition left right, rest)
      | _ => throw "expecting ':'"
    | _ => pure (condition, rest)
/-- An expression of the given levels. -/
def leveled (fuel : Nat) (ops : List (List String)) (ts : List Token) : Parsed :=
  match fuel with
  | 0 => throw "expecting primary"
  | fuel + 1 =>
    match ops with
    | [] => operand fuel ts
    | level :: stronger => do
      let (a, rest) ← leveled fuel stronger ts
      operations fuel level stronger a rest
/-- The operators of one level, joined from the left. -/
def operations (fuel : Nat) (level : List String) (stronger : List (List String))
    (a : Expression) (ts : List Token) : Parsed :=
  match fuel with
  | 0 => throw "expecting primary"
  | fuel + 1 =>
    match ts with
    | .operator op :: rest =>
      if level.contains op then do
        let (b, rest) ← leveled fuel stronger rest
        operations fuel level stronger (.binary op a b) rest
      else pure (a, ts)
    | _ => pure (a, ts)
/-- A number, a variable, a sign with its operand, or an expression in parentheses. -/
def operand (fuel : Nat) (ts : List Token) : Parsed :=
  match fuel with
  | 0 => throw "expecting primary"
  | fuel + 1 =>
    match ts with
    | .number n :: rest => pure (.number n, rest)
    | .name s :: rest => pure (.variable s, rest)
    | .operator "(" :: rest => do
      let (e, rest) ← whole fuel rest
      match rest with
      | .operator ")" :: rest => pure (e, rest)
      | _ => throw "expecting ')'"
    | .operator op :: rest =>
      if ["-", "+", "!", "~"].contains op then do
        let (e, rest) ← operand fuel rest
        pure (.unary op e, rest)
      else throw "expecting primary"
    | _ => throw "expecting primary"
end

/-- The expression that a text describes. -/
def parse (source : String) : Except String Expression := do
  let ts := tokens (source.length + 1) source.toList
  let (e, rest) ← whole (16 * ts.length + 32) ts
  if rest.isEmpty then pure e else throw "expecting EOF"

/-! ### Values -/

def truth (b : Bool) : Int := if b then 1 else 0

/-- The value of an operator, unless it divides by zero. -/
def apply (op : String) (a b : Int) : Option Int :=
  match op with
  | "==" => some (truth (a = b))
  | "!=" => some (truth (a ≠ b))
  | "<" => some (truth (a < b))
  | ">" => some (truth (a > b))
  | "<=" => some (truth (a ≤ b))
  | ">=" => some (truth (a ≥ b))
  | "+" => some (wrap (a + b))
  | "-" => some (wrap (a - b))
  | "*" => some (wrap (a * b))
  | "/" => if b = 0 then none else some (wrap (a.tdiv b))
  | "%" => if b = 0 then none else some (a.tmod b)
  | "<<" => some ((Int64.ofInt a <<< Int64.ofInt b).toInt)
  | ">>" => some ((Int64.ofInt a >>> Int64.ofInt b).toInt)
  | "&" => some ((Int64.ofInt a &&& Int64.ofInt b).toInt)
  | "|" => some ((Int64.ofInt a ||| Int64.ofInt b).toInt)
  | "^" => some ((Int64.ofInt a ^^^ Int64.ofInt b).toInt)
  | _ => some b

/-- The value of a variable as a number. -/
def lookup (name : String) : Run Int := do
  match (← get).variableValue name with
  | none =>
    if (← get).flags.contains 'u' then Run.fail s!"{name}: parameter not set" else pure 0
  | some s =>
    if s = "" then pure 0
    else match numberOf s with
      | some n => pure n
      | none => Run.fail s!"Illegal number: {s}"

/-- Stops at an expression that is wrong. -/
def wrong {α : Type} (source reason : String) : Run α :=
  Run.fail s!"arithmetic expression: {reason}: \"{source}\""

/-- The value of an expression of the given source. -/
def valueOf (source : String) : Expression → Run Int
  | .number n => pure n
  | .variable name => lookup name
  | .unary op e => do
    let n ← valueOf source e
    pure (if op = "-" then wrap (-n) else if op = "!" then truth (n = 0)
      else if op = "~" then -n - 1 else n)
  | .binary op a b => do
    let x ← valueOf source a
    if op = "&&" then
      if x = 0 then pure 0 else pure (truth ((← valueOf source b) ≠ 0))
    else if op = "||" then
      if x ≠ 0 then pure 1 else pure (truth ((← valueOf source b) ≠ 0))
    else
      let y ← valueOf source b
      match apply op x y with
      | some n => pure n
      | none => wrong source "division by zero"
  | .conditional c a b => do
    if (← valueOf source c) ≠ 0 then valueOf source a else valueOf source b
  | .assignment name op e => do
    let y ← valueOf source e
    let x ← if op = "" then pure 0 else lookup name
    match apply op x y with
    | some n => do
      Run.assign name (toString n)
      pure n
    | none => wrong source "division by zero"

/-- The value of the expression that a text describes. -/
def evaluate (source : String) : Run Int := do
  match parse source with
  | .ok e => valueOf source e
  | .error reason => wrong source reason

end ProtocolInference.Shell.Arithmetic
