import ProtocolInference.Json.Basic

/-!
# Reading JSON

A text is read character by character by a machine with a stack: the stack holds the
arrays and objects around the current place, and the mode says what may follow there.
A text is a JSON text if the machine has read exactly one value when the text ends.
Blanks, tabs and line breaks may stand between the parts of a value and nowhere else.
-/

namespace ProtocolInference.Json

/-! ### Strings being read -/

/-- Where a string is being read: right after an ordinary character, or inside an
escape. -/
inductive Escape where
  | none
  | started
  /-- Some digits of an escape with four hexadecimal digits have been read. -/
  | digits (count : Nat) (value : Nat)
  deriving DecidableEq

/-- A string that is being read. The characters are kept in reverse. -/
structure Pending where
  chars : List Char := []
  escape : Escape := .none
  /-- The first half of a surrogate pair whose second half has to follow. -/
  half : Option Nat := none
  /-- Whether some half of a surrogate pair stood alone. -/
  broken : Bool := false

/-- Four hexadecimal digits have been read as the number `n`. -/
def Pending.addUnit (p : Pending) (n : Nat) : Pending :=
  let p := { p with escape := .none }
  match p.half with
  | some high =>
    if 0xDC00 ≤ n ∧ n ≤ 0xDFFF then
      let code := 0x10000 + (high - 0xD800) * 0x400 + (n - 0xDC00)
      { p with chars := Char.ofNat code :: p.chars, half := none }
    else { p with half := none, broken := true }
  | none =>
    if 0xD800 ≤ n ∧ n ≤ 0xDBFF then { p with half := some n }
    else if 0xDC00 ≤ n ∧ n ≤ 0xDFFF then { p with broken := true }
    else { p with chars := Char.ofNat n :: p.chars }

/-- An ordinary character, or an escaped one, has been read. -/
def Pending.addChar (p : Pending) (c : Char) : Pending :=
  { p with chars := c :: p.chars, escape := .none, half := none,
           broken := p.broken || p.half.isSome }

/-- The value of a hexadecimal digit. -/
def hexValue (c : Char) : Option Nat :=
  let n := c.toNat
  if 48 ≤ n ∧ n ≤ 57 then some (n - 48)
  else if 97 ≤ n ∧ n ≤ 102 then some (n - 87)
  else if 65 ≤ n ∧ n ≤ 70 then some (n - 55)
  else none

/-- The character that an escape of two characters stands for. -/
def escaped (c : Char) : Option Char :=
  match c with
  | '"' => some '"'
  | '\\' => some '\\'
  | '/' => some '/'
  | 'b' => some '\x08'
  | 'f' => some '\x0c'
  | 'n' => some '\n'
  | 'r' => some '\r'
  | 't' => some '\t'
  | _ => none

/-- Reads one character inside a string, other than the closing quotation mark. -/
def Pending.read (p : Pending) (c : Char) : Option Pending :=
  match p.escape with
  | .none =>
    if c = '\\' then some { p with escape := .started }
    else if c.toNat < 0x20 then none
    else some (p.addChar c)
  | .started =>
    if c = 'u' then some { p with escape := .digits 0 0 }
    else (escaped c).map p.addChar
  | .digits count value =>
    match hexValue c with
    | none => none
    | some d =>
      let value := value * 16 + d
      some (if count = 3 then p.addUnit value else { p with escape := .digits (count + 1) value })

/-- The string that has been read, or nothing if it is no text. -/
def Pending.text (p : Pending) : Option String :=
  if p.broken || p.half.isSome then none else some (String.ofList p.chars.reverse)

/-! ### Numbers being read -/

/-- How much of a number has been read. -/
inductive NumberPart where
  | sign
  | zero
  | whole
  | point
  | fraction
  | letter
  | exponentSign
  | exponent
  deriving DecidableEq

/-- A number that is being read: its digits, how many of them stand after the point,
and its exponent. -/
structure Numeral where
  part : NumberPart
  negative : Bool := false
  mantissa : Nat := 0
  decimals : Nat := 0
  exponentNegative : Bool := false
  exponent : Nat := 0

/-- The value of a decimal digit. -/
def digitValue (c : Char) : Option Nat :=
  if 48 ≤ c.toNat ∧ c.toNat ≤ 57 then some (c.toNat - 48) else none

/-- Reads one more character of a number, if it belongs to it. -/
def Numeral.read (n : Numeral) (c : Char) : Option Numeral :=
  match n.part, digitValue c with
  | .sign, some 0 => some { n with part := .zero }
  | .sign, some d => some { n with part := .whole, mantissa := d }
  | .whole, some d => some { n with mantissa := n.mantissa * 10 + d }
  | .point, some d | .fraction, some d =>
    some { n with part := .fraction, mantissa := n.mantissa * 10 + d, decimals := n.decimals + 1 }
  | .letter, some d | .exponentSign, some d | .exponent, some d =>
    some { n with part := .exponent, exponent := n.exponent * 10 + d }
  | .zero, none | .whole, none =>
    if c = '.' then some { n with part := .point }
    else if c = 'e' ∨ c = 'E' then some { n with part := .letter }
    else none
  | .fraction, none =>
    if c = 'e' ∨ c = 'E' then some { n with part := .letter } else none
  | .letter, none =>
    if c = '+' then some { n with part := .exponentSign }
    else if c = '-' then some { n with part := .exponentSign, exponentNegative := true }
    else none
  | _, _ => none

/-- The number that has been read, if it may end here. -/
def Numeral.value (n : Numeral) : Option Json :=
  let power : Int := if n.exponentNegative then -n.exponent else n.exponent
  match n.part with
  | .zero | .whole => some (if n.negative then .real n.mantissa 0 else .nat n.mantissa)
  | .fraction | .exponent => some (.real n.mantissa (power - n.decimals))
  | _ => none

/-! ### The machine -/

/-- An array or object around the current place. What it holds so far is kept in
reverse, or not at all once the name of a member is no text. -/
inductive Frame where
  | array (done : List Json)
  | object (done : Option (List (String × Json)))
  | member (done : Option (List (String × Json))) (name : Option String)

/-- What may follow at the current place. -/
inductive Mode where
  /-- A value. -/
  | value
  /-- The first item of an array, or its end. -/
  | firstItem
  /-- The first member of an object, or its end. -/
  | firstMember
  /-- The name of a member. -/
  | name
  /-- The colon after a name. -/
  | colon
  /-- What follows a value. -/
  | after (value : Json)
  | string (pending : Pending)
  | nameString (pending : Pending)
  | number (numeral : Numeral)
  /-- The rest of the word for a value. -/
  | word (rest : List Char) (value : Json)

/-- The machine: the enclosing arrays and objects, innermost first, and the mode. -/
structure Reader where
  stack : List Frame
  mode : Mode

def isSpace (c : Char) : Bool :=
  c == ' ' || c == '\n' || c == '\r' || c == '\t'

/-- Begins a value with the character `c`. -/
def beginValue (stack : List Frame) (c : Char) : Option Reader :=
  match c with
  | '"' => some ⟨stack, .string {}⟩
  | '[' => some ⟨.array [] :: stack, .firstItem⟩
  | '{' => some ⟨.object (some []) :: stack, .firstMember⟩
  | 'n' => some ⟨stack, .word ['u', 'l', 'l'] .null⟩
  | 't' => some ⟨stack, .word ['r', 'u', 'e'] (.bool true)⟩
  | 'f' => some ⟨stack, .word ['a', 'l', 's', 'e'] (.bool false)⟩
  | '-' => some ⟨stack, .number { part := .sign, negative := true }⟩
  | _ => (Numeral.read { part := .sign } c).map fun n => ⟨stack, .number n⟩

/-- The members of an object with one more. -/
def addMember (done : Option (List (String × Json))) (name : Option String) (value : Json) :
    Option (List (String × Json)) :=
  match done, name with
  | some members, some name => some ((name, value) :: members)
  | _, _ => none

/-- The value of an object whose members have been read. -/
def objectValue (done : Option (List (String × Json))) : Json :=
  match done with
  | some members => .obj members.reverse
  | none => .unreadable

/-- Goes on after a value with the character `c`. -/
def afterValue (stack : List Frame) (value : Json) (c : Char) : Option Reader :=
  if isSpace c then some ⟨stack, .after value⟩
  else match stack with
    | .array done :: outer =>
      if c = ',' then some ⟨.array (value :: done) :: outer, .value⟩
      else if c = ']' then some ⟨outer, .after (.arr (value :: done).reverse)⟩
      else none
    | .member done name :: outer =>
      if c = ',' then some ⟨.object (addMember done name value) :: outer, .name⟩
      else if c = '}' then some ⟨outer, .after (objectValue (addMember done name value))⟩
      else none
    | _ => none

/-- Reads one character. -/
def Reader.step (r : Reader) (c : Char) : Option Reader :=
  match r.mode with
  | .value => if isSpace c then some r else beginValue r.stack c
  | .firstItem =>
    if isSpace c then some r
    else if c = ']' then
      match r.stack with
      | .array _ :: outer => some ⟨outer, .after (.arr [])⟩
      | _ => none
    else beginValue r.stack c
  | .firstMember =>
    if isSpace c then some r
    else if c = '}' then
      match r.stack with
      | .object _ :: outer => some ⟨outer, .after (.obj [])⟩
      | _ => none
    else if c = '"' then some ⟨r.stack, .nameString {}⟩
    else none
  | .name =>
    if isSpace c then some r
    else if c = '"' then some ⟨r.stack, .nameString {}⟩
    else none
  | .colon =>
    if isSpace c then some r
    else if c = ':' then some ⟨r.stack, .value⟩
    else none
  | .after value => afterValue r.stack value c
  | .string p =>
    if p.escape = .none ∧ c = '"' then
      some ⟨r.stack, .after (match p.text with | some s => .str s | none => .unreadable)⟩
    else (p.read c).map fun p => ⟨r.stack, .string p⟩
  | .nameString p =>
    if p.escape = .none ∧ c = '"' then
      match r.stack with
      | .object done :: outer => some ⟨.member done p.text :: outer, .colon⟩
      | _ => none
    else (p.read c).map fun p => ⟨r.stack, .nameString p⟩
  | .number n =>
    match n.read c with
    | some n => some ⟨r.stack, .number n⟩
    | none =>
      match n.value with
      -- A leading zero is not followed by a digit.
      | some value => if (digitValue c).isSome then none else afterValue r.stack value c
      | none => none
  | .word rest value =>
    match rest with
    | [] => none
    | [d] => if c = d then some ⟨r.stack, .after value⟩ else none
    | d :: rest => if c = d then some ⟨r.stack, .word rest value⟩ else none

/-- Reads a text to its end. -/
def Reader.run (r : Reader) : List Char → Option Reader
  | [] => some r
  | c :: cs =>
    match r.step c with
    | some r => r.run cs
    | none => none

/-- The value of a text that has been read to its end. -/
def Reader.result (r : Reader) : Option Json :=
  match r.stack, r.mode with
  | [], .after value => some value
  | [], .number n => n.value
  | _, _ => none

/-- The value of a JSON text, or nothing if it is none. -/
def parse (s : String) : Option Json :=
  match Reader.run ⟨[], .value⟩ s.toList with
  | some r => r.result
  | none => none

end ProtocolInference.Json
