import ProtocolInference.Decimal.Magnitude
import ProtocolInference.Toml.Basic

/-!
# Values without delimiters

Truth values, numbers and points in time are single words. Underscores may stand
between digits, integers may be hexadecimal, octal or binary, and a decimal number does
not start with a needless zero.
-/

namespace ProtocolInference.Toml

/-- A character that such a word may hold. -/
def isWordChar (c : Char) : Bool :=
  c.isAlphanum || c == '_' || c == '-' || c == '+' || c == '.' || c == ':'

/-- The value of a digit of the given base. -/
def digitOf (base : Nat) (c : Char) : Option Nat :=
  let n := c.toNat
  let d :=
    if 48 ≤ n ∧ n ≤ 57 then n - 48
    else if 97 ≤ n ∧ n ≤ 102 then n - 87
    else if 65 ≤ n ∧ n ≤ 70 then n - 55
    else base
  if d < base then some d else none

/-- The digits of a word with underscores between digits only. -/
def digits (base : Nat) : List Char → Option (List Nat)
  | [] => none
  | [c] => (digitOf base c).map ([·])
  | c :: '_' :: d :: rest => do
    let first ← digitOf base c
    pure (first :: (← digits base (d :: rest)))
  | c :: d :: rest => do
    let first ← digitOf base c
    pure (first :: (← digits base (d :: rest)))

/-- The number that digits stand for. -/
def valueOf (base : Nat) (ds : List Nat) : Nat :=
  ds.foldl (fun n d => n * base + d) 0

/-- The digits of a decimal number before its point, without a needless zero. -/
def wholeDigits (cs : List Char) : Option (List Nat) :=
  match digits 10 cs with
  | some (0 :: _ :: _) => none
  | other => other

/-- An integer that fits 128 bits. -/
def boundedInt (n : Int) : Option Toml :=
  if -0x80000000000000000000000000000000 ≤ n ∧ n < 0x100000000000000000000000000000000 then
    some (.int n)
  else none

/-- The sign of a word, and the rest. -/
def splitSign : List Char → Bool × List Char
  | '-' :: cs => (true, cs)
  | '+' :: cs => (false, cs)
  | cs => (false, cs)

/-- An integer. -/
def intOf (cs : List Char) : Option Toml :=
  match cs with
  | '0' :: 'x' :: ds => (digits 16 ds).bind fun ds => boundedInt (valueOf 16 ds)
  | '0' :: 'o' :: ds => (digits 8 ds).bind fun ds => boundedInt (valueOf 8 ds)
  | '0' :: 'b' :: ds => (digits 2 ds).bind fun ds => boundedInt (valueOf 2 ds)
  | _ =>
    let (negative, ds) := splitSign cs
    (wholeDigits ds).bind fun ds =>
      let n : Int := valueOf 10 ds
      boundedInt (if negative then -n else n)

/-- An exponent with its sign. -/
def exponentOf (cs : List Char) : Option Int :=
  let (negative, ds) := splitSign cs
  (digits 10 ds).map fun ds =>
    let n : Int := valueOf 10 ds
    if negative then -n else n

/-- A number with a fraction, an exponent or both. It has to be finite. -/
def floatOf (cs : List Char) : Option Toml := do
  let (_, cs) := splitSign cs
  if cs = ['i', 'n', 'f'] ∨ cs = ['n', 'a', 'n'] then return .float
  let whole := cs.takeWhile fun c => c ≠ '.' ∧ c ≠ 'e' ∧ c ≠ 'E'
  let rest := cs.drop whole.length
  let wholeDs ← wholeDigits whole
  let (fraction, power) ← match rest with
    | '.' :: rest =>
      let fraction := rest.takeWhile fun c => c ≠ 'e' ∧ c ≠ 'E'
      let fractionDs ← digits 10 fraction
      match rest.drop fraction.length with
      | [] => some (fractionDs, (0 : Int))
      | _ :: power => (exponentOf power).map (fractionDs, ·)
    | _ :: power => (exponentOf power).map ([], ·)
    | [] => none
  let mantissa := valueOf 10 (wholeDs ++ fraction)
  if Decimal.isFinite mantissa (power - fraction.length) then some .float else none

/-! ### Points in time -/

/-- The number that exactly the given number of digits stand for, and the rest. -/
def fixedDigits (count : Nat) (cs : List Char) : Option (Nat × List Char) := do
  let ds ← (cs.take count).mapM (digitOf 10)
  if ds.length = count then some (valueOf 10 ds, cs.drop count) else none

/-- The rest after the given character. -/
def expect (c : Char) : List Char → Option (List Char)
  | d :: rest => if d = c then some rest else none
  | [] => none

/-- The number of days of a month. -/
def daysOf (year month : Nat) : Nat :=
  if month = 2 then
    if year % 4 = 0 ∧ (year % 100 ≠ 0 ∨ year % 400 = 0) then 29 else 28
  else if month = 4 ∨ month = 6 ∨ month = 9 ∨ month = 11 then 30
  else 31

/-- A date at the start of the word, and the rest. -/
def dateRest (cs : List Char) : Option (List Char) := do
  let (year, cs) ← fixedDigits 4 cs
  let (month, cs) ← fixedDigits 2 (← expect '-' cs)
  let (day, cs) ← fixedDigits 2 (← expect '-' cs)
  if 1 ≤ month ∧ month ≤ 12 ∧ 1 ≤ day ∧ day ≤ daysOf year month then some cs else none

/-- The rest after the seconds of a time and their fraction. -/
def secondsRest (cs : List Char) : Option (List Char) := do
  let (second, cs) ← fixedDigits 2 cs
  if 60 < second then none
  else match cs with
    | '.' :: rest =>
      let after := rest.dropWhile fun c => (digitOf 10 c).isSome
      if after.length = rest.length then none else some after
    | _ => some cs

/-- A time of day at the start of the word, which may have no seconds, and the rest. -/
def timeRest (cs : List Char) : Option (List Char) := do
  let (hour, cs) ← fixedDigits 2 cs
  let (minute, cs) ← fixedDigits 2 (← expect ':' cs)
  if 23 < hour ∨ 59 < minute then none
  else match cs with
    | ':' :: rest => secondsRest rest
    | _ => some cs

/-- Whether the word is the offset of a time zone. -/
def isOffset : List Char → Bool
  | ['Z'] | ['z'] => true
  | sign :: cs =>
    (sign == '+' || sign == '-') &&
      match (do
        let (hour, cs) ← fixedDigits 2 cs
        let (minute, cs) ← fixedDigits 2 (← expect ':' cs)
        some (decide (hour ≤ 23 ∧ minute ≤ 59 ∧ cs = [])) : Option Bool) with
      | some ok => ok
      | none => false
  | [] => false

/-- A date, a time of day, or both, in which case an offset may follow. -/
def timeOf (cs : List Char) : Option Toml :=
  match dateRest cs with
  | some [] => some .time
  | some (separator :: rest) =>
    if separator = 'T' ∨ separator = 't' ∨ separator = ' ' then
      match timeRest rest with
      | some [] => some .time
      | some offset => if isOffset offset then some .time else none
      | none => none
    else none
  | none => if timeRest cs = some [] then some .time else none

/-- The value of a word. -/
def scalarOf (cs : List Char) : Option Toml :=
  if cs = ['t', 'r', 'u', 'e'] then some (.bool true)
  else if cs = ['f', 'a', 'l', 's', 'e'] then some (.bool false)
  else (intOf cs).orElse fun _ => (floatOf cs).orElse fun _ => timeOf cs

end ProtocolInference.Toml
