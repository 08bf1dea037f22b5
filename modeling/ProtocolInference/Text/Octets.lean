/-!
# Texts as octets

The octets of a text are those of its UTF-8 form. A sequence of octets is kept as a
text too, in which every octet is the character with its number. Octets that are not
the UTF-8 form of a text still are one to read: every longest run of octets that
starts a character and does not complete it counts as one replacement character.
-/

namespace ProtocolInference.Text

/-- The octets of the UTF-8 form of a text. -/
def octets (s : String) : String :=
  String.ofList (s.toUTF8.toList.map fun b => Char.ofNat b.toNat)

/-- A character of which some octets have been read: the number that they make, how many
octets are owed, and the least and the greatest number that the next one may have. -/
structure Started where
  value : Nat
  owed : Nat
  least : Nat := 0x80
  greatest : Nat := 0xBF

/-- What the first octet of a character of several octets starts. -/
def Started.ofOctet (n : Nat) : Option Started :=
  if 0xC2 ≤ n ∧ n ≤ 0xDF then some { value := n - 0xC0, owed := 1 }
  else if n = 0xE0 then some { value := 0, owed := 2, least := 0xA0 }
  else if n = 0xED then some { value := 0xD, owed := 2, greatest := 0x9F }
  else if 0xE1 ≤ n ∧ n ≤ 0xEF then some { value := n - 0xE0, owed := 2 }
  else if n = 0xF0 then some { value := 0, owed := 3, least := 0x90 }
  else if 0xF1 ≤ n ∧ n ≤ 0xF3 then some { value := n - 0xF0, owed := 3 }
  else if n = 0xF4 then some { value := 4, owed := 3, greatest := 0x8F }
  else none

/-- Reads the octets that are owed: the character that they complete, if they do, and the
octets after it. -/
def Started.complete (s : Started) : List Char → Option Char × List Char
  | [] => (none, [])
  | c :: cs =>
    if c.toNat < s.least ∨ s.greatest < c.toNat then (none, c :: cs)
    else
      let value := s.value * 64 + (c.toNat - 0x80)
      if s.owed ≤ 1 then (some (Char.ofNat value), cs)
      else complete { value, owed := s.owed - 1 } cs

/-- Reading owed octets leaves no more octets than there were. -/
theorem Started.length_complete_le (s : Started) (cs : List Char) :
    (s.complete cs).2.length ≤ cs.length := by
  induction cs generalizing s with
  | nil => simp [complete]
  | cons c cs ih =>
    simp only [complete]
    split
    · simp
    · split
      · simp
      · have := ih { value := s.value * 64 + (c.toNat - 0x80), owed := s.owed - 1 }
        simp only [List.length_cons]
        omega

/-- The characters of octets; nothing stands for octets that complete no character. -/
def characters : List Char → List (Option Char)
  | [] => []
  | c :: cs =>
    if c.toNat < 0x80 then some c :: characters cs
    else match Started.ofOctet c.toNat with
      | none => none :: characters cs
      | some s => (s.complete cs).1 :: characters (s.complete cs).2
termination_by cs => cs.length
decreasing_by
  · simp
  · simp
  · have := s.length_complete_le cs
    simp only [List.length_cons]
    omega

/-- The text of octets, with replacement characters where they are the form of none. -/
def ofOctets (s : String) : String :=
  String.ofList ((characters s.toList).map fun c => c.getD '\ufffd')

/-- The text of octets, if they are the form of one. -/
def ofOctets? (s : String) : Option String :=
  ((characters s.toList).mapM id).map String.ofList

end ProtocolInference.Text
