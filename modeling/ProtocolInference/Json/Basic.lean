/-!
# JSON values

The values of JSON texts. Natural numbers are kept as they are; of any other number
only its size is kept, because no format of this library has a use for one.
-/

namespace ProtocolInference

/-- A JSON value. Objects keep their members in the order of the text, also members
of the same name. -/
inductive Json where
  | null
  | bool (value : Bool)
  | nat (value : Nat)
  /-- A number with a sign, a fraction or an exponent. Its absolute value is the
  product of `mantissa` and a power of ten. -/
  | real (mantissa : Nat) (exponent : Int)
  | str (value : String)
  | arr (items : List Json)
  | obj (members : List (String × Json))
  /-- A value that contains, directly or as the name of a member, an escape of half a
  surrogate pair. It is no text and can only be skipped. -/
  | unreadable
  deriving Inhabited

namespace Json

/-- The values of all members of the given name. -/
def named (members : List (String × Json)) (name : String) : List Json :=
  (members.filter (·.1 == name)).map (·.2)

end Json

end ProtocolInference
