/-!
# TOML values

The values of TOML documents. Of a number with a fraction or exponent, and of a point
in time, only the kind is kept, because no format of this library has a use for one.
-/

namespace ProtocolInference

/-- A TOML value. -/
inductive Toml where
  | str (value : String)
  | int (value : Int)
  | float
  | bool (value : Bool)
  | time
  | arr (items : List Toml)
  | table (members : List (String × Toml))
  deriving Inhabited

end ProtocolInference
