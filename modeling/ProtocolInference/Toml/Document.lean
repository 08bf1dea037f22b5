import ProtocolInference.Toml.Basic

/-!
# Documents under construction

A document is built from its headers and key-value pairs in turn. How a table came to
be decides what may still be added to it: a table with a header of its own has that
header once, a table that was only named on the way to another may still get one, and
a table made by a dotted key can only grow by further dotted keys. Values, which include
inline tables and arrays, do not grow at all.
-/

namespace ProtocolInference.Toml

/-- How a table came to be. -/
inductive Origin where
  | header
  | headerPath
  | dotted
  deriving DecidableEq

/-- A part of a document. -/
inductive Entry where
  | value (v : Toml)
  | table (origin : Origin) (members : List (String × Entry))
  /-- The tables of an array of tables, last one first. -/
  | tables (elements : List (List (String × Entry)))
  deriving Inhabited

/-- The members of a table. -/
abbrev Members := List (String × Entry)

/-- Replaces the entry of a key, or adds one. -/
def Members.put (members : Members) (key : String) (entry : Entry) : Members :=
  if members.any (·.1 == key) then
    members.map fun (k, e) => if k == key then (k, entry) else (k, e)
  else members ++ [(key, entry)]

/-- Adds the table that a header names. -/
def declareTable (members : Members) : List String → Option Members
  | [] => none
  | [key] =>
    match members.lookup key with
    | none => some (members.put key (.table .header []))
    | some (.table .headerPath inner) => some (members.put key (.table .header inner))
    | some _ => none
  | key :: rest =>
    match members.lookup key with
    | none => do
      let inner ← declareTable [] rest
      pure (members.put key (.table .headerPath inner))
    | some (.table origin inner) => do
      let inner ← declareTable inner rest
      pure (members.put key (.table origin inner))
    | some (.tables (last :: others)) => do
      let last ← declareTable last rest
      pure (members.put key (.tables (last :: others)))
    | some _ => none

/-- Adds an element to the array of tables that a header names. -/
def declareElement (members : Members) : List String → Option Members
  | [] => none
  | [key] =>
    match members.lookup key with
    | none => some (members.put key (.tables [[]]))
    | some (.tables elements) => some (members.put key (.tables ([] :: elements)))
    | some _ => none
  | key :: rest =>
    match members.lookup key with
    | none => do
      let inner ← declareElement [] rest
      pure (members.put key (.table .headerPath inner))
    | some (.table origin inner) => do
      let inner ← declareElement inner rest
      pure (members.put key (.table origin inner))
    | some (.tables (last :: others)) => do
      let last ← declareElement last rest
      pure (members.put key (.tables (last :: others)))
    | some _ => none

/-- Adds a value under a dotted key to a table. `dotted` tells whether the table at hand
was made by a dotted key, which every table on the way to the last key has to be. -/
def assign (members : Members) (v : Toml) (dotted : Bool) : List String → Option Members
  | [] => none
  | [key] =>
    if dotted && (members.lookup key).isNone then some (members.put key (.value v)) else none
  | key :: rest =>
    match members.lookup key with
    | none => do
      let inner ← assign [] v true rest
      pure (members.put key (.table .dotted inner))
    | some (.table origin inner) =>
      if origin = .header then none
      else do
        let inner ← assign inner v (origin = .dotted) rest
        pure (members.put key (.table origin inner))
    | some (.tables (last :: others)) => do
      let last ← assign last v false rest
      pure (members.put key (.tables (last :: others)))
    | some _ => none

/-- Adds a value under a dotted key to the table of the last header. -/
def assignUnder (members : Members) (keys : List String) (v : Toml) : List String → Option Members
  | [] => assign members v true keys
  | key :: rest =>
    match members.lookup key with
    | some (.table origin inner) => do
      let inner ← assignUnder inner keys v rest
      pure (members.put key (.table origin inner))
    | some (.tables (last :: others)) => do
      let last ← assignUnder last keys v rest
      pure (members.put key (.tables (last :: others)))
    | _ => none

mutual
/-- A finished part of a document as a value. -/
def Entry.toToml : Entry → Toml
  | .value v => v
  | .table _ members => .table (membersToToml members)
  | .tables elements => .arr (elementsToToml elements).reverse
/-- The members of a finished table. -/
def membersToToml : List (String × Entry) → List (String × Toml)
  | [] => []
  | (key, entry) :: rest => (key, entry.toToml) :: membersToToml rest
/-- The elements of a finished array of tables. -/
def elementsToToml : List (List (String × Entry)) → List Toml
  | [] => []
  | members :: rest => .table (membersToToml members) :: elementsToToml rest
end

end ProtocolInference.Toml
