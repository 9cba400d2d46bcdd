/-!
# TOML tables

The part of TOML that settings are written in: strings, arrays and tables. A table may be stated
in several places of a document. `Origin` records how a table came to be, because that decides
which later lines may add to it.
-/

namespace AtomicCss

namespace Toml

/-- How a table came to be. -/
inductive Origin where
  /-- As a table on the way to one with a header. -/
  | implied
  /-- By a dotted key. -/
  | dotted
  /-- By its own header. -/
  | stated
  /-- As a value in braces, which is complete. -/
  | inline
  deriving DecidableEq, Repr

end Toml

/-- A value. -/
inductive Toml where
  | string (text : String)
  | array (items : List Toml)
  | table (origin : Toml.Origin) (entries : List (String × Toml))

namespace Toml

/-- The entries of a table, in order; keys do not repeat. -/
abbrev Entries := List (String × Toml)

def replace (key : String) (v : Toml) (entries : Entries) : Entries :=
  entries.map fun e => if e.1 = key then (key, v) else e

/-- Sets a dotted key, `path` being the part in front of its last dot. A dotted key adds to tables
that dotted keys have made, passes through implied ones, and never sets a value twice. -/
def assign : (path : List String) → (key : String) → Toml → Entries → Option Entries
  | [], key, v, entries =>
    if (entries.lookup key).isSome then none else some (entries ++ [(key, v)])
  | p :: path, key, v, entries =>
    match entries.lookup p with
    | none => (assign path key v []).map fun inner => entries ++ [(p, .table .dotted inner)]
    | some (.table origin inner) =>
      if origin = .dotted || (origin = .implied && !path.isEmpty) then
        (assign path key v inner).map fun inner => replace p (.table origin inner) entries
      else none
    | some _ => none

/-- States the table of a header. Only an implied table may be there already. -/
def state : (path : List String) → Entries → Option Entries
  | [], _ => none
  | [key], entries =>
    match entries.lookup key with
    | none => some (entries ++ [(key, .table .stated [])])
    | some (.table .implied inner) => some (replace key (.table .stated inner) entries)
    | some _ => none
  | p :: path, entries =>
    match entries.lookup p with
    | none => (state path []).map fun inner => entries ++ [(p, .table .implied inner)]
    | some (.table origin inner) =>
      if origin = .inline then none
      else (state path inner).map fun inner => replace p (.table origin inner) entries
    | some _ => none

/-- Changes the entries of the table under a header. -/
def within (f : Entries → Option Entries) : (path : List String) → Entries → Option Entries
  | [], entries => f entries
  | p :: path, entries =>
    match entries.lookup p with
    | some (.table origin inner) =>
      (within f path inner).map fun inner => replace p (.table origin inner) entries
    | _ => none

end Toml

end AtomicCss
