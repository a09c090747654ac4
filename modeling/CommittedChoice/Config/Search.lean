import CommittedChoice.Value

/-!
# The search for configuration files

Files are looked for by an explorer, which this library does not contain: it is told the names of the places, the most
important one first, and gives one result. Reading a file in its format, and running one that is a program, is part of it.

- `places`: the files that are looked for, in this order;
- `Found`, `Explorer`: what a search comes to, and what searches;
- `Entry`, `first`: what there is in one place, and the first place that is not silent.
-/

namespace CommittedChoice.Config

/-- The files that are looked for, in this order. -/
def places : List String :=
  ["package.json", ".pledgerc", ".pledgerc.json", ".pledgerc.yaml", ".pledgerc.yml", "pledge.config.js",
    "pledge.config.cjs"]

/-- What a search for a file comes to: nothing, an error with its text, or a value with the path of its file. -/
inductive Found where
  | nothing
  | failed (error : String)
  | file (path : String) (v : Value) (isEmpty : Bool)

/-- What searches among the files of the working directory, given with their texts, for places in an order. -/
abbrev Explorer := List (String × String) → List String → Found

/-- What there is in one place: nothing to read, something that cannot be read, or a value. -/
inductive Entry where
  | silent
  | broken (error : String)
  | holds (path : String) (v : Value)

/-- The first place that is not silent. One that cannot be read ends the search. -/
def first (entry : String → Entry) : List String → Found
  | [] => .nothing
  | place :: rest =>
    match entry place with
    | .silent => first entry rest
    | .broken error => .failed error
    | .holds path v => .file path v false

end CommittedChoice.Config
