import CommittedChoice.Config.Search
import CommittedChoice.Settings
import CommittedChoice.Text.LowerCase

/-!
# Configuration

Settings come from three layers over the defaults: a file, the environment, and what the program sets. They are put
together when they are first read and kept until the program changes or resets its own layer; the file is read once
until a reset.

- `current`: the settings, with the warnings that reading them gives rise to;
- `set`, `reset`: the program's own layer;
- `environmentLayer`: the variables with the project's name in front.
-/

namespace CommittedChoice

/-! ## The environment -/

namespace Environment

/-- The natural number that digits write. -/
def digitsValue (cs : List Char) : Nat := cs.foldl (fun n c => 10 * n + (c.toNat - 48)) 0

/-- The value of a variable: a truth value, a number or a text. -/
def value (s : String) : Value :=
  if s = "1" ∨ s = "true" then .bool true
  else if s = "0" ∨ s = "false" ∨ s = "" then .bool false
  else if s.toList.all Char.isDigit then .number (.ofNat (digitsValue s.toList))
  else .text s

/-- The key of a variable that has the project's name in front. -/
def key? (name : String) : Option String :=
  let mark := "PLEDGE_".toList
  let cs := name.toList
  if mark.isPrefixOf cs then some (Text.lower (String.ofList (cs.drop mark.length))) else none

/-- Gives a variable a value. A variable that has one keeps its place. -/
def assign (name value : String) : List (String × String) → List (String × String)
  | [] => [(name, value)]
  | v :: vs => if v.1 = name then (name, value) :: vs else v :: assign name value vs

/-- The variables after a list of assignments. Names and values are kept as they are given. -/
def assigned (assignments : List (String × String)) : List (String × String) :=
  assignments.foldl (fun vs a => assign a.1 a.2 vs) []

/-- The fields that the environment gives. Of two variables with one key the later one counts, and a key that names the
parent of a record is lost. -/
def fields (assignments : List (String × String)) : List (String × Value) :=
  (assigned assignments).foldl
    (fun done v =>
      match key? v.1 with
      | some key => if key = "__proto__" then done else Fields.set done key (value v.2)
      | none => done)
    []

end Environment

/-! ## Layers -/

/-- What configuration is read from: the variables, the files of the working directory, and what searches among them. -/
structure Surroundings where
  assignments : List (String × String) := []
  files : List (String × String) := []
  explorer : Config.Explorer := fun _ _ => .nothing

/-- What the search for a file comes to. -/
def Surroundings.found (s : Surroundings) : Config.Found := s.explorer s.files Config.places

/-- The configuration and what has been read of it. -/
structure Config where
  /-- The file's layer and the file's path, once it was looked for. -/
  file : Option (Layer × Option String) := none
  overrides : Layer := {}
  /-- The settings, if nothing changed since they were put together. -/
  resolved : Option Settings := none

namespace Config

/-- A warning of the configuration. -/
def warning (message : String) : Line := Line.of "config" .warn message

/-- The warning of a file that cannot be used, with the text of the error. -/
def unloaded (error : String) : Line := warning ("failed to load config file: " ++ error)

/-- The layer of the file, its path, and the warnings it gives rise to. -/
def fileLayer (s : Surroundings) : List Line × Layer × Option String :=
  match s.found with
  | .nothing => ([], {}, none)
  | .failed error => ([unloaded error], {}, none)
  | .file path v isEmpty =>
    if isEmpty then ([], {}, none)
    else
      match Layer.ofValue path v with
      | (lines, .ok layer) => (lines, layer, some path)
      | (lines, .error e) => (lines ++ [unloaded (e.kind ++ ": " ++ e.message)], {}, some path)

/-- The layer of the environment and the warnings it gives rise to. -/
def environmentLayer (s : Surroundings) : List Line × Layer :=
  match Layer.read "environment" {} (Environment.fields s.assignments) with
  | (lines, .ok layer) => (lines, layer)
  | (lines, .error _) => (lines, {})

/-- The settings, read anew if something changed. -/
def current (s : Surroundings) (c : Config) : List Line × Settings × Config :=
  match c.resolved with
  | some settings => ([], settings, c)
  | none =>
    let (fileLines, file) : List Line × (Layer × Option String) :=
      match c.file with
      | some file => ([], file)
      | none => fileLayer s
    let (lines, environment) := environmentLayer s
    let settings := ((({} : Settings).over file.1).over environment).over c.overrides
    (fileLines ++ lines, settings, { c with file := some file, resolved := some settings })

/-- Puts a value on top of the program's own layer. -/
def set (v : Value) (c : Config) : List Line × Except Fault Config :=
  match Layer.ofValue "config.set()" v with
  | (lines, .ok layer) => (lines, .ok { c with overrides := layer.over c.overrides, resolved := none })
  | (lines, .error e) => (lines, .error e)

/-- Forgets everything. -/
def reset : Config := {}

/-- The path of the file in use. -/
def path (c : Config) : Option String := c.file.bind (·.2)

end Config

/-- A setting by its name. The settings are a record, and have what every record has. -/
def Settings.get (s : Settings) (key : String) : Value :=
  match key with
  | "trace" => .bool s.trace
  | "indent" => .nat s.indent
  | "log" => .text s.log.name
  | key => (Fields.shared? key).getD .absent

end CommittedChoice
