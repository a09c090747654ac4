import CommittedChoice.Config.Search
import CommittedChoice.Config.Yaml.Basic

/-!
# An explorer for configuration files

The explorer that a program runs with. A place is silent if there is no file, if the file is blank, or if it says nothing;
the project's own file is silent without the field of the project.

- `Format`: written texts, indented texts, and programs;
- `entry`: what there is in a place; `explore`: the places one after the other.

What running a program gives is left open, and so is the text of an error. Indented texts are read as far as
`Yaml.read?` goes: tags other than those of its kinds are refused, and a date is a text.
-/

namespace CommittedChoice.Config

/-- How a file is read. -/
inductive Format where
  /-- One field of a written record. -/
  | keyed (key : String)
  | written
  | indented
  /-- A program, for what it exports. -/
  | program

/-- The format of a place. -/
def Format.ofPlace : String → Format
  | "package.json" => .keyed "pledge"
  | ".pledgerc.json" => .written
  | "pledge.config.js" | "pledge.config.cjs" => .program
  | _ => .indented

/-- The value of a file, if it can be read. Nothing at all has no field. -/
def Format.read? (run : String → Option Value) (f : Format) (s : String) : Option Value :=
  match f with
  | .keyed key =>
    (Json.read? s).bind fun
      | .null => none
      | v => some ((v.field? key).getD .absent)
  | .written => Json.read? s
  | .indented => Yaml.read? s
  | .program => run s

/-- The text of a file; of two files with one name the later one stands. -/
def textOf? (files : List (String × String)) (name : String) : Option String := files.reverse.lookup name

/-- What there is in a place. -/
def entry (run : String → Option Value) (files : List (String × String)) (place : String) : Entry :=
  match textOf? files place with
  | none => .silent
  | some s =>
    if s.toList.all Text.isBlank then .silent
    else
      match (Format.ofPlace place).read? run s with
      | none => .broken ""
      | some .null => .silent
      | some .absent => .silent
      | some v => .holds place v

/-- Looks at the places in their order. `run` is what running a program with a text exports, if it can be run. -/
def explore (run : String → Option Value) : Explorer := fun files => first (entry run files)

end CommittedChoice.Config
