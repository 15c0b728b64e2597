import Ilang.Assembly
import Ilang.Json.Reader
/-!
# Configuration

Settings for compiling a file. They are read from a JSON object, in which fields may be missing, or
from an array of the values in the order of the fields, which may be cut short.
-/
namespace Ilang

/-- How diagnostics are shown. -/
inductive ReportFormat where
  | text
  | json
deriving DecidableEq, Repr, Inhabited

namespace ReportFormat

/-- The name of a format. -/
def name : ReportFormat → String
  | text => "text"
  | json => "json"

/-- The format with a name. -/
def ofName? (s : String) : Option ReportFormat :=
  match s with
  | "text" => some text
  | "json" => some json
  | _ => none

/-- The format that a JSON value stands for: its name, or an object with the name as its only key
and nothing as its value. -/
def ofJson? : Json → Option ReportFormat
  | .object [(key, .null)] => do ofName? (← Json.unescape? key)
  | j => do ofName? (← j.text?)

end ReportFormat

/-- The settings for compiling a file. -/
structure Config where
  generation : GenOptions := {}
  format : ReportFormat := .text
deriving DecidableEq, Repr, Inhabited

namespace Config

/-- Settings of which some are given. -/
structure Given where
  entryPoint : Option String := none
  requireEntryPoint : Option Bool := none
  comments : Option Bool := none
  format : Option ReportFormat := none
deriving DecidableEq, Repr

/-- Given settings with the usual ones for the rest. -/
def Given.complete (g : Given) : Config :=
  let usual : Config := {}
  { generation := {
      entryPoint := g.entryPoint.getD usual.generation.entryPoint
      requireEntryPoint := g.requireEntryPoint.getD usual.generation.requireEntryPoint
      comments := g.comments.getD usual.generation.comments }
    format := g.format.getD usual.format }

/-- The truth value that a JSON value is. -/
def bool? : Json → Option Bool
  | .bool b => some b
  | _ => none

/-- A value for a setting that must not have one yet. -/
def once {α : Type} (old new : Option α) : Option (Option α) :=
  match old, new with
  | none, some a => some (some a)
  | _, _ => none

/-- Takes one field into account. Unknown fields do not matter. -/
def Given.field (g : Given) (key : String) (value : Json) : Option Given :=
  match key with
  | "entry_point" => do return { g with entryPoint := ← once g.entryPoint value.text? }
  | "require_entry_point" => do
    return { g with requireEntryPoint := ← once g.requireEntryPoint (bool? value) }
  | "emit_comments" => do return { g with comments := ← once g.comments (bool? value) }
  | "diagnostic_format" => do
    return { g with format := ← once g.format (ReportFormat.ofJson? value) }
  | _ => some g

/-- The names of the fields, in the order in which an array gives them. -/
def fieldNames : List String :=
  ["entry_point", "require_entry_point", "emit_comments", "diagnostic_format"]

/-- The settings that fields give. -/
def ofFields (fields : List (String × Json)) : Option Given :=
  fields.foldlM (fun g (key, value) => do g.field (← Json.unescape? key) value) {}

/-- The settings that a list of values gives. -/
def ofItems (items : List Json) : Option Given :=
  if items.length ≤ fieldNames.length then
    (fieldNames.zip items).foldlM (fun g (key, value) => g.field key value) {}
  else none

/-- The settings that a JSON value stands for. -/
def ofJson? : Json → Option Config
  | .object fields => (ofFields fields).map Given.complete
  | .array items => (ofItems items).map Given.complete
  | _ => none

/-- The settings that a text gives. -/
def parse? (s : String) : Option Config := do ofJson? (← Json.parse? s)

/-- Settings with those replaced that a command line gives. -/
def override (c : Config) (entry : Option String) (noComments : Bool)
    (format : Option ReportFormat) : Config :=
  { generation := { c.generation with
      entryPoint := entry.getD c.generation.entryPoint
      comments := c.generation.comments && !noComments }
    format := format.getD c.format }

end Config

end Ilang
