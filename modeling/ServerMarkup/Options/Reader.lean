/-
# Options from a JSON text

The options are written as an object whose fields have the names of the settings; a field that is
missing leaves the default, a field of another name is passed over, and a setting may be given once.
An array gives the settings in order, and may end early.  All settings are strings but
`defaultNamespace`, which may also be `null`, and `defaultImports`, which is an array of strings.
-/

import ServerMarkup.Json.Reader
import ServerMarkup.Options

namespace ServerMarkup
namespace Options

/-- The names of the settings, in order. -/
def settingNames : List String :=
  ["defaultNamespace", "pageBaseType", "controlBaseType", "htmlControlsNamespace",
    "genericHtmlControl", "webControlsPrefix", "webControlsNamespace", "defaultImports"]

/-- The options with one setting changed; nothing, if the value is not of its kind. -/
def set? (o : Options) (name : String) (v : JsonValue) : Option Options :=
  match name with
  | "defaultNamespace" =>
    match v with
    | .null => some { o with defaultNamespace := none }
    | _ => v.text?.map fun s => { o with defaultNamespace := some s }
  | "pageBaseType" => v.text?.map fun s => { o with pageBaseType := s }
  | "controlBaseType" => v.text?.map fun s => { o with controlBaseType := s }
  | "htmlControlsNamespace" => v.text?.map fun s => { o with htmlControlsNamespace := s }
  | "genericHtmlControl" => v.text?.map fun s => { o with genericHtmlControl := s }
  | "webControlsPrefix" => v.text?.map fun s => { o with webControlsPrefix := s }
  | "webControlsNamespace" => v.text?.map fun s => { o with webControlsNamespace := s }
  | "defaultImports" => v.texts?.map fun ss => { o with defaultImports := ss }
  | _ => some o

/-- The options that fields make, one setting after the other. -/
def ofFields? : (o : Options) → List (String × JsonValue) → Option Options
  | o, [] => some o
  | o, (name, v) :: fields => do ofFields? (← o.set? name v) fields

/-- The options that a JSON value stands for. -/
def ofJson? : JsonValue → Option Options
  | .object fields => do
    let named ← fields.mapM fun (name, v) => name.map (·, v)
    let known := (named.map Prod.fst).filter settingNames.contains
    guard (known.length = known.eraseDups.length)
    standard.ofFields? named
  | .array items => do
    guard (items.length ≤ settingNames.length)
    standard.ofFields? (settingNames.zip items)
  | _ => none

/-- The options that a JSON text stands for. -/
def ofText? (text : String) : Option Options := do
  ofJson? (← JsonValue.ofText? text)

end Options

end ServerMarkup
