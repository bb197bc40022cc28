/-
  TOML values.

  Numbers with a fraction and dates are kept as they are
  written. A table remembers how it came to be, because that
  decides whether later lines may still add to it.

  Key definitions include:
    * `LightShow.Toml.Origin`
    * `LightShow.Toml.Value`
    * `LightShow.Toml.Table`
    * `LightShow.Toml.Value.kind`
-/

namespace LightShow

namespace Toml

/- How a table came to be. -/
inductive Origin where
  /- By a header of its own. -/
  | header
  /- On the way to the table of a header. -/
  | implied
  /- On the way to the value of a dotted key. -/
  | dotted
  /- By braces. -/
  | braces
deriving DecidableEq, Repr

/- The values of a document. -/
inductive Value where
  | string (text : String)
  | integer (value : Int)
  | float (literal : String)
  | boolean (value : Bool)
  | datetime (literal : String)
  | array (items : List Value)
  | table
      (origin : Origin)
      (entries : List (String × Value))
  /- The tables of double headers, the open one apart. -/
  | tables
      (closed : List (List (String × Value)))
      (current : List (String × Value))

/- Keys with their values, in the order of writing. -/
abbrev Table := List (String × Value)

namespace Value

/- The name of the type of a value. -/
def kind : Value → String
  | .string _ => "string"
  | .integer _ => "integer"
  | .float _ => "float"
  | .boolean _ => "boolean"
  | .datetime _ => "datetime"
  | .array _ => "array"
  | .table _ _ => "table"
  | .tables _ _ => "array"

end Value

end Toml

end LightShow
