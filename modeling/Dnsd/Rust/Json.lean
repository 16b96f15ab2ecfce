import Dnsd.Rust.Text

/-! JSON values as serde_json gives them. -/

/-- `serde_json::Value`; of a number, what `as_u64` makes of it. -/
inductive Json where
  | null
  | bool (b : Bool)
  | number (asU64 : Option UInt64)
  | string (s : Str)
  | array (items : List Json)
  | object (fields : List (Str × Json))

namespace Json

/-- `Value::get`: the first field of this name in the order of the list, if the value is
an object. -/
def get (v : Json) (field : String) : Option Json :=
  match v with
  | .object fields => fields.lookup field.toList
  | _ => none

/-- `Value::as_str`: the text of a string, and nothing for any other value. -/
def asStr : Json → Option Str
  | .string s => some s
  | _ => none

/-- `Value::as_u64`. A number that is negative or no integer is none. -/
def asU64 : Json → Option UInt64
  | .number n => n
  | _ => none

end Json
