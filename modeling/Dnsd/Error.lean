import Dnsd.Rust.Exec

/-! The crate's error type. The payload of each variant is the text it shows. -/

namespace Dnsd

/-- The errors of the program, each with the text that it carries. -/
inductive Error where
  | parse (msg : String)
  | encode (msg : String)
  | resolver (msg : String)
  | io (msg : String)
  | db (msg : String)
  | redis (msg : String)
  | config (msg : String)
  | tls (msg : String)
  deriving DecidableEq, Repr

/-- The text that an error is displayed as. -/
def Error.text : Error → String
  | .parse msg => "dns parse error: " ++ msg
  | .encode msg => "dns encode error: " ++ msg
  | .resolver msg => "resolver error: " ++ msg
  | .io msg => "io error: " ++ msg
  | .db msg => "database error: " ++ msg
  | .redis msg => "redis error: " ++ msg
  | .config msg => "config error: " ++ msg
  | .tls msg => "tls error: " ++ msg

/-- `Result<T>` of the crate, with unwinding as a third outcome. -/
abbrev Result (α : Type) := Exec Error α

end Dnsd
