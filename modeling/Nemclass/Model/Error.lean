import Nemclass.Address.Token
import Nemclass.Model.Uuid

/-! The errors of the project model. -/
namespace Nemclass.Model

/-- A parse error is kept as what went wrong; `ParseFailure.text` is its message. -/
inductive ModelError where
  | classReferenced (name : String) (refCount : ℕ)
  | classNotFound (uuid : Uuid)
  | parseError (why : Address.ParseFailure)
  | resolveError (why : String)
  | serializeError (why : String)
  | deserializeError (why : String)
  | unknownNodeType (tag : String)
  | maxDepthExceeded (limit : ℕ)
deriving DecidableEq

end Nemclass.Model
