/-!
# Failures

Every operation that can be refused returns a `Failure`, which names the cause and carries
the values that explain it. The wording is fixed by `Failure.message`.
-/
namespace PackedRatings

/-- The cause of a refused operation. -/
inductive Failure where
  | invalidArgument (name message : String)
  | invalidOperation (name : String)
  | invalidFormat (element message : String)
  | fileNotFound (path : String)
  | io (context source : String)
  | indexOutOfBounds (index length : Nat)
  | duplicateKey (key : Int64)
  | keyNotInDomain (key : Int64)
  | keyUnset (key : Int64)
  | frozen
  | closed
  | unknownEventType (name : String)
  deriving DecidableEq

namespace Failure

def message : Failure → String
  | invalidArgument name message => s!"invalid argument {name}: {message}"
  | invalidOperation name => s!"invalid operation {name}"
  | invalidFormat element message => s!"invalid storage format for '{element}': {message}"
  | fileNotFound path => s!"file not found: '{path}'"
  | io context source => s!"IO error for '{context}': {source}"
  | indexOutOfBounds index length => s!"index {index} out of bounds for length {length}"
  | duplicateKey key => s!"duplicate key {key.toInt}"
  | keyNotInDomain key => s!"key {key.toInt} is not in the key domain"
  | keyUnset key => s!"key {key.toInt} has no value"
  | frozen => "vector is frozen"
  | closed => "rating store is closed"
  | unknownEventType name => s!"unknown event type '{name}'"

def isLoadFailure : Failure → Bool
  | invalidFormat .. => true
  | _ => false

def isMissingFile : Failure → Bool
  | fileNotFound .. => true
  | _ => false

end Failure

end PackedRatings
