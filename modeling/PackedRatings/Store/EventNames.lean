import Std.Data.TreeMap
import PackedRatings.Requirement

/-!
# Names of events

Stores can be asked for events of a kind, and `EventNames` gives kinds their names. A name
is given once.
-/
namespace PackedRatings

/-- What users do with items. Rating files hold ratings only. -/
inductive Interaction where
  | rating
  | like
  | likeBatch
  deriving DecidableEq

namespace Interaction

def all : List Interaction := [rating, like, likeBatch]

def usualName : Interaction → String
  | rating => "rating"
  | like => "like"
  | likeBatch => "like-batch"

end Interaction

structure EventNames where
  kinds : Std.TreeMap String Interaction

namespace EventNames

def empty : EventNames := ⟨∅⟩

/-- Every kind under its default name. -/
def defaults : EventNames :=
  ⟨Interaction.all.foldl (fun kinds kind => kinds.insert kind.usualName kind) ∅⟩

def size (names : EventNames) : Nat :=
  names.kinds.size

def toList (names : EventNames) : List String :=
  names.kinds.keys

def checkName (names : EventNames) (name : String) : Except Failure Unit := do
  Requirement.eventNameNonempty.check (name ≠ "")
  if names.kinds.contains name then
    throw (.invalidArgument "name" s!"event type '{name}' is already registered")

/-- Gives `name` to a kind, which may have other names. -/
def register (names : EventNames) (name : String) (kind : Interaction) :
    Except Failure Unit × EventNames :=
  match names.checkName name with
  | .error failure => (.error failure, names)
  | .ok () => (.ok (), ⟨names.kinds.insert name kind⟩)

def lookup (names : EventNames) (name : String) : Except Failure Interaction :=
  match names.kinds[name]? with
  | some kind => .ok kind
  | none => .error (.unknownEventType name)

end EventNames

end PackedRatings
