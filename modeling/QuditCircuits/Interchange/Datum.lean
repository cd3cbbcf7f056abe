import QuditCircuits.ShapeError
import QuditCircuits.Register

/-!
# Interchange data

Values are stored and exchanged as *data*: texts, numbers, lists and records.  Reading a value back
fails either because the datum does not have the value's form, or because it has the form and the
value itself is refused; only the second kind of failure has a message.

A record may be given without its field names, as the list of its fields in order, and fields that
are not asked for are ignored.
-/

namespace QuditCircuits

/-- A stored value. -/
inductive Datum
  /-- Nothing. -/
  | null
  /-- A truth value. -/
  | boolean (value : Bool)
  /-- A natural number. -/
  | natural (value : Nat)
  /-- A number that is no natural number. -/
  | otherNumber
  /-- A text. -/
  | text (value : String)
  /-- A list of data. -/
  | list (items : List Datum)
  /-- Named fields. -/
  | record (fields : List (String × Datum))

/-- Why a datum cannot be read as a value. -/
inductive DecodeError
  /-- The datum does not have the form of the value. -/
  | malformed
  /-- The datum has the form of the value, and the value is refused. -/
  | refused (error : ShapeError)
  deriving DecidableEq

namespace Datum

/-- Reads a machine word. -/
def word : Datum → Except DecodeError Nat
  | natural value => if value < wordBound then .ok value else .error .malformed
  | _ => .error .malformed

/-- Reads a text. -/
def string : Datum → Except DecodeError String
  | text value => .ok value
  | _ => .error .malformed

/-- Reads a list, item by item. -/
def listOf {α : Type} (item : Datum → Except DecodeError α) : Datum → Except DecodeError (List α)
  | list items => items.mapM item
  | _ => .error .malformed

/-- Reads a pair, given as a list of two. -/
def pairOf {α β : Type} (first : Datum → Except DecodeError α)
    (second : Datum → Except DecodeError β) : Datum → Except DecodeError (α × β)
  | list [x, y] => do return (← first x, ← second y)
  | _ => .error .malformed

/-- Reads a field of a record by its name. -/
def field {α : Type} (fields : List (String × Datum)) (name : String)
    (value : Datum → Except DecodeError α) : Except DecodeError α :=
  match fields.lookup name with
  | some datum => value datum
  | none => .error .malformed

/-- Reads a record of one field. -/
def recordOf {α : Type} (name : String) (value : Datum → Except DecodeError α) :
    Datum → Except DecodeError α
  | record fields => field fields name value
  | list [x] => value x
  | _ => .error .malformed

/-- Reads a record of two fields. -/
def recordOfTwo {α β : Type} (firstName : String) (first : Datum → Except DecodeError α)
    (secondName : String) (second : Datum → Except DecodeError β) :
    Datum → Except DecodeError (α × β)
  | record fields => do return (← field fields firstName first, ← field fields secondName second)
  | list [x, y] => do return (← first x, ← second y)
  | _ => .error .malformed

/-- A value that may be refused, read from a datum of its form. -/
def checked {α : Type} : Except ShapeError α → Except DecodeError α :=
  Except.mapError .refused

end Datum

end QuditCircuits
