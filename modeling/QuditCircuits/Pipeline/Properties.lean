import QuditCircuits.Substitution.Log

/-!
# Properties

Passes leave notes for each other in a set of properties.  A property is found by its key, the key
fixes the type of its value, and there is at most one property of each key.

Passes may define properties of their own, so which keys there are is left open: a *property family*
gives any keys with any types of values, and the log of the substitution rules has a key besides them.
-/

namespace QuditCircuits

/-- The properties that passes may define besides the log: their keys, and the type of the value under
each of them. -/
structure PropertyFamily where
  /-- The keys. -/
  Key : Type
  /-- Keys can be told apart. -/
  [decidableEq : DecidableEq Key]
  /-- The type of the property under a key. -/
  Value : Key → Type

attribute [instance] PropertyFamily.decidableEq

/-- The keys of the basic properties. -/
inductive BasicKey
  /-- A count. -/
  | number
  /-- A text. -/
  | text
  deriving DecidableEq

/-- One count and one text. -/
abbrev PropertyFamily.basic : PropertyFamily where
  Key := BasicKey
  Value
    | .number => UInt64
    | .text => String

/-- The keys of properties. -/
inductive PropertyKey (F : PropertyFamily := .basic)
  /-- A property that passes define. -/
  | custom (key : F.Key)
  /-- The log of the substitution rules that were run. -/
  | substitutions
  deriving DecidableEq

/-- The count among the basic properties. -/
@[match_pattern]
abbrev PropertyKey.number : PropertyKey :=
  .custom .number

/-- The text among the basic properties. -/
@[match_pattern]
abbrev PropertyKey.text : PropertyKey :=
  .custom .text

/-- The type of the property under a key. -/
abbrev PropertyKey.Value {F : PropertyFamily} : PropertyKey F → Type
  | custom key => F.Value key
  | substitutions => SubstitutionLog

/-- A value under a key. -/
structure Property (F : PropertyFamily) where
  /-- The key. -/
  key : PropertyKey F
  /-- The value. -/
  value : key.Value

/-- The first value under a key in a list of properties. -/
def Property.lookup {F : PropertyFamily} (key : PropertyKey F) :
    List (Property F) → Option key.Value
  | [] => none
  | property :: rest => if h : property.key = key then some (h ▸ property.value) else lookup key rest

/-- A set of properties: any number of them, but for each key at most one. -/
structure Properties (F : PropertyFamily := .basic) where
  /-- The properties, in an order that does not matter. -/
  entries : List (Property F)
  /-- No two have the same key. -/
  distinct : entries.Pairwise fun property other => property.key ≠ other.key

namespace Properties

variable {F : PropertyFamily}

/-- No property. -/
def empty : Properties F where
  entries := []
  distinct := .nil

/-- The property under a key. -/
def find? (properties : Properties F) (key : PropertyKey F) : Option key.Value :=
  Property.lookup key properties.entries

/-- The properties under other keys. -/
def erase (properties : Properties F) (key : PropertyKey F) : Properties F where
  entries := properties.entries.filter fun property => property.key ≠ key
  distinct := properties.distinct.filter _

/-- Puts a value under a key, in place of the one that was there. -/
def insert (properties : Properties F) (key : PropertyKey F) (value : key.Value) : Properties F where
  entries := ⟨key, value⟩ :: (properties.erase key).entries
  distinct := by
    refine .cons (fun property hproperty => ?_) (properties.erase key).distinct
    have hne : property.key ≠ key := by simpa using (List.mem_filter.mp hproperty).2
    exact hne.symm

/-- Changes the value under a key, if there is one. -/
def modify (properties : Properties F) (key : PropertyKey F) (f : key.Value → key.Value) :
    Properties F :=
  match properties.find? key with
  | none => properties
  | some value => properties.insert key (f value)

/-- Whether there is a property under a key. -/
def contains (properties : Properties F) (key : PropertyKey F) : Bool :=
  (properties.find? key).isSome

/-- The number of properties. -/
def size (properties : Properties F) : Nat :=
  properties.entries.length

/-- A set of properties is shown by its size alone. -/
def text (properties : Properties F) : String :=
  "PropertySet \x7b len: " ++ toString properties.size ++ " \x7d"

/-- The substitution log, empty if none was started. -/
def substitutionLog (properties : Properties F) : SubstitutionLog :=
  (properties.find? .substitutions).getD .empty

/-- Records one application of a rule.  The log is started if there is none. -/
def record (properties : Properties F) (rule : String) (replaced : Nat) : Properties F :=
  properties.insert .substitutions (properties.substitutionLog.record rule replaced)

/-! ## What is found -/

theorem lookup_filter_of_ne {key other : PropertyKey F} (h : key ≠ other)
    (entries : List (Property F)) :
    Property.lookup other (entries.filter fun property => property.key ≠ key) =
      Property.lookup other entries := by
  induction entries with
  | nil => rfl
  | cons property rest ih =>
      by_cases hkey : property.key = key
      · have hne : property.key ≠ other := hkey ▸ h
        rw [List.filter_cons_of_neg (by simpa using hkey), ih, Property.lookup, dif_neg hne]
      · rw [List.filter_cons_of_pos (by simpa using hkey), Property.lookup, Property.lookup, ih]

theorem find?_erase_of_ne (properties : Properties F) {key other : PropertyKey F} (h : key ≠ other) :
    (properties.erase key).find? other = properties.find? other :=
  lookup_filter_of_ne h properties.entries

@[simp]
theorem find?_insert_self (properties : Properties F) (key : PropertyKey F) (value : key.Value) :
    (properties.insert key value).find? key = some value :=
  dif_pos rfl

theorem find?_insert_of_ne (properties : Properties F) {key other : PropertyKey F} (h : key ≠ other)
    (value : key.Value) : (properties.insert key value).find? other = properties.find? other :=
  (dif_neg h).trans (properties.find?_erase_of_ne h)

end Properties

end QuditCircuits
