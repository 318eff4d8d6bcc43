/-!
# JSON values

A value keeps what a reader of records needs of its text. Of a number that is the
value if it is a plain natural number; signs, fractions and exponents make a number
that no field accepts. Of a string it is the text, unless an escape names half of a
surrogate pair. An object keeps its members in order, repeated keys included.

A record is written as an object, whose unknown keys are ignored, or as an array of
its fields in order, of which the last ones may be missing.
-/

namespace Retarget

inductive Json where
  | null
  | bool (b : Bool)
  /-- The value of a natural number without fraction or exponent. -/
  | number (value : Option Nat)
  /-- The text of a string that is well-formed. -/
  | string (text : Option String)
  | array (items : List Json)
  | object (members : List (Option String × Json))
deriving Repr, Inhabited

namespace Json

def bool? : Json → Option Bool
  | bool b => some b
  | _ => none

/-- The natural number, if it is below the limit. -/
def nat? (limit : Nat) : Json → Option Nat
  | number (some n) => if n < limit then some n else none
  | _ => none

/-- The text of a well-formed string. -/
def string? : Json → Option String
  | string text => text
  | _ => none

def array? : Json → Option (List Json)
  | array items => some items
  | _ => none

/-- The value under a key that may occur at most once. -/
def member? (members : List (Option String × Json)) (key : String) : Option (Option Json) :=
  match members.filter fun m => m.1 == some key with
  | [] => some none
  | [m] => some (some m.2)
  | _ => none

/-- The fields of a record in the order of their names; a missing one is empty. -/
def fields? (names : List String) : Json → Option (List (Option Json))
  | array items =>
    if items.length ≤ names.length then
      some (items.map some ++ List.replicate (names.length - items.length) none)
    else none
  | object members =>
    if members.all fun m => m.1.isSome then names.mapM (member? members) else none
  | _ => none

end Json

end Retarget
