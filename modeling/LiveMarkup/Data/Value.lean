import LiveMarkup.Data.Double

/-!
# Data values

The dynamic values that a template shows: `null`, truth values, numbers, strings, arrays and
objects. A number is an integer of at most 64 bits or a binary floating-point number. An object
lists its members in the order of their keys, by code point, each key once; `Value.object` builds
one from members in any order, where the last member of a key counts.
-/

namespace LiveMarkup

/-- A number: exact if it was written as an integer that fits 64 bits. -/
inductive Number where
  | int (value : Int)
  | float (value : Double)
deriving DecidableEq, Repr, Inhabited

/-- A data value. -/
inductive Value where
  | null
  | bool (value : Bool)
  | number (value : Number)
  | string (value : String)
  | array (items : List Value)
  | object (members : List (String × Value))
deriving Repr, Inhabited

namespace Value

/-- Puts a member into a list that is sorted by key, in place of an earlier one of that key. -/
def insertMember (key : String) (value : Value) :
    List (String × Value) → List (String × Value)
  | [] => [(key, value)]
  | (k, v) :: rest =>
    if k = key then (key, value) :: rest
    else if key < k then (key, value) :: (k, v) :: rest
    else (k, v) :: insertMember key value rest

/-- The object with the given members; of two with one key the later counts. -/
def ofMembers (members : List (String × Value)) : Value :=
  .object (members.foldl (fun acc m ↦ insertMember m.1 m.2 acc) [])

/-- The empty object. -/
def emptyObject : Value := .object []

/-- The member of the given key. -/
def member? (key : String) : List (String × Value) → Option Value
  | [] => none
  | (k, v) :: rest => if k = key then some v else member? key rest

theorem member?_insertMember_self (key : String) (value : Value) (ms : List (String × Value)) :
    member? key (insertMember key value ms) = some value := by
  fun_induction insertMember key value ms <;> simp_all [member?]

theorem member?_insertMember_of_ne {key other : String} (h : key ≠ other) (value : Value)
    (ms : List (String × Value)) :
    member? other (insertMember key value ms) = member? other ms := by
  fun_induction insertMember key value ms <;> simp_all [member?]

end Value

end LiveMarkup
