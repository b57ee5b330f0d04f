import LiveMarkup.Text.Blank
import LiveMarkup.Data.Reader
import LiveMarkup.Data.Writer

/-!
# Expressions

An expression is a constant or a dotted path. The path's head names a field; each further segment
selects a member of an object by its key, or an item of an array by its index. A segment that
selects nothing gives `null`, and so does everything below `null`. Blank text is the constant
`null`.

A constant is a text in apostrophes, taken verbatim, or a JSON document that begins with a
quotation mark, a minus sign or a digit, or is one of the three words. Text that only looks like
such a document is a path.
-/

namespace LiveMarkup

/-- What an expression asks for. -/
inductive Expression where
  | constant (value : Value)
  | path (head : String) (segments : List (List Char))
deriving Repr

/-- The pieces of a text between its dots; at least one. -/
def splitDots : List Char → List Char × List (List Char)
  | [] => ([], [])
  | c :: r =>
    let (first, rest) := splitDots r
    if c = '.' then ([], first :: rest) else (c :: first, rest)

namespace Value

/-- The number that a path segment writes: decimal digits, with an optional plus sign. -/
def index? (segment : List Char) : Option Nat :=
  let digits := match segment with
    | '+' :: r => r
    | r => r
  if digits.isEmpty || !digits.all Char.isDigit then none
  else some (digits.foldl (fun n c ↦ 10 * n + (c.toNat - '0'.toNat)) 0)

/-- The part of a value that a path segment selects, `null` if there is none. -/
def child (v : Value) (segment : List Char) : Value :=
  match v with
  | .object members => (member? (String.ofList segment) members).getD .null
  | .array items =>
    match index? segment with
    | some i => items[i]?.getD .null
    | none => .null
  | _ => .null

/-- The part of a value at the end of a path. -/
def descend (v : Value) (segments : List (List Char)) : Value := segments.foldl child v

@[simp] theorem descend_nil (v : Value) : v.descend [] = v := rfl

@[simp] theorem descend_cons (v : Value) (s : List Char) (ss : List (List Char)) :
    v.descend (s :: ss) = (v.child s).descend ss := rfl

theorem descend_append (v : Value) (ss ts : List (List Char)) :
    v.descend (ss ++ ts) = (v.descend ss).descend ts := List.foldl_append

@[simp] theorem child_null (s : List Char) : child .null s = .null := rfl

/-- Nothing is selected below `null`. -/
@[simp] theorem descend_null (ss : List (List Char)) : descend .null ss = .null := by
  induction ss with
  | nil => rfl
  | cons s ss ih => rw [descend_cons, child_null, ih]

end Value

namespace Expression

/-- The constant that a trimmed text writes, if it writes one. -/
def constant? (cs : List Char) : Option Value :=
  match cs with
  | [] => none
  | c :: r =>
    if c = '\'' && r.getLast? == some '\'' then some (.string (String.ofList r.dropLast))
    else if c = '"' || c = '-' || c.isDigit || cs = "true".toList || cs = "false".toList ||
        cs = "null".toList then Value.parse? cs
    else none

/-- The path that a trimmed text writes. -/
def ofPath (cs : List Char) : Expression :=
  let (head, segments) := splitDots cs
  .path (String.ofList (trim head)) (segments.map trim)

/-- What a text asks for. -/
def parse (text : List Char) : Expression :=
  let cs := trim text
  if cs.isEmpty then .constant .null
  else match constant? cs with
    | some v => .constant v
    | none => ofPath cs

/-- The value of an expression where the fields have the given values. -/
def value (field : String → Value) : Expression → Value
  | .constant v => v
  | .path head segments => (field head).descend segments

/-- The field that an expression reads, if it reads one. -/
def field? : Expression → Option String
  | .constant _ => none
  | .path head _ => some head

end Expression

end LiveMarkup
