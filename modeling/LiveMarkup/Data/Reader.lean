import LiveMarkup.Data.Value

/-!
# Reading values

Strict JSON: no comments, no trailing commas, only space, tab, line feed and carriage return
between tokens, no raw control characters in strings, no lone surrogate escapes, no leading zeros,
no number beyond the finite range, and at most 127 arrays and objects inside each other.

A number without a point and an exponent stays an integer if it fits 64 bits (unsigned, or signed
when negative); `-0` and everything else is a binary number. That number is computed from the
first digits that fit 64 bits, as one product or quotient with a power of ten: a number written
with more than 15 digits can differ from the nearest one in its last bit.
-/

namespace LiveMarkup.Reader

/-- White space between tokens. -/
def isSpace (c : Char) : Bool := c == ' ' || c == '\t' || c == '\n' || c == '\r'

/-- The text without the white space in front. -/
def skip (cs : List Char) : List Char := cs.dropWhile isSpace

/-! ## Numbers -/

/-- The digits at the front, and what follows them. -/
def takeDigits (cs : List Char) : List Nat × List Char :=
  ((cs.takeWhile Char.isDigit).map fun c ↦ c.toNat - '0'.toNat, cs.dropWhile Char.isDigit)

/-- Appends digits to a number as long as it stays within `limit`; answers the number and the
digits that are left over. -/
def appendDigits (limit : Nat) : Nat → List Nat → Nat × List Nat
  | n, [] => (n, [])
  | n, d :: ds => if 10 * n + d ≤ limit then appendDigits limit (10 * n + d) ds else (n, d :: ds)

/-- The greatest number that fits 64 bits. -/
def maxUnsigned : Nat := twoTo 64 - 1

/-- The greatest exponent that is read as written. -/
def maxExponent : Nat := twoTo 31 - 1

/-- The number `f · 10 ^ e` for an exponent within the range of a table of powers of ten. -/
def timesTablePower (f : Double) (e : Int) : Option Double :=
  if 0 ≤ e then (Double.powerOfTen? e.toNat).bind f.mul?
  else (Double.powerOfTen? (-e).toNat).bind f.div?

/-- The number `f · 10 ^ e` for an exponent below -308, divided by `10 ^ 308` as often as it takes
to come within the table, at most `steps` times. -/
def divideDown : (steps : Nat) → Double → Int → Option Double
  | 0, f, _ => some f
  | steps + 1, f, e =>
    if -308 ≤ e then timesTablePower f e
    else if f.mantissa = 0 then some f
    else (timesTablePower f (-308)).bind fun g ↦ divideDown steps g (e + 308)

/-- The number `f · 10 ^ e`; `none` beyond the finite range. -/
def timesPowerOfTen (f : Double) (e : Int) : Option Double :=
  if e ≤ 308 then divideDown ((-e).toNat / 308 + 1) f e
  else if f.mantissa = 0 then some f
  else none

/-- The binary number `±significand · 10 ^ e`. -/
def float (negative : Bool) (significand : Nat) (e : Int) : Option Number := do
  let f ← Double.ofNat? significand
  let g ← timesPowerOfTen f e
  return .float (if negative then g.neg else g)

/-- The exponent part behind its letter, and with it the whole number. -/
def exponentPart (negative : Bool) (significand : Nat) (e : Int) (cs : List Char) :
    Option (Number × List Char) :=
  let (down, cs) := match cs with
    | '+' :: cs => (false, cs)
    | '-' :: cs => (true, cs)
    | cs => (false, cs)
  match takeDigits cs with
  | ([], _) => none
  | (ds, rest) =>
    match appendDigits maxExponent 0 ds with
    | (n, []) => (float negative significand (if down then e - n else e + n)).map (·, rest)
    | (_, _ :: _) =>
      if significand ≠ 0 && !down then none
      else some (.float (Double.zero negative), rest)

/-- What may follow the digits of a binary number: an exponent, or nothing of it. -/
def afterDigits (negative : Bool) (significand : Nat) (e : Int) :
    List Char → Option (Number × List Char)
  | 'e' :: cs => exponentPart negative significand e cs
  | 'E' :: cs => exponentPart negative significand e cs
  | cs => (float negative significand e).map (·, cs)

/-- The fraction behind its point. Digits that no longer fit are left out. -/
def fractionPart (negative : Bool) (significand : Nat) (e : Int) (cs : List Char) :
    Option (Number × List Char) :=
  match takeDigits cs with
  | ([], _) => none
  | (ds, rest) =>
    let (n, left) := appendDigits maxUnsigned significand ds
    afterDigits negative n (e - (ds.length - left.length)) rest

/-- An integer, if it fits 64 bits. -/
def integer (negative : Bool) (n : Nat) : Option Number :=
  if negative then
    if n = 0 then some (.float (Double.zero true))
    else if n ≤ twoTo 63 then some (.int (-n))
    else float true n 0
  else some (.int n)

/-- A number behind its sign. -/
def unsigned (negative : Bool) (cs : List Char) : Option (Number × List Char) :=
  match takeDigits cs with
  | ([], _) => none
  | (0 :: _ :: _, _) => none
  | (ds, rest) =>
    let (n, left) := appendDigits maxUnsigned 0 ds
    match left, rest with
    | _, '.' :: rest => fractionPart negative n left.length rest
    | [], 'e' :: rest => exponentPart negative n 0 rest
    | [], 'E' :: rest => exponentPart negative n 0 rest
    | [], rest => (integer negative n).map (·, rest)
    | left, rest => afterDigits negative n left.length rest

/-- A number. -/
def number : List Char → Option (Number × List Char)
  | '-' :: cs => unsigned true cs
  | cs => unsigned false cs

/-! ## Strings -/

/-- The value of a hexadecimal digit. -/
def hexValue? (c : Char) : Option Nat :=
  if c.isDigit then some (c.toNat - '0'.toNat)
  else if 'a' ≤ c && c ≤ 'f' then some (c.toNat - 'a'.toNat + 10)
  else if 'A' ≤ c && c ≤ 'F' then some (c.toNat - 'A'.toNat + 10)
  else none

/-- Four hexadecimal digits. -/
def hex4? (a b c d : Char) : Option Nat := do
  return 4096 * (← hexValue? a) + 256 * (← hexValue? b) + 16 * (← hexValue? c) + (← hexValue? d)

/-- The character that a letter behind a backslash stands for. -/
def escape? : Char → Option Char
  | '"' => some '"'
  | '\\' => some '\\'
  | '/' => some '/'
  | 'b' => some '\x08'
  | 'f' => some '\x0c'
  | 'n' => some '\n'
  | 'r' => some '\r'
  | 't' => some '\t'
  | _ => none

/-- The characters up to the closing quotation mark, and what follows it. -/
def stringBody : List Char → Option (List Char × List Char)
  | [] => none
  | '"' :: cs => some ([], cs)
  | '\\' :: 'u' :: a :: b :: c :: d :: cs => do
    let n ← hex4? a b c d
    if n < 0xD800 || 0xDFFF < n then
      let (s, rest) ← stringBody cs
      return (Char.ofNat n :: s, rest)
    else if n ≤ 0xDBFF then
      match cs with
      | '\\' :: 'u' :: a :: b :: c :: d :: cs =>
        let m ← hex4? a b c d
        if 0xDC00 ≤ m && m ≤ 0xDFFF then
          let (s, rest) ← stringBody cs
          return (Char.ofNat (0x10000 + (n - 0xD800) * 0x400 + (m - 0xDC00)) :: s, rest)
        else none
      | _ => none
    else none
  | '\\' :: c :: cs => do
    let c ← escape? c
    let (s, rest) ← stringBody cs
    return (c :: s, rest)
  | c :: cs =>
    if c = '\\' || c.toNat < 32 then none
    else do
      let (s, rest) ← stringBody cs
      return (c :: s, rest)

/-! ## Values -/

/-- The text behind a word, if it begins with that word. -/
def word? (w : List Char) (cs : List Char) : Option (List Char) :=
  if cs.take w.length = w then some (cs.drop w.length) else none

mutual

/-- A value, with white space allowed in front; `depth` counts the containers that may still be
entered, and `fuel` bounds the steps. -/
def value : (fuel depth : Nat) → List Char → Option (Value × List Char)
  | 0, _, _ => none
  | fuel + 1, depth, cs =>
    match skip cs with
    | '"' :: cs => (stringBody cs).map fun (s, rest) ↦ (.string (String.ofList s), rest)
    | '[' :: cs =>
      match depth with
      | 0 => none
      | depth + 1 =>
        match skip cs with
        | ']' :: rest => some (.array [], rest)
        | cs => (items fuel depth cs).map fun (vs, rest) ↦ (.array vs, rest)
    | '{' :: cs =>
      match depth with
      | 0 => none
      | depth + 1 =>
        match skip cs with
        | '}' :: rest => some (.object [], rest)
        | cs => (members fuel depth cs).map fun (ms, rest) ↦ (Value.ofMembers ms, rest)
    | 't' :: cs => (word? "rue".toList cs).map (.bool true, ·)
    | 'f' :: cs => (word? "alse".toList cs).map (.bool false, ·)
    | 'n' :: cs => (word? "ull".toList cs).map (.null, ·)
    | cs => (number cs).map fun (n, rest) ↦ (.number n, rest)

/-- One or more items up to the closing bracket. -/
def items : (fuel depth : Nat) → List Char → Option (List Value × List Char)
  | 0, _, _ => none
  | fuel + 1, depth, cs => do
    let (v, rest) ← value fuel depth cs
    match skip rest with
    | ']' :: rest => some ([v], rest)
    | ',' :: rest =>
      let (vs, rest) ← items fuel depth rest
      return (v :: vs, rest)
    | _ => none

/-- One or more members up to the closing brace. -/
def members : (fuel depth : Nat) → List Char → Option ((List (String × Value)) × List Char)
  | 0, _, _ => none
  | fuel + 1, depth, cs =>
    match skip cs with
    | '"' :: cs => do
      let (k, rest) ← stringBody cs
      match skip rest with
      | ':' :: rest =>
        let (v, rest) ← value fuel depth rest
        match skip rest with
        | '}' :: rest => some ([(String.ofList k, v)], rest)
        | ',' :: rest =>
          let (ms, rest) ← members fuel depth rest
          return ((String.ofList k, v) :: ms, rest)
        | _ => none
      | _ => none
    | _ => none

end

/-- How many containers may stand inside each other. -/
def maxDepth : Nat := 127

end Reader

/-- The value that a JSON text holds, if it is one. -/
def Value.parse? (text : List Char) : Option Value :=
  match Reader.value (2 * text.length + 2) Reader.maxDepth text with
  | some (v, rest) => if (Reader.skip rest).isEmpty then some v else none
  | none => none

end LiveMarkup
