import LiveMarkup.Markup.Forest

/-!
# Reading markup

A source is read into the forest its events describe, less the root texts that are only white
space. A source with a defect has no forest; the error names the defect and the byte where the
defective piece begins.
-/

namespace LiveMarkup

/-- Why a source cannot be read, and where. -/
structure ParseError where
  defect : Defect
  /-- The byte, counted from the start of the source, where the defective piece begins. -/
  offset : Nat
deriving DecidableEq, Repr, Inhabited

namespace ParseError

/-- The error in words. -/
def message (e : ParseError) : String :=
  match e.defect with
  | .missingTagName => s!"expected a tag name after \x60<\x60 at byte {e.offset}"
  | .unterminatedAttribute => s!"unterminated attribute value starting at byte {e.offset}"
  | .unterminatedComment => s!"unterminated comment starting at byte {e.offset}"

end ParseError

/-- What scanning a source gives: the events up to its end, or up to an error. -/
structure Reading where
  events : List Event
  error : Option ParseError

namespace Reading

/-- Scans a source. -/
def ofSource (source : String) : Reading :=
  let bytes := Utf8.encode source.toList
  let (events, fault) := Scan.events bytes
  ⟨events, fault.map fun (defect, rest) ↦ ⟨defect, bytes.length - rest.length⟩⟩

/-- The number of nodes that reading brings into being. An element exists before its attributes
are read, so one with an unterminated attribute counts. -/
def nodeCount (r : Reading) : Nat :=
  r.events.foldr (fun e n ↦ e.nodeCount + n) 0 +
    match r.error with
    | some ⟨.unterminatedAttribute, _⟩ => 1
    | _ => 0

/-- The forest of the events, with every root. -/
def forest (r : Reading) : List (Tree Unit) := forestOf r.events

end Reading

/-- Whether a tree is a text of nothing but white space. -/
def Tree.isBlankText {α : Type} (t : Tree α) : Bool := t.kind == .text && allBlank t.data.toList

/-- The forest of a source: the trees of its events, less blank texts among the roots. -/
def parseMarkup (source : String) : Except ParseError (List (Tree Unit)) :=
  let r := Reading.ofSource source
  match r.error with
  | some e => .error e
  | none => .ok (r.forest.filter fun t ↦ !t.isBlankText)

end LiveMarkup
