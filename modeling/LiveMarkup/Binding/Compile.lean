import LiveMarkup.Binding.Diagnostic
import LiveMarkup.Binding.Program
import LiveMarkup.Binding.Registry
import LiveMarkup.Template.Interpolation

/-!
# From trees to programs

Compiling reads a tree of nodes and answers what has to be installed on trees of that shape.

## The rules

* An element that carries an attribute for a terminal directive has that directive alone, the
  first in the order of the registry, and its children are left to it.
* Any other element has one application for each attribute that begins with the mark and goes on
  with a name, and for each other attribute whose value is interpolated. They are applied from
  the highest priority down, those of one priority in the order of their attributes.
* A text area whose text is interpolated has that text resolved first, and owns its children.
* An interpolated text becomes a row of texts, one for each token, if the directive for texts is
  defined.
* Children are compiled too, except those of a script and those that a program owns.

Besides the program, compiling reports the requests it had to skip, if asked to, and how many
identities it uses up: a private fragment and one private text for each token of an interpolated
text, whether or not a program comes of it.
-/

namespace LiveMarkup

/-- How templates are read. -/
structure Config where
  /-- What an attribute that asks for a directive begins with. -/
  mark : String := "v-"
  /-- Whether skipped requests are reported. -/
  diagnostics : Bool := false
deriving DecidableEq, Repr, Inhabited

/-- What compiling leaves behind besides a program. -/
structure Trace where
  diagnostics : List Diagnostic := []
  /-- The number of identities used up. -/
  identities : Nat := 0
deriving Repr

namespace Trace

/-- One trace after the other. -/
def append (t u : Trace) : Trace :=
  ⟨t.diagnostics ++ u.diagnostics, t.identities + u.identities⟩

instance : Append Trace := ⟨append⟩

end Trace

/-- What compiling needs to know. -/
structure Compiler (C : Type) where
  registry : Registry C
  config : Config := {}

namespace Compiler

variable {C : Type} (c : Compiler C)

/-- The application of a request on a node, and the report of a skipped one. -/
def resolve (node : NodeId) (d : Descriptor) : Option (Application C) × Trace :=
  match c.registry.resolve? d with
  | some a => (some a, {})
  | none =>
    (none,
      { diagnostics := if c.config.diagnostics then [⟨d.name, d.sourceAttr, node⟩] else [] })

/-- The applications of requests on a node. -/
def resolveAll (node : NodeId) : List Descriptor → List (Application C) × Trace
  | [] => ([], {})
  | d :: ds =>
    let (a?, t) := c.resolve node d
    let (as, u) := resolveAll node ds
    (a?.toList ++ as, t ++ u)

/-- The name of the directive that an attribute asks for: what follows the mark, if the attribute
begins with it and goes on. -/
def directiveName? (attr : String) : Option String :=
  match List.isPrefixOf? c.config.mark.toList attr.toList with
  | some (ch :: rest) => some (String.ofList (ch :: rest))
  | _ => none

/-- The request of an attribute, if it makes one. -/
def request? (attr value : String) : Option Descriptor :=
  match c.directiveName? attr with
  | some name => some (.ofDirective name value attr)
  | none =>
    if Interpolation.hasExpression value.toList then some (.ofInterpolation attr value) else none

/-- The application of the first terminal directive, in the order of the registry, that attributes
ask for. -/
def terminal? (attrs : Attributes) : Option (Application C) :=
  c.registry.terminalNames.findSome? fun name ↦
    let attr := c.config.mark ++ name
    (attrs.get? attr).bind fun value ↦ c.registry.resolve? (.ofDirective name value attr)

/-- Orders applications from the highest priority down; those of one priority keep their order. -/
def byPriority (as : List (Application C)) : List (Application C) :=
  as.mergeSort fun a b ↦ b.priority ≤ a.priority

/-- The applications that an element's attributes ask for, in the order of their application. -/
def directives (node : NodeId) (attrs : Attributes) : List (Application C) × Trace :=
  let (as, t) := c.resolveAll node (attrs.filterMap fun (attr, value) ↦ c.request? attr value)
  (byPriority as, t)

/-- The pieces of an interpolated text, and whether one of them is a slot. -/
def pieces (node : NodeId) : List Token → List (Piece C) × Bool × Trace
  | [] => ([], false, {})
  | .literal text :: tokens =>
    let (ps, slots, t) := pieces node tokens
    (.literal (String.ofList text) :: ps, slots, t)
  | .expression source :: tokens =>
    let (a?, t) := c.resolve node (.ofText (String.ofList source))
    let (ps, slots, u) := pieces node tokens
    match a? with
    | some a => (.slot a :: ps, true, t ++ u)
    | none => (.literal "" :: ps, slots, t ++ u)

/-- The program of a text. -/
def compileText (node : NodeId) (data : String) : Option (Program C) × Trace :=
  if Interpolation.hasExpression data.toList then
    let tokens := Interpolation.tokenize data.toList
    let (ps, slots, t) := c.pieces node tokens
    (if slots then some (.text ps) else none, t ++ { identities := 1 + tokens.length })
  else (none, {})

/-- The program of an element, its children aside. -/
def compileElement (node : NodeId) (tag : String) (attrs : Attributes) (content : List Char) :
    Option (Program C) × Trace :=
  match c.terminal? attrs with
  | some a => (some (.terminal a), {})
  | none =>
    let (as, t) := c.directives node attrs
    if equalIgnoringCase tag "textarea" && Interpolation.hasExpression content then
      (some (.textarea as), t)
    else (Program.ofDirectives? as, t)

/-- The program of a node, its children aside. -/
def compileNode (t : Tree NodeId) : Option (Program C) × Trace :=
  match t.kind with
  | .element tag => c.compileElement t.label tag t.attrs t.textContent
  | .text => c.compileText t.label t.data
  | .comment | .fragment => (none, {})

/-- Whether a node's children are compiled, given the node's own program. -/
def descends (t : Tree NodeId) (own : Option (Program C)) : Bool :=
  !(own.any Program.isTerminal) && !t.hasTag "script" && !t.children.isEmpty

/-- The program for siblings, if one of them has a program. -/
def siblings? (programs : List (Option (Program C))) : Option (Program C) :=
  if programs.any Option.isSome then some (.siblings programs) else none

mutual

/-- The program of a tree. -/
def compile (c : Compiler C) : Tree NodeId → Option (Program C) × Trace
  | .node n kind attrs data children =>
    let t := Tree.node n kind attrs data children
    let (own, trace) := c.compileNode t
    if descends t own then
      let (programs, below) := c.compileEach children
      (Program.combine? own (siblings? programs), trace ++ below)
    else (own, trace)

/-- The programs of trees. -/
def compileEach (c : Compiler C) : List (Tree NodeId) → List (Option (Program C)) × Trace
  | [] => ([], {})
  | t :: ts =>
    let (program, trace) := c.compile t
    let (programs, traces) := c.compileEach ts
    (program :: programs, trace ++ traces)

end

/-- The program of sibling trees. -/
def compileAll (ts : List (Tree NodeId)) : Option (Program C) × Trace :=
  let (programs, trace) := c.compileEach ts
  (siblings? programs, trace)

end Compiler

end LiveMarkup
