import LiveMarkup.Binding.Descriptor

/-!
# Binding programs

A binding program says what has to be installed on a live tree, and where. It is made once from a
tree and carried out on any tree of the same shape. A program is terminal if it owns the children
of its node, and has a priority, which only an observer sees.
-/

namespace LiveMarkup

/-- A part of an interpolated text node. -/
inductive Piece (C : Type) where
  /-- Text that stands for itself. -/
  | literal (text : String)
  /-- A place whose text a directive keeps. -/
  | slot (application : Application C)

/-- What has to be installed on a live tree. -/
inductive Program (C : Type) where
  /-- The one directive that owns the node. -/
  | terminal (application : Application C)
  /-- The directives of an element, in the order of their application. -/
  | directives (first : Application C) (others : List (Application C))
  /-- A text that is replaced by its pieces. -/
  | text (pieces : List (Piece C))
  /-- A text area: its text is resolved once, then its directives are applied. -/
  | textarea (directives : List (Application C))
  /-- What belongs to a node itself, then what belongs to its children. -/
  | both (own children : Program C)
  /-- A program for each of a list of siblings that has one. -/
  | siblings (programs : List (Option (Program C)))
  /-- Whatever a client installs. -/
  | client (owns : Bool) (rank : Int) (code : C)

namespace Program

variable {C : Type}

/-- Whether the program owns the children of its node. -/
def isTerminal : Program C → Bool
  | .terminal _ | .textarea _ => true
  | .directives .. | .text _ | .both .. | .siblings _ => false
  | .client owns _ _ => owns

/-- The priority of the program: that of the directive applied first, and 0 where there is none. -/
def priority : Program C → Int
  | .terminal a | .directives a _ => a.priority
  | .textarea as => (as.head?.map Application.priority).getD 0
  | .both own _ => own.priority
  | .text _ | .siblings _ => 0
  | .client _ rank _ => rank

/-- The programs of an element's directives, if it has any. -/
def ofDirectives? : List (Application C) → Option (Program C)
  | [] => none
  | a :: as => some (.directives a as)

/-- A node's own program followed by that of its children. -/
def combine? : Option (Program C) → Option (Program C) → Option (Program C)
  | some own, some children => some (.both own children)
  | some own, none => some own
  | none, children => children

end Program

end LiveMarkup
