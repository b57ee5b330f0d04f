import LiveMarkup.Text.Ascii

/-!
# Trees

A tree of markup. A node is an element, a text, a comment, or a fragment, which holds several trees
without a tag of its own. Every node has attributes, data and children, whatever its kind: only an
element shows its attributes, only a text or comment its data, and only an element or fragment its
children, but a live node of any kind can be given all three, and a copy keeps them.

Every node also carries a label, so that one type serves for parsed markup, where there is nothing
to say, and for a picture of live nodes, where the label is the node's identity.
-/

namespace LiveMarkup

/-- Attributes in the order of their declaration. -/
abbrev Attributes := List (String × String)

namespace Attributes

/-- The value of an attribute. -/
def get? (name : String) : Attributes → Option String
  | [] => none
  | (k, v) :: rest => if k = name then some v else get? name rest

/-- Whether there is an attribute of that name. -/
def has (name : String) (attrs : Attributes) : Bool := (attrs.get? name).isSome

/-- Gives an attribute a value: in its place if there is one of that name, else at the end. -/
def set (name value : String) : Attributes → Attributes
  | [] => [(name, value)]
  | (k, v) :: rest => if k = name then (k, value) :: rest else (k, v) :: set name value rest

/-- The attributes without the first of that name. -/
def remove (name : String) : Attributes → Attributes
  | [] => []
  | (k, v) :: rest => if k = name then rest else (k, v) :: remove name rest

@[simp] theorem get?_set_self (name value : String) (attrs : Attributes) :
    (attrs.set name value).get? name = some value := by
  fun_induction set name value attrs <;> simp_all [get?]

theorem get?_set_of_ne {name other : String} (h : name ≠ other) (value : String)
    (attrs : Attributes) : (attrs.set name value).get? other = attrs.get? other := by
  fun_induction set name value attrs <;> simp_all [get?]

theorem map_fst_set {name : String} {attrs : Attributes} (h : name ∈ attrs.map Prod.fst)
    (value : String) : (attrs.set name value).map Prod.fst = attrs.map Prod.fst := by
  induction attrs with
  | nil => exact absurd h List.not_mem_nil
  | cons x attrs ih =>
    obtain ⟨k, v⟩ := x
    rw [List.map_cons, List.mem_cons] at h
    by_cases hk : k = name
    · simp [set, hk]
    · simp [set, hk, ih (h.resolve_left (Ne.symm hk))]

end Attributes

/-- What a node is. -/
inductive NodeKind where
  | element (tag : String)
  | text
  | comment
  | fragment
deriving DecidableEq, Repr, Inhabited

namespace NodeKind

/-- Whether nodes of this kind are elements of the given tag. -/
def hasTag (tag : String) : NodeKind → Bool
  | .element t => equalIgnoringCase t tag
  | _ => false

/-- Whether nodes of this kind show their children rather than their data. -/
def isContainer : NodeKind → Bool
  | .element _ | .fragment => true
  | .text | .comment => false

end NodeKind

/-- A tree of markup whose nodes carry labels. -/
inductive Tree (α : Type) where
  | node (label : α) (kind : NodeKind) (attrs : Attributes) (data : String)
    (children : List (Tree α))
deriving Inhabited, Repr

/-- A tag that never has content, so that its element is closed where it is opened. -/
def isVoidTag (tag : String) : Bool :=
  ["br", "hr", "img", "input", "meta", "link"].any (equalIgnoringCase tag)

namespace Tree

variable {α β : Type}

/-- An element. -/
def element (label : α) (tag : String) (attrs : Attributes) (children : List (Tree α)) : Tree α :=
  .node label (.element tag) attrs "" children

/-- A text. -/
def text (label : α) (data : String) : Tree α := .node label .text [] data []

/-- A comment. -/
def comment (label : α) (data : String) : Tree α := .node label .comment [] data []

/-- Several trees in a row. -/
def fragment (label : α) (children : List (Tree α)) : Tree α := .node label .fragment [] "" children

/-- The label of the root. -/
def label : Tree α → α
  | .node l _ _ _ _ => l

/-- What the root is. -/
def kind : Tree α → NodeKind
  | .node _ k _ _ _ => k

/-- The attributes of the root. -/
def attrs : Tree α → Attributes
  | .node _ _ as _ _ => as

/-- The data of the root. -/
def data : Tree α → String
  | .node _ _ _ d _ => d

/-- The trees below the root. -/
def children : Tree α → List (Tree α)
  | .node _ _ _ _ cs => cs

/-- Whether the root is an element of that tag. -/
def hasTag (tag : String) (t : Tree α) : Bool := t.kind.hasTag tag

mutual

/-- The tree with its labels changed. -/
def map (f : α → β) : Tree α → Tree β
  | .node l k as d cs => .node (f l) k as d (mapAll f cs)

/-- The trees with their labels changed. -/
def mapAll (f : α → β) : List (Tree α) → List (Tree β)
  | [] => []
  | t :: ts => map f t :: mapAll f ts

end

/-- The tree without its labels. -/
def plain (t : Tree α) : Tree Unit := t.map fun _ ↦ ()

mutual

/-- The labels of the tree, a node before its children. -/
def labels : Tree α → List α
  | .node l _ _ _ cs => l :: labelsAll cs

/-- The labels of the trees, one tree after the other. -/
def labelsAll : List (Tree α) → List α
  | [] => []
  | t :: ts => labels t ++ labelsAll ts

end

/-- The number of nodes. -/
def size (t : Tree α) : Nat := t.labels.length

mutual

/-- The data of all texts in the tree, in order. -/
def textContent : Tree α → List Char
  | .node _ k _ d cs =>
    match k with
    | .text => d.toList
    | .comment => []
    | .element _ | .fragment => textContentAll cs

/-- The data of all texts in the trees, in order. -/
def textContentAll : List (Tree α) → List Char
  | [] => []
  | t :: ts => textContent t ++ textContentAll ts

end

end Tree

end LiveMarkup
