import LiveMarkup.Markup.Tree

/-!
# Live nodes

Live nodes have identities and can be changed and moved. A store holds them all: the identity of a
node is its place in the store, identities are handed out in order and never again, and no node
leaves the store (`LiveMarkup.Node.Kept` says what becomes of nodes that nobody holds). Each node
lists its children and knows its parent. The operations keep the two in agreement: a node is a child
of exactly its parent, once, and a fragment is never a child, because what is inserted for a
fragment is its children.

A read or a change at an identity that was never handed out meets an empty fragment and changes
nothing, so that every operation is total.
-/

namespace LiveMarkup

/-- The identity of a node. -/
structure NodeId where
  index : Nat
deriving DecidableEq, Repr, Inhabited, Hashable

namespace NodeId

/-- The number by which a node is known: the first node is 1. -/
def number (n : NodeId) : Nat := n.index + 1

/-- The identity in words. -/
def text (n : NodeId) : String := s!"#{n.number}"

end NodeId

/-- A live node. -/
structure Node where
  kind : NodeKind
  attrs : Attributes := []
  /-- The text of a text or comment. -/
  data : String := ""
  children : List NodeId := []
  parent : Option NodeId := none
deriving Repr

instance : Inhabited Node := ⟨{ kind := .fragment }⟩

/-- All live nodes. -/
structure NodeStore where
  nodes : Array Node
deriving Inhabited

namespace NodeStore

/-- No nodes. -/
def empty : NodeStore := ⟨#[]⟩

/-- The node of an identity. -/
def get (s : NodeStore) (n : NodeId) : Node := s.nodes.getD n.index default

/-- The number of identities handed out. -/
def size (s : NodeStore) : Nat := s.nodes.size

/-- Changes the node of an identity. -/
def modify (s : NodeStore) (n : NodeId) (f : Node → Node) : NodeStore :=
  ⟨s.nodes.modify n.index f⟩

/-- Adds a node under the next identity. -/
def create (s : NodeStore) (node : Node) : NodeId × NodeStore :=
  (⟨s.nodes.size⟩, ⟨s.nodes.push node⟩)

@[simp] theorem size_modify (s : NodeStore) (n : NodeId) (f : Node → Node) :
    (s.modify n f).size = s.size := by simp [modify, size]

@[simp] theorem size_create (s : NodeStore) (node : Node) :
    (s.create node).2.size = s.size + 1 := by simp [create, size]

theorem get_modify_self {s : NodeStore} {n : NodeId} (h : n.index < s.size) (f : Node → Node) :
    (s.modify n f).get n = f (s.get n) := by
  have h' : n.index < s.nodes.size := h
  simp [modify, get, Array.getD_eq_getD_getElem?, h', Array.getElem_modify_self]

theorem get_modify_of_ne {n m : NodeId} (h : n ≠ m) (s : NodeStore) (f : Node → Node) :
    (s.modify n f).get m = s.get m := by
  have h' : n.index ≠ m.index := fun e ↦ h (congrArg NodeId.mk e)
  simp [modify, get, Array.getD_eq_getD_getElem?, Array.getElem?_modify, h']

theorem get_create_self (s : NodeStore) (node : Node) :
    (s.create node).2.get (s.create node).1 = node := by
  simp [create, get, Array.getD_eq_getD_getElem?]

theorem get_create_of_lt {s : NodeStore} {n : NodeId} (h : n.index < s.size) (node : Node) :
    (s.create node).2.get n = s.get n := by
  have h' : n.index < s.nodes.size := h
  simp [create, get, Array.getD_eq_getD_getElem?, Array.getElem?_push, Nat.ne_of_lt h']

/-! ## Attributes and data -/

/-- Gives an attribute a value, in its place if the node has it. -/
def setAttribute (s : NodeStore) (n : NodeId) (name value : String) : NodeStore :=
  s.modify n fun node ↦ { node with attrs := node.attrs.set name value }

/-- Takes an attribute away. -/
def removeAttribute (s : NodeStore) (n : NodeId) (name : String) : NodeStore :=
  s.modify n fun node ↦ { node with attrs := node.attrs.remove name }

/-- Sets the text of a text or comment. -/
def setData (s : NodeStore) (n : NodeId) (data : String) : NodeStore :=
  s.modify n fun node ↦ { node with data := data }

/-! ## Structure -/

/-- Makes `p` the parent, or leaves none. -/
def setParent (s : NodeStore) (n : NodeId) (p : Option NodeId) : NodeStore :=
  s.modify n fun node ↦ { node with parent := p }

/-- Makes `p` the parent of each of the nodes, or leaves them none. -/
def setParents (s : NodeStore) (ns : List NodeId) (p : Option NodeId) : NodeStore :=
  ns.foldl (fun s n ↦ s.setParent n p) s

/-- Sets the list of children. -/
def setChildren (s : NodeStore) (n : NodeId) (children : List NodeId) : NodeStore :=
  s.modify n fun node ↦ { node with children := children }

/-- Takes a node out of its parent; a node without one stays as it is. -/
def detach (s : NodeStore) (n : NodeId) : NodeStore :=
  match (s.get n).parent with
  | none => s
  | some p => (s.setChildren p ((s.get p).children.erase n)).setParent n none

/-- Takes out what is inserted for a node: a fragment's children, which leave it, or the node
itself, which leaves its parent. -/
def take (s : NodeStore) (n : NodeId) : List NodeId × NodeStore :=
  match (s.get n).kind with
  | .fragment =>
    let moved := (s.get n).children
    (moved, (s.setChildren n []).setParents moved none)
  | _ => ([n], s.detach n)

/-- Moves a node, or a fragment's children, to the end of `p`. -/
def append (s : NodeStore) (p n : NodeId) : NodeStore :=
  let (moved, s) := s.take n
  (s.setParents moved (some p)).setChildren p ((s.get p).children ++ moved)

/-- Puts `r`, or the children of a fragment `r`, in the place of `n`, and answers whether `n` had
a place. What is put there is taken out first; if that leaves `n` without a place, nothing is put
anywhere. -/
def replace (s : NodeStore) (n r : NodeId) : Bool × NodeStore :=
  match (s.get n).parent with
  | none => (false, s)
  | some p =>
    let (moved, s) := s.take r
    let children := (s.get p).children
    match children.idxOf? n with
    | none => (false, s)
    | some i =>
      let s := s.setChildren p (children.take i ++ moved ++ children.drop (i + 1))
      (true, (s.setParents moved (some p)).setParent n none)

/-- Makes `text` the whole content of a node: the data of a text or comment, and a single new text
instead of the children of any other. -/
def setTextContent (s : NodeStore) (n : NodeId) (text : String) : NodeStore :=
  if (s.get n).kind.isContainer then
    let s := (s.get n).children.foldl detach s
    let (t, s) := s.create { kind := .text, data := text }
    s.append n t
  else s.setData n text

/-! ## Trees -/

/-- The tree below a node, as far as `depth` generations. -/
def treeTo (s : NodeStore) (depth : Nat) (n : NodeId) : Tree NodeId :=
  let node := s.get n
  let children := match depth with
    | 0 => []
    | depth + 1 => node.children.map (s.treeTo depth)
  .node n node.kind node.attrs node.data children

/-- The tree below a node. Since no path down from a node meets a node twice, it has no more
generations than there are nodes. -/
def tree (s : NodeStore) (n : NodeId) : Tree NodeId := s.treeTo s.size n

mutual

/-- Adds new nodes in the shape of a tree, a parent before its children. -/
def plant {α : Type} (s : NodeStore) : Tree α → NodeId × NodeStore
  | .node _ kind attrs data children =>
    let (n, s) := s.create { kind, attrs, data }
    (n, s.plantBelow n children)

/-- Adds new nodes in the shape of trees at the end of `p`, one tree after the other. -/
def plantBelow {α : Type} (s : NodeStore) (p : NodeId) : List (Tree α) → NodeStore
  | [] => s
  | t :: ts =>
    let (n, s) := s.plant t
    (s.append p n).plantBelow p ts

end

/-- Adds new nodes in the shape of trees, and answers the roots. -/
def plantAll {α : Type} (s : NodeStore) : List (Tree α) → List NodeId × NodeStore
  | [] => ([], s)
  | t :: ts =>
    let (n, s) := s.plant t
    let (ns, s) := s.plantAll ts
    (n :: ns, s)

/-- A copy of the tree below a node, made of new nodes and attached to nothing. -/
def deepClone (s : NodeStore) (n : NodeId) : NodeId × NodeStore := s.plant (s.tree n)

/-- Hands out identities to nodes that nothing can reach. -/
def reserve (s : NodeStore) : Nat → NodeStore
  | 0 => s
  | k + 1 => ((s.create default).2).reserve k

/-- The position of `n` among the children of `p`. -/
def childAt? (s : NodeStore) (p : NodeId) (i : Nat) : Option NodeId := (s.get p).children[i]?

end NodeStore

end LiveMarkup
