import LiveMarkup.Data.Marks
import LiveMarkup.Node.Store

/-!
# Keeping some of the nodes

A parent holds its children, but children do not hold their parent. So a node can go while others
hold a child of it; the child stays, without a parent.

A node that has a parent is held by it. So only a node at the top of a tree can go, if nobody else
holds it; its children are then at the top of trees themselves, and may go next. Given the nodes
that are held by others than their parents, `keepOnly` carries this out for a whole store. If these
are all the tops, nothing goes (`keepOnly_of_holdsTops`). A node without children leaves no trace
when it goes, so that such nodes are passed over. Identities are not given back: the store does not
shrink (`size_keepOnly`).
-/

namespace LiveMarkup

namespace NodeStore

/-! ## The tops of trees -/

/-- The nodes that have children and no parent. -/
def tops (s : NodeStore) : List NodeId :=
  s.size.foldRev (fun i _ tops ↦
    let node := s.get ⟨i⟩
    if node.parent.isNone && !node.children.isEmpty then ⟨i⟩ :: tops else tops) []

/-- The marks of given nodes. -/
def marks (s : NodeStore) (ns : List NodeId) : Marks := Marks.ofList s.size (ns.map NodeId.index)

/-- Whether all nodes that have children and no parent are among the given ones. -/
def holdsTops (s : NodeStore) (held : List NodeId) : Bool :=
  s.tops.all fun n ↦ (s.marks held).has n.index

/-! ## Letting go -/

/-- Takes the children out of a node. -/
def disband (s : NodeStore) (n : NodeId) : NodeStore :=
  (s.setChildren n []).setParents (s.get n).children none

/-- Lets go of a node without a parent, unless it is held: takes its children out of it, and lets go
of these, as far as `depth` generations. -/
def letGo (held : Marks) : (depth : Nat) → NodeStore → NodeId → NodeStore
  | 0, s, _ => s
  | depth + 1, s, n =>
    if held.has n.index then s else (s.get n).children.foldl (letGo held depth) (s.disband n)

/-- Lets go of all nodes that are neither among the given ones nor below one of them. Since no path
down from a node meets a node twice, no path has more generations than there are nodes. -/
def keepOnly (s : NodeStore) (held : List NodeId) : NodeStore :=
  s.tops.foldl (letGo (s.marks held) s.size) s

theorem letGo_of_has {held : Marks} {n : NodeId} (h : held.has n.index = true) (depth : Nat)
    (s : NodeStore) : letGo held depth s n = s := by
  cases depth <;> simp [letGo, h]

private theorem foldl_letGo_of_has {held : Marks} {ns : List NodeId}
    (h : ∀ n ∈ ns, held.has n.index = true) (depth : Nat) (s : NodeStore) :
    ns.foldl (letGo held depth) s = s := by
  induction ns with
  | nil => rfl
  | cons n ns ih =>
    rw [List.foldl_cons, letGo_of_has (h n (List.mem_cons_self ..)),
      ih fun m hm ↦ h m (List.mem_cons_of_mem _ hm)]

/-- If all tops are held, nothing goes. -/
theorem keepOnly_of_holdsTops {s : NodeStore} {held : List NodeId}
    (h : s.holdsTops held = true) : s.keepOnly held = s :=
  foldl_letGo_of_has (List.all_eq_true.mp h) s.size s

/-! ## The size -/

@[simp] theorem size_setParents (s : NodeStore) (ns : List NodeId) (p : Option NodeId) :
    (s.setParents ns p).size = s.size := by
  induction ns generalizing s with
  | nil => rfl
  | cons n ns ih => simpa [setParents, setParent] using ih (s.setParent n p)

@[simp] theorem size_disband (s : NodeStore) (n : NodeId) : (s.disband n).size = s.size := by
  simp [disband, setChildren]

private theorem size_foldl_of_size {f : NodeStore → NodeId → NodeStore}
    (h : ∀ s n, (f s n).size = s.size) (ns : List NodeId) (s : NodeStore) :
    (ns.foldl f s).size = s.size := by
  induction ns generalizing s with
  | nil => rfl
  | cons n ns ih => rw [List.foldl_cons, ih, h]

@[simp] theorem size_letGo (held : Marks) (depth : Nat) (s : NodeStore) (n : NodeId) :
    (letGo held depth s n).size = s.size := by
  induction depth generalizing s n with
  | zero => rfl
  | succ depth ih =>
    unfold letGo
    split
    · rfl
    · rw [size_foldl_of_size ih, size_disband]

/-- No identity is given back. -/
@[simp] theorem size_keepOnly (s : NodeStore) (held : List NodeId) :
    (s.keepOnly held).size = s.size := size_foldl_of_size (size_letGo _ _) _ s

end NodeStore

end LiveMarkup
