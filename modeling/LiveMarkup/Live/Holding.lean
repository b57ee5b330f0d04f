import LiveMarkup.Live.ViewModel
import LiveMarkup.Node.Kept

/-!
# Who holds what

A node lasts as long as somebody holds it or a node above it, and a view-model as long as somebody
holds it. They are held by what the client keeps; by code that runs, until it ends; by disposers and
mount tables, which hold the bindings they can undo and the view-model these belong to; by
components, which hold their view-model, their template and what they have mounted; and by
assignments that are not over. A view-model holds the bindings in its ledger and the effects that
subscribe to its fields. A binding or an effect holds what its code works on, and nothing once the
effect is stopped. The effects of the two directives of this library hold their node only, and do
nothing once their view-model is gone.

Holders are counted, not traced: view-models that hold each other last, although nothing else holds
them (`Custody.lasting`).

Whether a node lasts shows only in the answer to the question for its children's parent. So the
library lets nothing go by itself. A client that asks for parents, or puts nodes in the place of
others, calls `Live.release` before, and when code of its own ends. That is often, and hardly ever
does anything go; so `Live.release` looks first whether the client and running code plainly hold all
there is (`Custody.isSettled`), before it asks what bindings hold.
-/

namespace LiveMarkup

variable {C H : Type}

/-! ## Nodes and view-models -/

/-- Nodes and view-models that something holds. -/
structure Grasp where
  nodes : List NodeId := []
  viewModels : List ViewModelId := []

namespace Grasp

/-- What several things hold together. -/
def join (gs : List Grasp) : Grasp := ⟨gs.flatMap nodes, gs.flatMap viewModels⟩

@[simp] theorem nodes_join (gs : List Grasp) : (join gs).nodes = gs.flatMap nodes := rfl

@[simp] theorem viewModels_join (gs : List Grasp) :
    (join gs).viewModels = gs.flatMap viewModels := rfl

end Grasp

/-- What a client holds. -/
structure Custody (C H : Type) where
  /-- What a piece of code works on. -/
  code : C → Grasp
  /-- What the client keeps. -/
  keeps : H → List (Held C)

namespace Custody

variable (custody : Custody C H) (g : Graph Value (Routine C)) (w : World C H)

/-! ## What each thing holds -/

/-- What the body of an effect holds. -/
def ofRoutine : Routine C → Grasp
  | .text _ node _ | .attr _ node _ _ | .interpolatedAttr _ node _ _ => { nodes := [node] }
  | .client code => custody.code code

/-- What an effect holds: nothing once it is stopped. -/
def ofEffect (e : EffectId) : Grasp := ((g.effect e).body.map custody.ofRoutine).getD {}

/-- What a binding holds. -/
def ofBinding : Binding C → Grasp
  | .effect e => custody.ofEffect g e
  | .client code => custody.code code

/-- What bindings, each with its identity, hold. -/
def ofBindings (bs : List (BindingId × Binding C)) : Grasp :=
  .join (bs.map fun b ↦ custody.ofBinding g b.2)

/-- What a mount table holds. -/
def ofTable (t : MountTable C) : Grasp :=
  .join (t.programs.map fun (_, d) ↦ .join [{ viewModels := [d.vm] }, custody.ofBindings g d.owned])

/-- What a component holds. -/
def ofComponent (c : Component C) : Grasp :=
  let mounted := match c.mounted with
    | some (node, roots) => node :: roots
    | none => []
  { nodes := c.template.toList ++ mounted, viewModels := [c.vm] }

/-- What is held by holding something. -/
def ofHeld : Held C → Grasp
  | .node n => { nodes := [n] }
  | .viewModel vm => { viewModels := [vm] }
  | .binding b => custody.ofBinding g b
  | .table t => custody.ofTable g (w.table t)
  | .component c => ofComponent (w.component c)

/-- What a view-model holds. -/
def ofViewModel (vm : ViewModelId) : Grasp :=
  let subscribers := (w.viewModel vm).fields.flatMap fun f ↦ (g.signal f.2).subscribers
  .join [custody.ofBindings g (w.ledgerOf vm).entries, .join (subscribers.map (custody.ofEffect g))]

/-- What is held by others than view-models. -/
def roots : Grasp :=
  .join
    [.join ((custody.keeps w.host).map (custody.ofHeld g w)),
      .join (w.holdings.flatten.map (custody.ofHeld g w)), .join (g.queue.map (custody.ofEffect g)),
      { viewModels := w.deferred.viewModels }]

/-! ## What lasts -/

/-- The marks of given view-models, of which there are `bound` in all. -/
def marks (bound : Nat) (vms : List ViewModelId) : Marks :=
  .ofList bound (vms.map ViewModelId.index)

/-- The given view-models that are held from outside or by one of the given ones. -/
def supported (bound : Nat) (outside : List ViewModelId)
    (holds : ViewModelId → List ViewModelId) (vms : List ViewModelId) : List ViewModelId :=
  let held := marks bound (outside ++ vms.flatMap holds)
  vms.filter fun vm ↦ held.has vm.index

/-- The largest part of the given view-models of which each is held from outside or by one of that
part: those that nobody holds go, then those that nobody holds any more, for as many rounds as there
can be. -/
def lasting (bound : Nat) (outside : List ViewModelId)
    (holds : ViewModelId → List ViewModelId) : (rounds : Nat) → List ViewModelId →
    List ViewModelId
  | 0, vms => vms
  | rounds + 1, vms =>
    let rest := supported bound outside holds vms
    if rest.length = vms.length then vms else lasting bound outside holds rounds rest

theorem supported_subset {bound : Nat} {outside : List ViewModelId}
    {holds : ViewModelId → List ViewModelId} (vms : List ViewModelId) :
    supported bound outside holds vms ⊆ vms :=
  fun _ h ↦ (List.mem_filter.mp h).1

theorem lasting_subset {bound : Nat} {outside : List ViewModelId}
    {holds : ViewModelId → List ViewModelId} (rounds : Nat) (vms : List ViewModelId) :
    lasting bound outside holds rounds vms ⊆ vms := by
  induction rounds generalizing vms with
  | zero => exact fun _ h ↦ h
  | succ rounds ih =>
    unfold lasting
    dsimp only
    split
    · exact fun _ h ↦ h
    · exact fun _ h ↦ supported_subset vms (ih _ h)

/-- The view-models that are not gone. -/
def present : List ViewModelId :=
  ((List.range w.viewModels.size).map ViewModelId.mk).filter fun vm ↦ !(w.viewModel vm).gone

/-- The view-models that last, and the nodes that are held directly. -/
def survey : Grasp :=
  let bound := w.viewModels.size
  let contents := Array.ofFn fun i : Fin bound ↦ custody.ofViewModel g w ⟨i⟩
  let content (vm : ViewModelId) : Grasp := contents.getD vm.index {}
  let roots := custody.roots g w
  let vms := lasting bound roots.viewModels (fun vm ↦ (content vm).viewModels) bound (present w)
  ⟨roots.nodes ++ vms.flatMap fun vm ↦ (content vm).nodes, vms⟩

/-- Adds a node that is plainly held, or the nodes of a component. -/
def addPlainNodes (nodes : List NodeId) : Held C → List NodeId
  | .node n => n :: nodes
  | .component c => (ofComponent (w.component c)).nodes ++ nodes
  | _ => nodes

/-- Adds a view-model that is plainly held, or that of a component. -/
def addPlainViewModels (vms : List ViewModelId) : Held C → List ViewModelId
  | .viewModel vm => vm :: vms
  | .component c => (w.component c).vm :: vms
  | _ => vms

/-- Whether the client and running code plainly hold, without a look at bindings, all view-models
that are not gone and all nodes that have children and no parent. -/
def isSettled : Bool :=
  let held := custody.keeps w.host :: w.holdings
  let nodes := held.foldl (List.foldl (addPlainNodes w)) []
  let vms := held.foldl (List.foldl (addPlainViewModels w)) []
  let kept := marks w.viewModels.size vms
  (present w).all (fun vm ↦ kept.has vm.index) && w.nodes.holdsTops nodes

end Custody

/-! ## Letting go -/

/-- The world in which the given view-models are the only ones that are not gone. -/
def World.keepViewModels (w : World C H) (vms : List ViewModelId) : World C H :=
  let kept := Custody.marks w.viewModels.size vms
  { w with viewModels := w.viewModels.mapIdx fun i vm ↦ { vm with gone := !kept.has i } }

/-- Lets go of what nobody holds: view-models, and nodes, whose children have no parent then. -/
def Live.release (custody : Custody C H) : Live C H Unit := do
  unless ← Live.ask custody.isSettled do
    let survey ← Script.ask fun g w ↦ custody.survey g w
    Live.change fun w ↦
      (w.keepViewModels survey.viewModels).modifyNodes fun nodes ↦ nodes.keepOnly survey.nodes

end LiveMarkup
