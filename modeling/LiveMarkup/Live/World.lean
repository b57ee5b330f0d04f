import LiveMarkup.Binding.Compile
import LiveMarkup.Data.Value
import LiveMarkup.Live.Error
import LiveMarkup.Model.Ledger
import LiveMarkup.Model.Lifecycle
import LiveMarkup.Reactive.Run

/-!
# The world that code works on

Beside the reactive graph, code works on a world of live nodes, view-models, ledgers, lifecycles,
compilers, mount tables and components, each known by its place in a list, and on whatever else a
client keeps. Code is written as scripts over that world, `Live C H`, where `C` is the type of the
client's tokens for its own code and `H` the type of what it keeps. Code that works on nodes or
other things which nobody else may hold enters them, while it runs, among the holdings of the world
(`Live.holding`).

Code is called by token: to perform it, to let it bind a directive, or to let it carry out a
program. What the tokens mean is not part of the world; `LiveMarkup.Live.Client` gives it.
-/

namespace LiveMarkup

/-- The identity of a ledger. -/
structure LedgerId where
  index : Nat
deriving DecidableEq, Repr, Inhabited

/-- The identity of a lifecycle. -/
structure LifecycleId where
  index : Nat
deriving DecidableEq, Repr, Inhabited

/-- The identity of a compiler. -/
structure CompilerId where
  index : Nat
deriving DecidableEq, Repr, Inhabited

/-- The identity of a mount table. -/
structure TableId where
  index : Nat
deriving DecidableEq, Repr, Inhabited

/-- The identity of a component. -/
structure ComponentId where
  index : Nat
deriving DecidableEq, Repr, Inhabited

/-- The identity of an assignment that waits for its value. -/
structure AssignmentId where
  index : Nat
deriving DecidableEq, Repr, Inhabited

/-- Named reactive fields, with the ledger and the lifecycle of whoever shows them. -/
structure ViewModel where
  fields : List (String × SignalId)
  ledger : LedgerId
  lifecycle : LifecycleId
  disposed : Bool
  /-- Whether nobody holds the view-model any more. -/
  gone : Bool
deriving Inhabited

namespace ViewModel

/-- The signal of a field. -/
def field? (vm : ViewModel) (name : String) : Option SignalId := vm.fields.lookup name

end ViewModel

/-- Where code is carried out. -/
structure Scope where
  /-- The view-model whose ledger receives the bindings. -/
  vm : ViewModelId
  /-- The view-model of the component around. -/
  owner : Option ViewModelId := none
  /-- A node that marks a place for directives. -/
  placeholder : Option NodeId := none
deriving DecidableEq, Repr

/-- What a program is carried out on: one node, or a row of nodes. A program for siblings that is
given one node works on its children. -/
inductive Target where
  | node (n : NodeId)
  | nodes (ns : List NodeId)
deriving DecidableEq, Repr

namespace Target

/-- The one node of the target. -/
def single : Target → Except LinkError NodeId
  | .node n | .nodes [n] => .ok n
  | .nodes ns => .error (.structuralMismatch 1 ns.length)

/-- The row of nodes that the target stands for. -/
def row (nodes : NodeStore) : Target → List NodeId
  | .node n => (nodes.get n).children
  | .nodes ns => ns

end Target

/-- What one execution has installed, and for whom. -/
structure Disposer (C : Type) where
  vm : ViewModelId
  owned : List (BindingId × Binding C)

namespace Disposer

/-- The identities of what is installed, in order. -/
def ids {C : Type} (d : Disposer C) : List BindingId := d.owned.map (·.1)

end Disposer

/-- Something that can be held. -/
inductive Held (C : Type) where
  | node (n : NodeId)
  | viewModel (vm : ViewModelId)
  | binding (b : Binding C)
  | table (t : TableId)
  | component (c : ComponentId)

namespace Disposer

/-- What a disposer holds. -/
def held {C : Type} (d : Disposer C) : List (Held C) :=
  .viewModel d.vm :: d.owned.map fun b ↦ .binding b.2

end Disposer

/-- The programs that are mounted, by the node they are mounted on. -/
structure MountTable (C : Type) where
  programs : List (NodeId × Disposer C)
deriving Inhabited

namespace MountTable

variable {C : Type}

/-- Nothing mounted. -/
def empty : MountTable C := ⟨[]⟩

/-- What is mounted on a node. -/
def find? (t : MountTable C) (n : NodeId) : Option (Disposer C) := t.programs.lookup n

/-- Whether something is mounted on a node. -/
def isMounted (t : MountTable C) (n : NodeId) : Bool := (t.find? n).isSome

/-- The table without what is mounted on a node. -/
def erase (t : MountTable C) (n : NodeId) : MountTable C :=
  ⟨t.programs.filter fun p ↦ p.1 != n⟩

/-- Records what is mounted on a node, in place of what was. -/
def insert (t : MountTable C) (n : NodeId) (d : Disposer C) : MountTable C :=
  ⟨(n, d) :: (t.erase n).programs⟩

/-- The number of nodes on which something is mounted. -/
def size (t : MountTable C) : Nat := t.programs.length

end MountTable

/-- A view-model with its compiled template. -/
structure Component (C : Type) where
  name : String
  vm : ViewModelId
  /-- The fragment of the template, unless it could not be had. -/
  template : Option NodeId
  /-- What has to be installed on a copy of the template. -/
  program : Option (Program C)
  /-- Where it is mounted, and the nodes it has put there. -/
  mounted : Option (NodeId × List NodeId)

instance {C : Type} : Inhabited (Component C) := ⟨⟨"", default, none, none, none⟩⟩

/-- A compiler with the reports of what it has compiled so far. -/
structure CompilerState (C : Type) where
  compiler : Compiler C
  diagnostics : List Diagnostic

instance {C : Type} : Inhabited (CompilerState C) := ⟨⟨⟨.empty, {}⟩, []⟩⟩

/-- How far an assignment has come whose value arrives later. -/
inductive Arrival where
  /-- Nothing has arrived. -/
  | open
  /-- The value has arrived. -/
  | fulfilled (value : Value)
  /-- No value will arrive. -/
  | rejected
deriving Repr

/-- An assignment to a field, whose value arrives later. -/
structure Assignment where
  vm : ViewModelId
  field : String
  arrival : Arrival
  /-- Whether it was looked at and waits to be woken. -/
  waiting : Bool

instance : Inhabited Assignment := ⟨⟨default, "", .open, false⟩⟩

/-- The assignments whose values arrive later. -/
structure Deferred where
  assignments : Array Assignment
  /-- The assignments to look at, the next one first. -/
  ready : List AssignmentId
  /-- The assignments that are new since the last look, to be looked at behind all that are ready
  by then. -/
  fresh : List AssignmentId
deriving Inhabited

/-- Everything code works on, beside the reactive graph. -/
structure World (C H : Type) where
  nodes : NodeStore := .empty
  viewModels : Array ViewModel := #[]
  ledgers : Array (Ledger (Binding C)) := #[]
  lifecycles : Array (Lifecycle C) := #[]
  compilers : Array (CompilerState C) := #[]
  tables : Array (MountTable C) := #[]
  components : Array (Component C) := #[]
  deferred : Deferred := ⟨#[], [], []⟩
  /-- What running code holds until it ends, the innermost first. -/
  holdings : List (List (Held C)) := []
  /-- What the client keeps. -/
  host : H

namespace World

variable {C H : Type}

/-- The view-model of an identity. -/
def viewModel (w : World C H) (i : ViewModelId) : ViewModel := w.viewModels.getD i.index default

/-- The ledger of an identity. -/
def ledger (w : World C H) (i : LedgerId) : Ledger (Binding C) := w.ledgers.getD i.index default

/-- The lifecycle of an identity. -/
def lifecycle (w : World C H) (i : LifecycleId) : Lifecycle C :=
  w.lifecycles.getD i.index default

/-- The compiler of an identity. -/
def compiler (w : World C H) (i : CompilerId) : CompilerState C :=
  w.compilers.getD i.index default

/-- The mount table of an identity. -/
def table (w : World C H) (i : TableId) : MountTable C := w.tables.getD i.index default

/-- The component of an identity. -/
def component (w : World C H) (i : ComponentId) : Component C :=
  w.components.getD i.index default

/-- The ledger of a view-model. -/
def ledgerOf (w : World C H) (i : ViewModelId) : Ledger (Binding C) :=
  w.ledger (w.viewModel i).ledger

/-- Changes a view-model. -/
def modifyViewModel (w : World C H) (i : ViewModelId) (f : ViewModel → ViewModel) : World C H :=
  { w with viewModels := w.viewModels.modify i.index f }

/-- Changes a ledger. -/
def modifyLedger (w : World C H) (i : LedgerId)
    (f : Ledger (Binding C) → Ledger (Binding C)) : World C H :=
  { w with ledgers := w.ledgers.modify i.index f }

/-- Changes a lifecycle. -/
def modifyLifecycle (w : World C H) (i : LifecycleId) (f : Lifecycle C → Lifecycle C) :
    World C H :=
  { w with lifecycles := w.lifecycles.modify i.index f }

/-- Changes a compiler. -/
def modifyCompiler (w : World C H) (i : CompilerId) (f : CompilerState C → CompilerState C) :
    World C H :=
  { w with compilers := w.compilers.modify i.index f }

/-- Changes a mount table. -/
def modifyTable (w : World C H) (i : TableId) (f : MountTable C → MountTable C) : World C H :=
  { w with tables := w.tables.modify i.index f }

/-- Changes a component. -/
def modifyComponent (w : World C H) (i : ComponentId) (f : Component C → Component C) :
    World C H :=
  { w with components := w.components.modify i.index f }

/-- Changes the nodes. -/
def modifyNodes (w : World C H) (f : NodeStore → NodeStore) : World C H :=
  { w with nodes := f w.nodes }

/-- Adds a ledger. -/
def addLedger (w : World C H) : LedgerId × World C H :=
  (⟨w.ledgers.size⟩, { w with ledgers := w.ledgers.push .empty })

/-- Adds a lifecycle. -/
def addLifecycle (w : World C H) : LifecycleId × World C H :=
  (⟨w.lifecycles.size⟩, { w with lifecycles := w.lifecycles.push {} })

/-- Adds a view-model without fields, with a ledger and a lifecycle of its own. -/
def addViewModel (w : World C H) : ViewModelId × World C H :=
  let (ledger, w) := w.addLedger
  let (lifecycle, w) := w.addLifecycle
  (⟨w.viewModels.size⟩,
    { w with viewModels := w.viewModels.push ⟨[], ledger, lifecycle, false, false⟩ })

/-- Adds a compiler. -/
def addCompiler (w : World C H) (c : Compiler C) : CompilerId × World C H :=
  (⟨w.compilers.size⟩, { w with compilers := w.compilers.push ⟨c, []⟩ })

/-- Adds a mount table. -/
def addTable (w : World C H) : TableId × World C H :=
  (⟨w.tables.size⟩, { w with tables := w.tables.push .empty })

/-- Adds a component. -/
def addComponent (w : World C H) (c : Component C) : ComponentId × World C H :=
  (⟨w.components.size⟩, { w with components := w.components.push c })

end World

/-- A piece of code that is asked for by its token. -/
inductive Call (C : Type) where
  /-- Performs a client's code. -/
  | perform (code : C)
  /-- Lets a client's directive bind a node. -/
  | bind (code : C) (scope : Scope) (node : NodeId) (descriptor : Descriptor)
  /-- Lets a client carry out a program of its own. -/
  | link (code : C) (scope : Scope) (target : Target)
  /-- Looks at deferred assignments until none is ready. -/
  | resume

/-- What a call answers. -/
@[reducible] def Call.Answer {C : Type} : Call C → Type
  | .perform _ | .resume => Unit
  | .bind .. => Except String (Binding C)
  | .link .. => Except LinkError Unit

/-- Code over a graph of data values and a world. -/
abbrev Live (C H α : Type) : Type :=
  Script Value (Routine C) (World C H) (Call C) Call.Answer α

namespace Live

variable {C H α : Type}

/-- Looks at the world. -/
def ask (f : World C H → α) : Live C H α := Script.ask fun _ w ↦ f w

/-- Looks at the graph. -/
def askGraph (f : Graph Value (Routine C) → α) : Live C H α := Script.ask fun g _ ↦ f g

/-- Changes the world. -/
def change (f : World C H → World C H) : Live C H Unit := Script.change f (Script.done ())

/-- Changes the world and answers something. -/
def act (f : World C H → α × World C H) : Live C H α :=
  Script.look fun _ w ↦ Script.change (fun _ ↦ (f w).2) (Script.done (f w).1)

/-- Runs code that holds some things until it ends. -/
def holding (hs : List (Held C)) (p : Live C H α) : Live C H α := do
  change fun w ↦ { w with holdings := hs :: w.holdings }
  let a ← p
  change fun w ↦ { w with holdings := w.holdings.tail }
  return a

/-- Changes the nodes. -/
def edit (f : NodeStore → NodeStore) : Live C H Unit := change fun w ↦ w.modifyNodes f

/-- Changes the nodes and answers something. -/
def editWith (f : NodeStore → α × NodeStore) : Live C H α :=
  act fun w ↦ let (a, nodes) := f w.nodes; (a, { w with nodes })

/-- Makes a signal. -/
def newSignal (v : Value) : Live C H SignalId := Script.newSignal v Script.done

/-- Reads a signal, which subscribes the running effect. -/
def read (s : SignalId) : Live C H Value := Script.read s Script.done

/-- The value of a signal; this subscribes nobody. -/
def peek (s : SignalId) : Live C H Value := askGraph fun g ↦ g.value s

/-- Writes a signal. -/
def write (s : SignalId) (v : Value) : Live C H Unit := Script.write s v (Script.done ())

/-- Makes an effect and runs it at once. -/
def effect (body : Routine C) : Live C H EffectId := Script.effect body Script.done

/-- Stops an effect. -/
def stop (e : EffectId) : Live C H Unit := Script.stop e (Script.done ())

/-- Asks for a call to be carried out. -/
def call (q : Call C) : Live C H q.Answer := Script.call q Script.done

/-- Performs a client's code. -/
def perform (code : C) : Live C H Unit := call (.perform code)

end Live

end LiveMarkup
