import LiveMarkup.Live.ViewModel

/-!
# Carrying out programs

A program is carried out on a live tree by applying its directives, one after the other, to the
nodes they belong to. Each application leaves a binding in the ledger of the scope's view-model.
The first failure ends it.

`execute` carries out a program and answers a disposer, which owns every binding that reached the
ledger meanwhile. If the program fails, those bindings are undone and removed before the failure
is answered, so that a failed execution leaves nothing behind. Disposing undoes the owned bindings
in the order of their creation and removes them from the ledger, wherever they then stand.
-/

namespace LiveMarkup

variable {C H α : Type}

/-- Code that can fail to carry out a program. -/
abbrev Linking (C H α : Type) : Type := ExceptT LinkError (Live C H) α

namespace Linking

/-- Code that cannot fail. -/
def live (p : Live C H α) : Linking C H α := ExceptT.lift p

/-- A result, or a failure. -/
def ofExcept (e : Except LinkError α) : Linking C H α := ExceptT.mk (pure e)

/-- Runs code that holds some things until it ends or fails. -/
def holding (hs : List (Held C)) (p : Linking C H α) : Linking C H α :=
  ExceptT.mk (Live.holding hs p.run)

end Linking

namespace Binding

/-- Undoes what the binding has installed. -/
def dispose : Binding C → Live C H Unit
  | .effect e => Live.stop e
  | .client code => Live.perform code

end Binding

namespace Routine

/-- What the body of an effect does. -/
def script : Routine C → Live C H Unit
  | .text vm node expression => vm.unlessGone do
    let text ← vm.evaluateText expression.toList
    Live.edit fun nodes ↦ nodes.setTextContent node text
  | .attr vm node name expression => vm.unlessGone do
    let value ← vm.evaluateText expression.toList
    Live.edit fun nodes ↦ nodes.setAttribute node name value
  | .interpolatedAttr vm node name template => vm.unlessGone do
    let value ← vm.interpolate template
    Live.edit fun nodes ↦ nodes.setAttribute node name value
  | .client code => Live.perform code

end Routine

namespace Descriptor

/-- The attribute to write and the text before and behind the first colon. -/
def splitColon? : List Char → Option (List Char × List Char)
  | [] => none
  | c :: r =>
    if c = ':' then some ([], r)
    else (splitColon? r).map fun (before, after) ↦ (c :: before, after)

/-- The routine that keeps an attribute up to date as the descriptor asks, or why there is none.
An attribute whose own value is interpolated is written itself; otherwise the expression names the
attribute before a colon. -/
def attributeRoutine (d : Descriptor) (vm : ViewModelId) (node : NodeId) :
    Except String (Routine C) := do
  let (name, expression) ← match d.attrName with
    | some name => pure (name, d.expression)
    | none =>
      match splitColon? d.expression.toList with
      | some (name, expression) =>
        pure (String.ofList (trim name), String.ofList (trim expression))
      | none =>
        throw s!"expected \x60attribute: expression\x60, got \x60{d.expression}\x60"
  if name.isEmpty then throw "attribute name is empty"
  else if d.interpolate then return .interpolatedAttr vm node name expression
  else return .attr vm node name expression

end Descriptor

namespace Application

/-- Makes the binding of a directive on a node, or answers the directive's reason not to. -/
def bind (a : Application C) (scope : Scope) (node : NodeId) :
    Live C H (Except String (Binding C)) :=
  match a.directive.behaviour with
  | .text => do
    return .ok (.effect (← Live.effect (.text scope.vm node a.descriptor.expression)))
  | .attr =>
    match a.descriptor.attributeRoutine scope.vm node with
    | .ok routine => do return .ok (.effect (← Live.effect routine))
    | .error reason => return .error reason
  | .client code => Live.call (.bind code scope node a.descriptor)

/-- Applies a directive to a node: the attribute that asked goes, unless it is retained, and the
binding is entered into the ledger. -/
def apply (a : Application C) (scope : Scope) (node : NodeId) : Linking C H Unit := do
  if let some attr := a.descriptor.sourceAttr then
    unless a.directive.retain do
      Linking.live (Live.edit fun nodes ↦ nodes.removeAttribute node attr)
  match ← Linking.live (a.bind scope node) with
  | .error reason => throw (.directive a.descriptor.name reason)
  | .ok binding =>
    Linking.live (Live.change fun w ↦
      w.modifyLedger (w.viewModel scope.vm).ledger fun l ↦ (l.register binding).2)

/-- Applies directives to a node one after the other. -/
def applyAll (scope : Scope) (node : NodeId) : List (Application C) → Linking C H Unit
  | [] => return ()
  | a :: as => do
    a.apply scope node
    applyAll scope node as

end Application

namespace Piece

/-- The tree of a new text for a piece; a slot starts empty. -/
def toTree : Piece C → Tree Unit
  | .literal text => .text () text
  | .slot _ => .text () ""

/-- Applies the directives of the slots among pieces, each to its text. -/
def applyAll (scope : Scope) : List (Piece C) → List NodeId → Linking C H Unit
  | .slot a :: pieces, n :: ns => do
    a.apply scope n
    applyAll scope pieces ns
  | .literal _ :: pieces, _ :: ns => applyAll scope pieces ns
  | _, _ => return ()

end Piece

namespace Program

mutual

/-- Carries out a program on a target. -/
def link (scope : Scope) (target : Target) : Program C → Linking C H Unit
  | .terminal a => do
    let node ← Linking.ofExcept target.single
    a.apply scope node
  | .directives a as => do
    let node ← Linking.ofExcept target.single
    Application.applyAll scope node (a :: as)
  | .text pieces => do
    let node ← Linking.ofExcept target.single
    let fragment ← Linking.live (Live.editWith fun nodes ↦
      nodes.plant (Tree.fragment () (pieces.map Piece.toTree)))
    let texts ← Linking.live (Live.ask fun w ↦ (w.nodes.get fragment).children)
    Linking.holding ((fragment :: texts).map .node) (Piece.applyAll scope pieces texts)
    let _ ← Linking.live (Live.editWith fun nodes ↦ nodes.replace node fragment)
  | .textarea as => do
    let node ← Linking.ofExcept target.single
    let content ← Linking.live (Live.ask fun w ↦ (w.nodes.tree node).textContent)
    let text ← Linking.live (scope.vm.interpolate (String.ofList content))
    Linking.live (Live.edit fun nodes ↦ nodes.setTextContent node text)
    Application.applyAll scope node as
  | .both own children => do
    let node ← Linking.ofExcept target.single
    own.link scope (.node node)
    children.link scope (.node node)
  | .siblings programs => do
    let nodes ← Linking.live (Live.ask fun w ↦ target.row w.nodes)
    if nodes.length = programs.length then
      Linking.holding (nodes.map .node) (linkEach scope nodes programs)
    else throw (.structuralMismatch programs.length nodes.length)
  | .client _ _ code => ExceptT.mk (Live.call (.link code scope target))

/-- Carries out programs, each on its node. -/
def linkEach (scope : Scope) : List NodeId → List (Option (Program C)) → Linking C H Unit
  | n :: ns, some p :: ps => do
    p.link scope (.node n)
    linkEach scope ns ps
  | _ :: ns, none :: ps => linkEach scope ns ps
  | _, _ => return ()

end

end Program

namespace Disposer

/-- Undoes bindings in order. -/
def disposeAll : List (BindingId × Binding C) → Live C H Unit
  | [] => return ()
  | (_, b) :: rest => do
    b.dispose
    disposeAll rest

/-- Undoes what is owned, in order of creation, and removes it from the ledger. -/
def dispose (d : Disposer C) : Live C H Unit := do
  Live.holding d.held (disposeAll d.owned)
  Live.change fun w ↦ w.modifyLedger (w.viewModel d.vm).ledger fun l ↦ l.remove d.ids

end Disposer

namespace Live

/-- The bindings that reached the ledger of a view-model at or after a mark, as a disposer. -/
def ownedSince (vm : ViewModelId) (mark : BindingId) : Live C H (Disposer C) :=
  ask fun w ↦ ⟨vm, (w.ledgerOf vm).since mark⟩

/-- Carries out a program, if there is one, and answers what it has installed. If it fails, what it
has installed is undone first. -/
def execute (program : Option (Program C)) (scope : Scope) (target : Target) :
    Live C H (Except LinkError (Disposer C)) := do
  let mark ← ask fun w ↦ (w.ledgerOf scope.vm).watermark
  let result ← match program with
    | some p => (p.link scope target).run
    | none => pure (.ok ())
  match result with
  | .ok () => return .ok (← ownedSince scope.vm mark)
  | .error e =>
    (← ownedSince scope.vm mark).dispose
    return .error e

end Live

end LiveMarkup
