import LiveMarkup.Live.World
import LiveMarkup.Template.Expression

/-!
# View-models

The fields of a view-model are signals by name. A field comes into being, as `null`, when it is
declared or first written; reading a field that does not exist gives `null` and subscribes nobody.
Expressions and interpolated texts are evaluated against the fields, and such reads are tracked:
an effect that evaluates an expression runs again when the field is written.

A view-model can also make an assignment whose value arrives later. The field is declared at once;
the assignment is carried out when the assignment is looked at after its value has arrived, also
if the view-model has been disposed by then. Assignments are looked at in the order in which they
became ready: one that waits becomes ready when its value or its rejection arrives, and the new ones
become ready, in order, only when somebody is about to look.
-/

namespace LiveMarkup

variable {C H : Type}

namespace ViewModelId

/-- The signal of a field, which is made, with the value `null`, if there is none. -/
def declare (vm : ViewModelId) (name : String) : Live C H SignalId := do
  match ← Live.ask fun w ↦ (w.viewModel vm).field? name with
  | some s => return s
  | none =>
    let s ← Live.newSignal .null
    Live.change fun w ↦
      w.modifyViewModel vm fun m ↦ { m with fields := m.fields ++ [(name, s)] }
    return s

/-- Whether there is a field of that name. -/
def hasField (vm : ViewModelId) (name : String) : Live C H Bool :=
  Live.ask fun w ↦ ((w.viewModel vm).field? name).isSome

/-- Writes a field. -/
def set (vm : ViewModelId) (name : String) (v : Value) : Live C H Unit := do
  Live.write (← vm.declare name) v

/-- Reads a field. -/
def get (vm : ViewModelId) (name : String) : Live C H Value := do
  match ← Live.ask fun w ↦ (w.viewModel vm).field? name with
  | some s => Live.read s
  | none => return .null

/-- Writes fields one after the other. -/
def setAll (vm : ViewModelId) : List (String × Value) → Live C H Unit
  | [] => return ()
  | (name, v) :: rest => do
    vm.set name v
    vm.setAll rest

/-- A new view-model whose fields are the members of an object; it has none for any other
value. -/
def ofData (data : Value) : Live C H ViewModelId := do
  let vm ← Live.act World.addViewModel
  match data with
  | .object members => vm.setAll members
  | _ => pure ()
  return vm

/-- The value of an expression. -/
def evaluate (vm : ViewModelId) (expression : List Char) : Live C H Value :=
  match Expression.parse expression with
  | .constant v => return v
  | .path head segments => do return (← vm.get head).descend segments

/-- The value of an expression as text. -/
def evaluateText (vm : ViewModelId) (expression : List Char) : Live C H String := do
  return (← vm.evaluate expression).display

/-- The text of tokens, each expression replaced by its value. -/
def interpolateTokens (vm : ViewModelId) : List Token → Live C H (List Char)
  | [] => return []
  | .literal text :: rest => do return text ++ (← vm.interpolateTokens rest)
  | .expression source :: rest => do
    let text ← vm.evaluateText source
    return text.toList ++ (← vm.interpolateTokens rest)

/-- A text with each expression replaced by its value. -/
def interpolate (vm : ViewModelId) (template : String) : Live C H String := do
  return String.ofList (← vm.interpolateTokens (Interpolation.tokenize template.toList))

/-- Whether the view-model was disposed. -/
def isDisposed (vm : ViewModelId) : Live C H Bool := Live.ask fun w ↦ (w.viewModel vm).disposed

/-- Marks the view-model as disposed. -/
def markDisposed (vm : ViewModelId) : Live C H Unit :=
  Live.change fun w ↦ w.modifyViewModel vm fun m ↦ { m with disposed := true }

/-- Runs code of somebody who does not hold the view-model, which is skipped if it is gone. -/
def unlessGone (vm : ViewModelId) (p : Live C H Unit) : Live C H Unit := do
  if ← Live.ask fun w ↦ (w.viewModel vm).gone then return () else p

end ViewModelId

namespace LifecycleId

/-- Adds a hook. -/
def register (l : LifecycleId) (moment : Moment) (hook : C) : Live C H Unit :=
  Live.change fun w ↦ w.modifyLifecycle l fun hooks ↦ hooks.register hook moment

/-- Performs pieces of code one after the other. -/
def performAll : List C → Live C H Unit
  | [] => return ()
  | code :: rest => do
    Live.perform code
    performAll rest

/-- Takes out all hooks that wait for a moment and performs them in order. -/
def run (l : LifecycleId) (moment : Moment) : Live C H Unit := do
  let hooks ← Live.act fun w ↦
    let (hooks, rest) := (w.lifecycle l).drain moment
    (hooks, w.modifyLifecycle l fun _ ↦ rest)
  performAll hooks

end LifecycleId

/-! ## Assignments whose values arrive later -/

namespace Deferred

/-- Changes an assignment. -/
def modify (d : Deferred) (i : AssignmentId) (f : Assignment → Assignment) : Deferred :=
  { d with assignments := d.assignments.modify i.index f }

/-- The assignment of an identity. -/
def get (d : Deferred) (i : AssignmentId) : Assignment := d.assignments.getD i.index default

/-- The view-models of the assignments that are not over. -/
def viewModels (d : Deferred) : List ViewModelId :=
  (d.ready ++ d.fresh).map (fun i ↦ (d.get i).vm) ++
    (d.assignments.toList.filter Assignment.waiting).map Assignment.vm

/-- Adds a new assignment. -/
def add (d : Deferred) (vm : ViewModelId) (field : String) : AssignmentId × Deferred :=
  let i : AssignmentId := ⟨d.assignments.size⟩
  (i, { d with
    assignments := d.assignments.push ⟨vm, field, .open, false⟩, fresh := d.fresh ++ [i] })

/-- Records what has arrived for an assignment, unless something has arrived before, and wakes an
assignment that waits. -/
def arrive (d : Deferred) (i : AssignmentId) (arrival : Arrival) : Deferred :=
  match (d.get i).arrival with
  | .open =>
    let woken := if (d.get i).waiting then { d with ready := d.ready ++ [i] } else d
    woken.modify i fun a ↦ { a with arrival, waiting := false }
  | _ => d

/-- Takes out the next ready assignment, after the new ones have become ready; one for which nothing
has arrived waits from now on. -/
def next? (d : Deferred) : Option (Assignment × Deferred) :=
  match d.ready ++ d.fresh with
  | [] => none
  | i :: rest =>
    let a := d.get i
    let d := { d with ready := rest, fresh := [] }
    match a.arrival with
    | .open => some (a, d.modify i fun a ↦ { a with waiting := true })
    | _ => some (a, d)

end Deferred

namespace ViewModelId

/-- Declares a field and makes an assignment to it whose value arrives later. -/
def assignLater (vm : ViewModelId) (field : String) : Live C H AssignmentId := do
  let _ ← vm.declare field
  Live.act fun w ↦
    let (i, deferred) := w.deferred.add vm field
    (i, { w with deferred })

end ViewModelId

namespace AssignmentId

/-- Records what has arrived for the assignment. -/
def arrive (i : AssignmentId) (arrival : Arrival) : Live C H Unit :=
  Live.change fun w ↦ { w with deferred := w.deferred.arrive i arrival }

end AssignmentId

namespace Live

/-- Looks at ready assignments, and carries out those whose value has arrived, until none is
ready. -/
def resume : Live C H Unit := do
  let next ← act fun w ↦
    match w.deferred.next? with
    | some (a, deferred) => (some a, { w with deferred })
    | none => (none, w)
  match next with
  | none => return ()
  | some a =>
    match a.arrival with
    | .fulfilled v => holding [.viewModel a.vm] (a.vm.set a.field v)
    | .open | .rejected => pure ()
    call .resume

end Live

end LiveMarkup
