import LiveMarkup.Live.Link

/-!
# Mount tables

A mount table records what is mounted on which node, at most one program per node. A node that has
one is refused before anything is carried out.
-/

namespace LiveMarkup

variable {C H : Type}

namespace TableId

/-- Carries out a program and records the result under `node`, which must be free. -/
def mount (table : TableId) (node : NodeId) (program : Option (Program C)) (scope : Scope)
    (target : Target) : Live C H (Except MountError Unit) := do
  if ← Live.ask fun w ↦ (w.table table).isMounted node then
    return .error (.alreadyMounted node)
  match ← Live.execute program scope target with
  | .error e => return .error (.link e)
  | .ok disposer =>
    Live.change fun w ↦ w.modifyTable table fun t ↦ t.insert node disposer
    return .ok ()

/-- Takes what is mounted on a node out of the table and disposes it; answers whether there was
anything. -/
def unmount (table : TableId) (node : NodeId) : Live C H Bool := do
  match ← Live.act fun w ↦
      ((w.table table).find? node, w.modifyTable table fun t ↦ t.erase node) with
  | some disposer =>
    disposer.dispose
    return true
  | none => return false

end TableId

end LiveMarkup
