import LiveMarkup.Node.Store

/-!
# Diagnostics

A request for a directive that nobody defines is skipped. The finding says which name was asked
for, on which node, and by which attribute, if an attribute asked.
-/

namespace LiveMarkup

/-- A request that was skipped because its directive is unknown. -/
structure Diagnostic where
  name : String
  /-- The attribute that asked; none for text. -/
  attr : Option String
  node : NodeId
deriving DecidableEq, Repr

namespace Diagnostic

/-- The finding in words. -/
def message (d : Diagnostic) : String :=
  match d.attr with
  | some a => s!"unknown directive \x60{d.name}\x60 (attribute \x60{a}\x60 on node {d.node.text})"
  | none => s!"unknown directive \x60{d.name}\x60 on node {d.node.text}"

end Diagnostic

end LiveMarkup
