import LiveMarkup.Live.World
import LiveMarkup.Markup.Printer
import LiveMarkup.Text.Quoted

/-!
# Descriptions

How records are shown to somebody who looks for a mistake: by the name of the record and the names
of its fields.
-/

namespace LiveMarkup

variable {C : Type}

namespace Description

/-- A record with its fields. -/
def record (name : String) (fields : List (String × String)) : String :=
  let shown := ", ".intercalate (fields.map fun (field, value) ↦ s!"{field}: {value}")
  s!"{name} \x7b {shown} \x7d"

/-- A value that may be absent. -/
def optional : Option String → String
  | some s => s!"Some({Quoted.quote s})"
  | none => "None"

/-- A row of values. -/
def row (values : List String) : String := "[" ++ ", ".intercalate values ++ "]"

end Description

namespace BindingId

/-- The description of an identity. -/
def describe (b : BindingId) : String := s!"BindingId({b.index})"

end BindingId

namespace Descriptor

/-- The description of a request. -/
def describe (d : Descriptor) : String :=
  Description.record "Descriptor"
    [("name", Quoted.quote d.name), ("expression", Quoted.quote d.expression),
      ("attr_name", Description.optional d.attrName),
      ("source_attr", Description.optional d.sourceAttr),
      ("terminal", toString d.terminal), ("interpolate", toString d.interpolate)]

end Descriptor

namespace Application

/-- The description of an application. -/
def describe (a : Application C) : String :=
  Description.record "ResolvedDescriptor"
    [("descriptor", a.descriptor.describe), ("priority", toString a.priority)]

end Application

namespace Program

/-- The description of a program, which shows only its two flags. -/
def describe (p : Program C) : String :=
  s!"CompiledUnit \x7b terminal: {p.isTerminal}, priority: {p.priority}, .. \x7d"

end Program

namespace Disposer

/-- The description of a disposer. -/
def describe (d : Disposer C) : String :=
  Description.record "Disposer" [("owned", Description.row (d.ids.map BindingId.describe))]

end Disposer

/-- The description of ledger entries. -/
def describeEntries (entries : List (BindingId × Binding C)) : String :=
  Description.row (entries.map fun e ↦ s!"OwnedBinding({e.1.describe})")

namespace NodeStore

/-- The description of a node: its identity and its markup. -/
def describe (s : NodeStore) (n : NodeId) : String :=
  s!"Node({n.text} {String.ofList (s.tree n).markup})"

end NodeStore

end LiveMarkup
