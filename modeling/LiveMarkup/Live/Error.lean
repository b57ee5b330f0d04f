import LiveMarkup.Markup.Source
import LiveMarkup.Node.Store

/-!
# Errors

Why carrying out a program, mounting, or loading a template fails, and each failure in words.
-/

namespace LiveMarkup

/-- Why a program cannot be carried out. -/
inductive LinkError where
  /-- The live tree does not have the shape of the compiled one. -/
  | structuralMismatch (expected found : Nat)
  /-- A directive refused, for the reason it gives. -/
  | directive (name reason : String)
deriving DecidableEq, Repr

namespace LinkError

/-- The failure in words. -/
def message : LinkError → String
  | .structuralMismatch expected found =>
    s!"tree shape changed after compilation: compiled {expected} node(s), found {found}"
  | .directive name _ => s!"directive \x60{name}\x60 failed to bind"

end LinkError

/-- Why mounting fails. -/
inductive MountError where
  /-- The node has a program already. -/
  | alreadyMounted (node : NodeId)
  | noTemplate (component : String)
  | componentMounted (component : String)
  | componentDisposed (component : String)
  /-- The program cannot be carried out. -/
  | link (error : LinkError)
deriving DecidableEq, Repr

namespace MountError

/-- The failure in words. -/
def message : MountError → String
  | .alreadyMounted node => s!"node {node.text} already has a binding program mounted"
  | .noTemplate name => s!"component \x60{name}\x60 has no compiled template"
  | .componentMounted name => s!"component \x60{name}\x60 is already mounted"
  | .componentDisposed name =>
    s!"component \x60{name}\x60 was unmounted and its view-model disposed"
  | .link e => e.message

end MountError

/-- Why a template cannot be loaded. -/
inductive LoadError where
  /-- There is no template of that name. -/
  | notFound (name : String)
  /-- The file of the template cannot be read. -/
  | unreadable (path : String)
  /-- The template is not markup. -/
  | parse (error : ParseError)
deriving DecidableEq, Repr

namespace LoadError

/-- The failure in words. -/
def message : LoadError → String
  | .notFound name => s!"template \x60{name}\x60 not found"
  | .unreadable path => s!"failed to read {path}"
  | .parse _ => "template does not parse"

end LoadError

end LiveMarkup
