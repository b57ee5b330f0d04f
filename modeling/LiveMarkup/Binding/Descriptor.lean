import LiveMarkup.Reactive.Graph
import LiveMarkup.Node.Store

/-!
# Directives

A directive is a behaviour that a template asks for by name. A descriptor records one such
request; together with the definition of its name it is an application. Behaviours come in two
kinds: the two that interpolation needs, text and attribute, and those that a client supplies, of
which only a token of type `C` is kept here.

A terminal directive owns its node and everything below it. A directive that does not retain its
attribute has it removed from the live node when it is applied.
-/

namespace LiveMarkup

/-- The identity of a view-model. -/
structure ViewModelId where
  index : Nat
deriving DecidableEq, Repr, Inhabited

/-- The body of an effect. -/
inductive Routine (C : Type) where
  /-- Keeps the text of a node equal to an expression. -/
  | text (vm : ViewModelId) (node : NodeId) (expression : String)
  /-- Keeps an attribute of a node equal to an expression. -/
  | attr (vm : ViewModelId) (node : NodeId) (name expression : String)
  /-- Keeps an attribute of a node equal to an interpolated text. -/
  | interpolatedAttr (vm : ViewModelId) (node : NodeId) (name template : String)
  /-- Whatever a client does. -/
  | client (code : C)

/-- What a directive has installed and can undo. -/
inductive Binding (C : Type) where
  /-- An effect; undoing stops it. -/
  | effect (e : EffectId)
  /-- Whatever a client does to undo. -/
  | client (code : C)

/-- One request for a directive. -/
structure Descriptor where
  /-- The directive's name, without the mark of the attribute. -/
  name : String
  expression : String
  /-- The attribute to write, when the attribute's own value is interpolated. -/
  attrName : Option String := none
  /-- The attribute that asks for the directive. -/
  sourceAttr : Option String := none
  terminal : Bool := false
  /-- Whether the expression is an interpolated text. -/
  interpolate : Bool := false
deriving DecidableEq, Repr, Inhabited

/-- What a directive does when it is applied. -/
inductive Behaviour (C : Type) where
  /-- Keeps the node's text equal to the expression. -/
  | text
  /-- Keeps an attribute equal to its expression. -/
  | attr
  /-- Whatever a client does. -/
  | client (code : C)

/-- The definition of a directive. -/
structure Directive (C : Type) where
  /-- Of the directives on one element, the higher is applied first. -/
  priority : Int := 0
  terminal : Bool := false
  /-- Whether the attribute that asks for the directive stays on the live node. -/
  retain : Bool := false
  behaviour : Behaviour C

/-- A request together with the definition of its name. -/
structure Application (C : Type) where
  descriptor : Descriptor
  directive : Directive C

namespace Application

/-- The priority of the directive. -/
def priority {C : Type} (a : Application C) : Int := a.directive.priority

end Application

/-- The name under which texts ask for their expressions. -/
def textDirective : String := "bind"

/-- The name under which attributes ask for their expressions. -/
def attributeDirective : String := "attr"

namespace Descriptor

/-- The request of a text for one of its expressions. -/
def ofText (expression : String) : Descriptor := { name := textDirective, expression }

/-- The request of an attribute that asks for a directive by name. -/
def ofDirective (name expression attr : String) : Descriptor :=
  { name, expression, sourceAttr := some attr }

/-- The request of an attribute whose value is interpolated. -/
def ofInterpolation (attr template : String) : Descriptor :=
  { name := attributeDirective, expression := template, attrName := some attr,
    interpolate := true }

end Descriptor

end LiveMarkup
