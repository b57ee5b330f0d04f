import LiveMarkup.Markup.Event

/-!
# Forests from events

The open elements form a stack, innermost first. A tree that is complete becomes the last child of
the innermost open element, or the last root if none is open. A closing tag ends the innermost
open element of its tag, without regard to case, and with it every element opened inside that one;
a closing tag that no open element matches changes nothing. The end of the source ends all.
-/

namespace LiveMarkup

/-- An element whose content is still being read. -/
structure OpenElement where
  tag : String
  attrs : Attributes
  /-- The children so far. -/
  children : List (Tree Unit)

namespace OpenElement

/-- The element with the children it has. -/
def toTree (o : OpenElement) : Tree Unit := .element () o.tag o.attrs o.children

end OpenElement

/-- A forest part way through: the open elements, innermost first, and the roots so far. -/
structure Growth where
  stack : List OpenElement
  roots : List (Tree Unit)

namespace Growth

/-- Nothing read yet. -/
def empty : Growth := ⟨[], []⟩

/-- Adds a complete tree at the end of the innermost open element, or as a root. -/
def add (t : Tree Unit) : Growth → Growth
  | ⟨[], roots⟩ => ⟨[], roots ++ [t]⟩
  | ⟨o :: os, roots⟩ => ⟨{ o with children := o.children ++ [t] } :: os, roots⟩

/-- Ends the innermost open element. -/
def close : Growth → Growth
  | ⟨[], roots⟩ => ⟨[], roots⟩
  | ⟨o :: os, roots⟩ => add o.toTree ⟨os, roots⟩

/-- Ends the `n` innermost open elements. -/
def closeMany : Nat → Growth → Growth
  | 0, g => g
  | n + 1, g => closeMany n g.close

/-- What an event does. -/
def step (g : Growth) : Event → Growth
  | .opening tag attrs => { g with stack := ⟨tag, attrs, []⟩ :: g.stack }
  | .leaf t => g.add t
  | .closing tag =>
    match g.stack.findIdx? fun o ↦ equalIgnoringCase o.tag tag with
    | some i => g.closeMany (i + 1)
    | none => g

/-- The roots once every open element has ended. -/
def finish (g : Growth) : List (Tree Unit) := (g.closeMany g.stack.length).roots

end Growth

/-- The forest that events describe. -/
def forestOf (events : List Event) : List (Tree Unit) :=
  (events.foldl Growth.step .empty).finish

end LiveMarkup
