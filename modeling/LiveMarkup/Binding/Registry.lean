import LiveMarkup.Binding.Descriptor

/-!
# Registries

A registry defines directives by name; a later definition of a name replaces the earlier one. The
names whose definition is terminal are listed in the order in which they were last registered,
which is the order in which an element is searched for them.
-/

namespace LiveMarkup

/-- Directives by name. -/
structure Registry (C : Type) where
  definitions : List (String × Directive C)
  /-- The names of the terminal directives, in the order of their latest registration. -/
  terminalNames : List String
deriving Inhabited

namespace Registry

variable {C : Type}

/-- No directives. -/
def empty : Registry C := ⟨[], []⟩

/-- The definition of a name. -/
def definition? (r : Registry C) (name : String) : Option (Directive C) :=
  r.definitions.lookup name

/-- Whether a name is defined. -/
def contains (r : Registry C) (name : String) : Bool := (r.definition? name).isSome

/-- Defines a name, in place of an earlier definition. -/
def register (r : Registry C) (name : String) (d : Directive C) : Registry C where
  definitions := (name, d) :: r.definitions.filter fun e ↦ e.1 != name
  terminalNames :=
    let others := r.terminalNames.filter (· != name)
    if d.terminal then others ++ [name] else others

/-- The two directives that interpolation needs. -/
def builtin : Registry C :=
  (empty.register textDirective { behaviour := .text }).register attributeDirective
    { behaviour := .attr }

/-- Joins a request with the definition of its name, if it has one. -/
def resolve? (r : Registry C) (d : Descriptor) : Option (Application C) :=
  (r.definition? d.name).map fun directive ↦
    ⟨{ d with terminal := directive.terminal }, directive⟩

theorem definition?_register_self (r : Registry C) (name : String) (d : Directive C) :
    (r.register name d).definition? name = some d := by
  simp [definition?, register]

theorem mem_terminalNames_register {r : Registry C} {name other : String} {d : Directive C} :
    other ∈ (r.register name d).terminalNames ↔
      (other ∈ r.terminalNames ∧ other ≠ name) ∨ (other = name ∧ d.terminal = true) := by
  unfold register
  dsimp only
  split <;> rename_i h <;> simp [h]

end Registry

end LiveMarkup
