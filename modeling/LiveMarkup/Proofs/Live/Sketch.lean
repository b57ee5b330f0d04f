import LiveMarkup.Proofs.Live.Rendering

/-!
# Sketches

A template is executed on many live trees, for many view-models. What it is drawn as on each of them
differs in nodes and effects only: the trees that are left, and what fills their holes, are the same
but for these. A sketch is what they have in common, trees without labels whose holes are numbered
in order, and `Compiler.sketch` computes it from the template.

Rendering is what a sketch shows where all holes are filled from the same fields. A sketch also says
how the trees look where they are not, because some effects have not seen a field that others have.
-/

namespace LiveMarkup

variable {C : Type}

namespace Upkeep

/-- What is kept up to date, for no view-model and on no node in particular. -/
def bare : Upkeep → Upkeep
  | .text _ _ expression => .text default default expression
  | .attr _ _ name expression => .attr default default name expression
  | .interpolatedAttr _ _ name template => .interpolatedAttr default default name template

@[simp] theorem mentioned_bare (u : Upkeep) : u.bare.mentioned = u.mentioned := by
  cases u <;> rfl

@[simp] theorem value_bare (field : String → Value) (u : Upkeep) :
    u.bare.value field = u.value field := by
  cases u <;> rfl

@[simp] theorem workOff_bare (attr text : String) (done : Attributes) (u : Upkeep) :
    u.bare.workOff attr text done = u.workOff attr text done := by
  cases u <;> rfl

end Upkeep

/-! ## Trees with numbered holes -/

theorem Tree.mapAll_append {α β : Type} (f : α → β) (ts us : List (Tree α)) :
    mapAll f (ts ++ us) = mapAll f ts ++ mapAll f us := by
  induction ts with
  | nil => rfl
  | cons t ts ih => rw [List.cons_append, mapAll, ih, mapAll, List.cons_append]

/-- Trees without labels that have holes, and what fills each of them. -/
structure Sketch where
  holes : List Upkeep
  /-- The trees for given texts in the holes. -/
  forest : (Nat → String) → List (Tree Unit)

namespace Sketch

/-- Trees that stay as they are. -/
def still (ts : List (Tree Unit)) : Sketch := ⟨[], fun _ ↦ ts⟩

/-- A text that is a hole. -/
def slot (u : Upkeep) : Sketch := ⟨[u], fun text ↦ [.text () (text 0)]⟩

/-- The trees of one sketch and then those of another, whose holes are numbered on. -/
def append (S T : Sketch) : Sketch :=
  ⟨S.holes ++ T.holes, fun text ↦ S.forest text ++ T.forest fun i ↦ text (S.holes.length + i)⟩

theorem append_still_nil (S : Sketch) : S.append (still []) = S := by
  obtain ⟨holes, forest⟩ := S
  simp [append, still]

/-- The attributes of an element with texts in their holes. -/
def paint : List (String × Upkeep) → (Nat → String) → Attributes → Attributes
  | [], _, attrs => attrs
  | x :: own, text, attrs => paint own (fun i ↦ text (i + 1)) (x.2.workOff x.1 (text 0) attrs)

/-- The trees of a sketch below a node that has holes among its attributes. -/
def below (S : Sketch) (kind : NodeKind) (attrs : Attributes) (data : String)
    (own : List (String × Upkeep)) : Sketch where
  holes := own.map Prod.snd ++ S.holes
  forest text :=
    [.node () kind (paint own text attrs) data (S.forest fun i ↦ text (own.length + i))]

end Sketch

/-! ## Sketches of templates -/

namespace Token

/-- The text of a token; that of an expression is a hole. -/
def sketch : Token → Sketch
  | .literal text => .still [.text () (String.ofList text)]
  | .expression source => .slot (.text default default (String.ofList source))

/-- The texts of tokens in a row. -/
def sketchAll : List Token → Sketch
  | [] => .still []
  | token :: tokens => token.sketch.append (sketchAll tokens)

end Token

namespace Compiler

theorem map_bare_upkeeps (c : Compiler C) (vm : ViewModelId) (n : NodeId) (attrs : Attributes) :
    (c.upkeeps vm n attrs).map (fun x ↦ (x.1, x.2.bare)) = c.upkeeps default default attrs := by
  have hbare (attr value : String) :
      (c.upkeep? vm n attr value).map Upkeep.bare = c.upkeep? default default attr value := by
    rw [upkeep?, upkeep?]
    cases c.directiveName? attr with
    | some name =>
      dsimp only
      split
      · cases Descriptor.splitColon? value.toList <;> rfl
      · rfl
    | none =>
      dsimp only
      split <;> rfl
  induction attrs with
  | nil => rfl
  | cons x attrs ih =>
    rw [upkeeps_cons, upkeeps_cons, List.map_append, ih, ← hbare]
    cases c.upkeep? vm n x.1 x.2 <;> rfl

mutual

/-- What a template is drawn as; interpolated text areas are left at the values of `frozen`. -/
def sketch {α : Type} (c : Compiler C) (frozen : String → Value) : Tree α → Sketch
  | .node l kind attrs data children =>
    let t := Tree.node l kind attrs data children
    match kind with
    | .element tag =>
      (if t.hasTag "script" then .still (Tree.mapAll (fun _ ↦ ()) children)
        else if isResolved t then
          .still [.text () (String.ofList (Interpolation.textWith frozen t.textContent))]
        else sketchAll c frozen children).below (.element tag) attrs data
          (c.upkeeps default default attrs)
    | .text =>
      if Interpolation.hasExpression data.toList then
        Token.sketchAll (Interpolation.tokenize data.toList)
      else .still [t.plain]
    | .comment => .still [t.plain]
    | .fragment => (sketchAll c frozen children).below .fragment attrs data []

/-- What templates are drawn as. -/
def sketchAll {α : Type} (c : Compiler C) (frozen : String → Value) : List (Tree α) → Sketch
  | [] => .still []
  | t :: ts => (sketch c frozen t).append (sketchAll c frozen ts)

end

theorem sketch_element {α : Type} (c : Compiler C) (frozen : String → Value) (l : α) (tag : String)
    (attrs : Attributes) (data : String) (children : List (Tree α)) :
    c.sketch frozen (.node l (.element tag) attrs data children) =
      (if equalIgnoringCase tag "script" then .still (Tree.mapAll (fun _ ↦ ()) children)
        else if isResolved (.node l (.element tag) attrs data children) then
          .still [.text () (String.ofList (Interpolation.textWith frozen
            (Tree.textContentAll children)))]
        else c.sketchAll frozen children).below (.element tag) attrs data
          (c.upkeeps default default attrs) := rfl

theorem sketchAll_singleton {α : Type} (c : Compiler C) (frozen : String → Value) (t : Tree α) :
    c.sketchAll frozen [t] = c.sketch frozen t := Sketch.append_still_nil _

end Compiler

end LiveMarkup
