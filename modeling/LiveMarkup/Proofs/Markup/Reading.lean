import LiveMarkup.Markup.Source

/-!
# What is read

A forest consists of what its events contribute (`forall_mem_forestOf`): every tree of it is a leaf,
or an element that some event has opened and that has been given such trees for children. So
whatever holds of the leaves, and of an opened element whenever it holds of its children, holds of
all roots.
-/

namespace LiveMarkup

/-! ## Trees within trees -/

namespace Tree

variable {α : Type}

mutual

/-- The tree and all trees within it, in the order of their beginnings. -/
def subtrees : Tree α → List (Tree α)
  | .node l k as d cs => .node l k as d cs :: subtreesAll cs

/-- The trees and all trees within them, in the order of their beginnings. -/
def subtreesAll : List (Tree α) → List (Tree α)
  | [] => []
  | t :: ts => subtrees t ++ subtreesAll ts

end

end Tree

/-! ## Contributions -/

section Contributions

variable (P : Tree Unit → Prop) (Q : String → Attributes → Prop)

/-- Whether an event contributes a tree of the one kind, or opens an element of the other. -/
def Event.Contributes : Event → Prop
  | .opening tag attrs => Q tag attrs
  | .leaf t => P t
  | .closing _ => True

/-- Whether the roots and the children of the open elements are of the one kind, and the open
elements of the other. -/
structure Growth.Consists (g : Growth) : Prop where
  stack : ∀ o ∈ g.stack, Q o.tag o.attrs ∧ ∀ t ∈ o.children, P t
  roots : ∀ t ∈ g.roots, P t

variable {P Q}

namespace Growth.Consists

variable {g : Growth}

theorem add (h : g.Consists P Q) {t : Tree Unit} (ht : P t) : (g.add t).Consists P Q := by
  obtain ⟨os, roots⟩ := g
  cases os with
  | nil =>
    refine ⟨h.stack, List.forall_mem_append.mpr ⟨h.roots, ?_⟩⟩
    exact List.forall_mem_singleton.mpr ht
  | cons o os =>
    obtain ⟨⟨ho, hchildren⟩, hstack⟩ := List.forall_mem_cons.mp h.stack
    refine ⟨List.forall_mem_cons.mpr ⟨⟨ho, ?_⟩, hstack⟩, h.roots⟩
    exact List.forall_mem_append.mpr ⟨hchildren, List.forall_mem_singleton.mpr ht⟩

variable (hclose : ∀ tag attrs children, Q tag attrs → (∀ t ∈ children, P t) →
  P (.element () tag attrs children))

include hclose

theorem close (h : g.Consists P Q) : g.close.Consists P Q := by
  obtain ⟨os, roots⟩ := g
  cases os with
  | nil => exact h
  | cons o os =>
    obtain ⟨⟨ho, hchildren⟩, hstack⟩ := List.forall_mem_cons.mp h.stack
    have hrest : Growth.Consists P Q ⟨os, roots⟩ := ⟨hstack, h.roots⟩
    exact hrest.add (hclose o.tag o.attrs o.children ho hchildren)

theorem closeMany (h : g.Consists P Q) (n : Nat) : (g.closeMany n).Consists P Q := by
  induction n generalizing g with
  | zero => exact h
  | succ n ih => exact ih (h.close hclose)

theorem step (h : g.Consists P Q) {e : Event} (he : e.Contributes P Q) :
    (g.step e).Consists P Q := by
  cases e with
  | opening tag attrs =>
    refine ⟨List.forall_mem_cons.mpr ⟨⟨he, ?_⟩, h.stack⟩, h.roots⟩
    exact fun _ ht ↦ absurd ht List.not_mem_nil
  | leaf t => exact h.add he
  | closing tag =>
    unfold Growth.step
    dsimp only
    split
    · exact h.closeMany hclose _
    · exact h

theorem foldl_step (h : g.Consists P Q) {es : List Event} (hes : ∀ e ∈ es, e.Contributes P Q) :
    (es.foldl Growth.step g).Consists P Q := by
  induction es generalizing g with
  | nil => exact h
  | cons e es ih =>
    obtain ⟨he, hes⟩ := List.forall_mem_cons.mp hes
    exact ih (h.step hclose he) hes

end Growth.Consists

/-- Whatever holds of the leaves, and of an element if it holds of its children, holds of the
roots. -/
theorem forall_mem_forestOf (hclose : ∀ tag attrs children, Q tag attrs →
    (∀ t ∈ children, P t) → P (.element () tag attrs children)) {es : List Event}
    (hes : ∀ e ∈ es, e.Contributes P Q) : ∀ t ∈ forestOf es, P t := by
  have hempty : Growth.empty.Consists P Q := by
    constructor <;> exact fun _ h ↦ absurd h List.not_mem_nil
  exact ((hempty.foldl_step hclose hes).closeMany hclose _).roots

end Contributions

/-! ## The forest of a source -/

/-- The forest of a source, if it has one. -/
def treesOf (source : String) : List (Tree Unit) := (parseMarkup source).toOption.getD []

theorem parseMarkup_treesOf {source : String} (h : (parseMarkup source).isOk = true) :
    parseMarkup source = .ok (treesOf source) := by
  rw [treesOf]
  rcases hread : parseMarkup source with e | ts
  · rw [hread] at h
    contradiction
  · rfl

theorem parseMarkup_eq_ok_iff {source : String} {ts : List (Tree Unit)} :
    parseMarkup source = .ok ts ↔ (Reading.ofSource source).error = none ∧
      ((Reading.ofSource source).forest.filter fun t ↦ !t.isBlankText) = ts := by
  rw [parseMarkup]
  rcases (Reading.ofSource source).error with - | e <;> simp

/-- A source without a defect is read as the forest of its events, less blank texts among the
roots. -/
theorem parseMarkup_of_events {source : String} {es : List Event}
    (h : Scan.events (Utf8.encode source.toList) = (es, none)) :
    parseMarkup source = .ok ((forestOf es).filter fun t ↦ !t.isBlankText) := by
  rw [parseMarkup, Reading.ofSource, h]
  rfl

end LiveMarkup
