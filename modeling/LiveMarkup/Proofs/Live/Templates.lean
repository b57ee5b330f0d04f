import LiveMarkup.Markup.Printer
import LiveMarkup.Proofs.Live.Rendering
import LiveMarkup.Proofs.Node.Planting

/-!
# Templates and their copies

A template is rendered by what it says, not by which nodes it is made of: trees that are equal but
for their labels, as a template and a copy of it are, show the same where they are rendered, depend
on the same fields, and can be rendered or cannot alike.
-/

namespace LiveMarkup

namespace Tree

variable {α β : Type}

/-! ## Labels -/

mutual

theorem markup_map (f : α → β) (t : Tree α) : (t.map f).markup = t.markup := by
  obtain ⟨l, kind, attrs, data, children⟩ := t
  have hempty : (mapAll f children).isEmpty = children.isEmpty := by cases children <;> rfl
  cases kind <;> simp only [map, markup, markupAll_mapAll, hempty]

theorem markupAll_mapAll (f : α → β) (ts : List (Tree α)) :
    markupAll (mapAll f ts) = markupAll ts := by
  match ts with
  | [] => rfl
  | t :: ts => rw [mapAll, markupAll, markupAll, markup_map, markupAll_mapAll]

end

/-- Trees that are equal but for their labels have the same markup. -/
theorem markup_of_plain {t : Tree α} {u : Tree β} (h : t.plain = u.plain) :
    t.markup = u.markup := by
  rw [← markup_map (fun _ ↦ ()) t, ← plain, h, plain, markup_map]

mutual

theorem attributeLists_map (f : α → β) (t : Tree α) :
    (t.map f).attributeLists = t.attributeLists := by
  obtain ⟨l, kind, attrs, data, children⟩ := t
  cases kind <;> simp only [map, attributeLists, attributeListsAll_mapAll]

theorem attributeListsAll_mapAll (f : α → β) (ts : List (Tree α)) :
    attributeListsAll (mapAll f ts) = attributeListsAll ts := by
  match ts with
  | [] => rfl
  | t :: ts =>
    rw [mapAll, attributeListsAll, attributeListsAll, attributeLists_map, attributeListsAll_mapAll]

end

mutual

theorem solid_map (f : α → β) (t : Tree α) : (t.map f).Solid ↔ t.Solid := by
  obtain ⟨l, kind, attrs, data, children⟩ := t
  rw [map, Solid, Solid, solidAll_mapAll]

theorem solidAll_mapAll (f : α → β) (ts : List (Tree α)) :
    SolidAll (mapAll f ts) ↔ SolidAll ts := by
  match ts with
  | [] => rfl
  | t :: ts => rw [mapAll, SolidAll, SolidAll, solid_map, solidAll_mapAll]

end

mutual

theorem plain_number (k : Nat) (t : Tree α) : (t.number k).plain = t.plain := by
  obtain ⟨l, kind, attrs, data, children⟩ := t
  rw [number, plain, map, plain, map, mapAll_numberAll]

theorem mapAll_numberAll (k : Nat) (ts : List (Tree α)) :
    mapAll (fun _ ↦ ()) (numberAll k ts) = mapAll (fun _ ↦ ()) ts := by
  match ts with
  | [] => rfl
  | t :: ts =>
    have ht := plain_number k t
    rw [plain, plain] at ht
    rw [numberAll, mapAll, mapAll, ht, mapAll_numberAll]

end

mutual

theorem map_map {γ : Type} (f : α → β) (g : β → γ) (t : Tree α) :
    (t.map f).map g = t.map fun a ↦ g (f a) := by
  obtain ⟨l, kind, attrs, data, children⟩ := t
  rw [map, map, map, mapAll_mapAll]

theorem mapAll_mapAll {γ : Type} (f : α → β) (g : β → γ) (ts : List (Tree α)) :
    mapAll g (mapAll f ts) = mapAll (fun a ↦ g (f a)) ts := by
  match ts with
  | [] => rfl
  | t :: ts => rw [mapAll, mapAll, mapAll, map_map, mapAll_mapAll]

end

theorem mapAll_children_of_plain {t u : Tree α} (h : t.plain = u.plain) :
    mapAll (fun _ ↦ ()) t.children = mapAll (fun _ ↦ ()) u.children := by
  obtain ⟨l, kind, attrs, data, children⟩ := t
  obtain ⟨m, kind', attrs', data', children'⟩ := u
  exact congrArg Tree.children h

end Tree

namespace Compiler

variable {C : Type} (c : Compiler C) {α β : Type}

theorem isResolved_map (f : α → β) (t : Tree α) : isResolved (t.map f) = isResolved t := by
  rw [isResolved, isResolved, Tree.textContent_map]
  obtain ⟨l, kind, attrs, data, children⟩ := t
  rfl

mutual

/-- Rendering does not look at labels. -/
theorem render_map (field frozen : String → Value) (f : α → β) (t : Tree α) :
    c.render field frozen (t.map f) = (c.render field frozen t).map f := by
  have hresolved := isResolved_map f t
  obtain ⟨l, kind, attrs, data, children⟩ := t
  cases kind with
  | element tag =>
    rw [Tree.map] at hresolved ⊢
    rw [render_element, render_element, Tree.map, hresolved, Tree.textContentAll_mapAll]
    congr 1
    split
    · rfl
    · split
      · rfl
      · exact renderAll_mapAll field frozen f children
  | text => rfl
  | comment => rfl
  | fragment =>
    exact congrArg (Tree.node (f l) .fragment attrs data) (renderAll_mapAll field frozen f children)

theorem renderAll_mapAll (field frozen : String → Value) (f : α → β) (ts : List (Tree α)) :
    c.renderAll field frozen (Tree.mapAll f ts) = Tree.mapAll f (c.renderAll field frozen ts) := by
  match ts with
  | [] => rfl
  | t :: ts =>
    rw [Tree.mapAll, renderAll, renderAll, Tree.mapAll, render_map, renderAll_mapAll]

end

mutual

theorem heads_map (f : α → β) (t : Tree α) : c.heads (t.map f) = c.heads t := by
  have hresolved := isResolved_map f t
  obtain ⟨l, kind, attrs, data, children⟩ := t
  cases kind with
  | element tag =>
    rw [Tree.map] at hresolved ⊢
    rw [heads_element, heads_element, hresolved, headsAll_mapAll]
  | text => rfl
  | comment => rfl
  | fragment => exact headsAll_mapAll f children

theorem headsAll_mapAll (f : α → β) (ts : List (Tree α)) :
    c.headsAll (Tree.mapAll f ts) = c.headsAll ts := by
  match ts with
  | [] => rfl
  | t :: ts => rw [Tree.mapAll, headsAll, headsAll, heads_map, headsAll_mapAll]

end

/-- A template and its copy show the same where they are rendered. -/
theorem markup_render_of_plain (field frozen : String → Value) {t u : Tree α}
    (h : t.plain = u.plain) :
    (c.render field frozen t).markup = (c.render field frozen u).markup := by
  refine Tree.markup_of_plain ?_
  rw [Tree.plain, Tree.plain, ← render_map, ← render_map, ← Tree.plain, h, Tree.plain]

/-! ## Templates that can be rendered -/

/-- Whether trees are templates that can be rendered: only elements have children, and no attribute
asks for what has no rendering. -/
structure Supports {α : Type} (ts : List (Tree α)) : Prop where
  proper : Tree.ProperAll ts
  solid : Tree.SolidAll ts
  renderable : ∀ attrs ∈ Tree.attributeListsAll ts, ∀ x ∈ attrs, c.Renderable x.1 x.2

variable {c}

theorem Supports.cons {α : Type} {t : Tree α} {ts : List (Tree α)} (h : c.Supports (t :: ts)) :
    c.Supports [t] ∧ c.Supports ts := by
  obtain ⟨hproper, hsolid, hrenderable⟩ := h
  rw [Tree.ProperAll] at hproper
  rw [Tree.SolidAll] at hsolid
  rw [Tree.attributeListsAll] at hrenderable
  obtain ⟨hfirst, hrest⟩ := List.forall_mem_append.mp hrenderable
  refine ⟨⟨⟨hproper.1, trivial⟩, ⟨hsolid.1, trivial⟩, ?_⟩, ⟨hproper.2, hsolid.2, hrest⟩⟩
  rwa [Tree.attributeListsAll, Tree.attributeListsAll, List.append_nil]

theorem Supports.children {α : Type} {t : Tree α} (h : c.Supports [t]) :
    c.Supports t.children := by
  obtain ⟨l, kind, attrs, data, children⟩ := t
  obtain ⟨hproper, hsolid, hrenderable⟩ := h
  rw [Tree.ProperAll, Tree.Proper] at hproper
  rw [Tree.SolidAll, Tree.Solid] at hsolid
  refine ⟨hproper.1.2, hsolid.1.2, fun as has ↦ hrenderable as ?_⟩
  rw [Tree.attributeListsAll]
  refine List.mem_append_left _ ?_
  cases kind with
  | element tag => exact List.mem_cons_of_mem attrs has
  | text => exact has
  | comment => exact has
  | fragment => exact has

theorem Supports.root {α : Type} {t : Tree α} (h : c.Supports [t]) {tag : String}
    (hkind : t.kind = .element tag) : ∀ x ∈ t.attrs, c.Renderable x.1 x.2 := by
  obtain ⟨l, kind, attrs, data, children⟩ := t
  obtain rfl : kind = .element tag := hkind
  exact h.renderable attrs (List.mem_append_left _ List.mem_cons_self)

theorem supports_mapAll {f : α → β} {ts : List (Tree α)} :
    c.Supports (Tree.mapAll f ts) ↔ c.Supports ts := by
  refine ⟨fun h ↦ ⟨?_, ?_, ?_⟩, fun h ↦ ⟨?_, ?_, ?_⟩⟩
  · exact (Tree.properAll_mapAll f ts).mp h.proper
  · exact (Tree.solidAll_mapAll f ts).mp h.solid
  · exact Tree.attributeListsAll_mapAll f ts ▸ h.renderable
  · exact (Tree.properAll_mapAll f ts).mpr h.proper
  · exact (Tree.solidAll_mapAll f ts).mpr h.solid
  · exact Tree.attributeListsAll_mapAll f ts ▸ h.renderable

/-- A copy of templates that can be rendered can be. -/
theorem Supports.of_plain {ts us : List (Tree α)} (h : c.Supports us)
    (hplain : Tree.mapAll (fun _ ↦ ()) ts = Tree.mapAll (fun _ ↦ ()) us) : c.Supports ts :=
  supports_mapAll.mp (hplain ▸ supports_mapAll.mpr h)

end Compiler

end LiveMarkup
