import LiveMarkup.Proofs.Binding.Ownership

/-!
# Templates that fit their programs

The program of an element binds the element's own directives first, and only then counts the
children that it has programs for. Of the two directives of this library the one for attributes
leaves children alone, but the one for texts, asked for by an element, puts a single text in their
place. So a template is at odds with its own program where an element asks for its text and has
children with programs: `Compiler.fits` says which templates are not.

An element may ask for its text all the same if nothing below it has a program, or if it has just
one child whose program is about that child alone: the text is then bound in the child's place.
-/

namespace LiveMarkup

variable {C : Type}

namespace Program

/-- Whether a program of this library is about its node alone, and not about the children. -/
def isLocal : Program C → Bool
  | .terminal _ | .directives .. | .text _ | .textarea _ => true
  | .both .. | .siblings _ | .client .. => false

end Program

namespace Compiler

variable (c : Compiler C)

/-- Whether a node is an element that asks by name for the directive for texts, which puts a text in
the place of its children. -/
def refills (kind : NodeKind) (attrs : Attributes) : Bool :=
  match kind with
  | .element _ => attrs.has (c.config.mark ++ textDirective)
  | .text | .comment | .fragment => false

/-- Whether the programs of children are still right for a single text in their place: there are
none, or there is one child and its program is about that child alone. -/
def fitsText (children : List (Tree NodeId)) : Bool :=
  children.all (fun t ↦ (c.compile t).1.isNone) ||
    children.length == 1 && children.all fun t ↦ (c.compile t).1.all Program.isLocal

mutual

/-- Whether no element asks for its text by name above children whose programs need other nodes. -/
def fits (c : Compiler C) : Tree NodeId → Bool
  | .node n kind attrs data children =>
    if (c.compileNode (.node n kind attrs data children)).1.any Program.isTerminal ||
        kind.hasTag "script" then true
    else if c.refills kind attrs then c.fitsText children
    else fitsAll c children

/-- Whether that holds of all trees. -/
def fitsAll (c : Compiler C) : List (Tree NodeId) → Bool
  | [] => true
  | t :: ts => fits c t && fitsAll c ts

end

/-! ## Labels -/

theorem fitsText_of_plain {ts us : List (Tree NodeId)}
    (h : Tree.mapAll (fun _ ↦ ()) ts = Tree.mapAll (fun _ ↦ ()) us) :
    c.fitsText ts = c.fitsText us := by
  have hprograms := c.map_compile_fst_of_plain ts us h
  have hall (f : Option (Program C) → Bool) (ts : List (Tree NodeId)) :
      (ts.all fun t ↦ f (c.compile t).1) = (ts.map fun t ↦ (c.compile t).1).all f :=
    List.all_map.symm
  have hlength : ts.length = us.length := by
    simpa using congrArg List.length hprograms
  rw [fitsText, fitsText, hall, hall, hall, hall, hprograms, hlength]

mutual

/-- Whether a template fits does not depend on the identities of nodes. -/
theorem fits_of_plain (t u : Tree NodeId) (h : t.plain = u.plain) : c.fits t = c.fits u := by
  have hown := c.compileNode_fst_of_plain h
  obtain ⟨n, kind, attrs, data, ts⟩ := t
  obtain ⟨m, kind', attrs', data', us⟩ := u
  simp only [Tree.plain, Tree.map, Tree.node.injEq, true_and] at h
  obtain ⟨rfl, rfl, rfl, hchildren⟩ := h
  rw [fits, fits, hown, c.fitsText_of_plain hchildren, fitsAll_of_plain ts us hchildren]

theorem fitsAll_of_plain (ts us : List (Tree NodeId))
    (h : Tree.mapAll (fun _ ↦ ()) ts = Tree.mapAll (fun _ ↦ ()) us) :
    c.fitsAll ts = c.fitsAll us := by
  match ts, us with
  | [], [] => rfl
  | t :: ts, u :: us =>
    rw [Tree.mapAll, Tree.mapAll] at h
    obtain ⟨ht, hts⟩ := List.cons.inj h
    rw [fitsAll, fitsAll, fits_of_plain t u ht, fitsAll_of_plain ts us hts]

end

/-! ## Programs of single nodes -/

variable {c}

/-- A program of a node for itself that is not terminal is that of an element's directives, or that
of a text. -/
theorem own_cases {t : Tree NodeId} {q : Program C} (hq : (c.compileNode t).1 = some q) :
    q.isTerminal = true ∧ q.isLocal = true ∨
      (∃ tag a as, t.kind = .element tag ∧ q = .directives a as ∧
        a :: as = byPriority (c.applications t.attrs)) ∨
      ∃ ps, t.kind = .text ∧ q = .text ps := by
  unfold compileNode at hq
  split at hq
  · rename_i tag hkind
    rw [compileElement_fst] at hq
    split at hq
    · exact .inl (Option.some.inj hq ▸ ⟨rfl, rfl⟩)
    · split at hq
      · exact .inl (Option.some.inj hq ▸ ⟨rfl, rfl⟩)
      · cases has : byPriority (c.applications t.attrs) with
        | nil =>
          rw [has] at hq
          contradiction
        | cons a as =>
          rw [has] at hq
          exact .inr (.inl ⟨tag, a, as, hkind, (Option.some.inj hq).symm, rfl⟩)
  · rename_i hkind
    rw [compileText_fst] at hq
    split at hq
    · exact .inr (.inr ⟨_, hkind, (Option.some.inj hq).symm⟩)
    · contradiction
  all_goals contradiction

/-- What a node has for itself is about the node alone. -/
theorem isLocal_of_compileNode {t : Tree NodeId} {q : Program C}
    (hq : (c.compileNode t).1 = some q) : q.isLocal = true := by
  obtain ⟨-, hlocal⟩ | ⟨tag, a, as, -, rfl, -⟩ | ⟨ps, -, rfl⟩ := own_cases hq
  · exact hlocal
  · rfl
  · rfl

/-- The only directive that is not that for attributes, and that attributes can ask for by name, is
that for texts. -/
theorem behaviour_of_refills (hc : c.registry = .builtin) {attrs : Attributes}
    (hattrs : attrs.has (c.config.mark ++ textDirective) = false) {a : Application C}
    (ha : a ∈ c.applications attrs) : a.directive.behaviour = .attr := by
  have hattr : (Registry.builtin : Registry C).definition? attributeDirective =
      some { behaviour := .attr } := Registry.definition?_register_self ..
  obtain ⟨-, hdefinition⟩ | ⟨name, hmem, hdefinition⟩ := of_mem_applications ha
  · rw [hc, hattr] at hdefinition
    exact Option.some.inj hdefinition ▸ rfl
  · rw [hc] at hdefinition
    by_cases hname : name = attributeDirective
    · rw [hname, hattr] at hdefinition
      exact Option.some.inj hdefinition ▸ rfl
    · rw [Registry.builtin, Registry.definition?_register_of_ne _ hname] at hdefinition
      by_cases htext : name = textDirective
      · rw [htext] at hmem
        exact absurd (has_of_mem hmem) (Bool.eq_false_iff.mp hattrs)
      · rw [Registry.definition?_register_of_ne _ htext] at hdefinition
        contradiction

end Compiler

end LiveMarkup
