import LiveMarkup.Proofs.Binding.Agenda

/-!
# What a program uses

Which directives a program applies, and which code of a client it carries out, is read off the
program (`Program.Uses`). What comes out of a template applies only directives that the registry
defines, and carries out no code of a client's own (`Compiler.uses_compile`).
-/

namespace LiveMarkup

variable {C : Type}

/-- Whether a directive is one of the two of this library. -/
def Behaviour.IsBuiltin : Behaviour C → Prop
  | .text | .attr => True
  | .client _ => False

namespace Program

mutual

/-- Whether the applications in a program, and the code of a client's programs in it, are of given
kinds. -/
def Uses (A : Application C → Prop) (K : C → Prop) : Program C → Prop
  | .terminal a => A a
  | .directives a as => A a ∧ ∀ b ∈ as, A b
  | .text pieces => ∀ a, Piece.slot a ∈ pieces → A a
  | .textarea as => ∀ a ∈ as, A a
  | .both own children => own.Uses A K ∧ children.Uses A K
  | .siblings programs => UsesEach A K programs
  | .client _ _ code => K code

/-- Whether all that is in programs is of given kinds. -/
def UsesEach (A : Application C → Prop) (K : C → Prop) : List (Option (Program C)) → Prop
  | [] => True
  | none :: ps => UsesEach A K ps
  | some p :: ps => p.Uses A K ∧ UsesEach A K ps

end

mutual

theorem uses_of_forall {A : Application C → Prop} {K : C → Prop} (hA : ∀ a, A a)
    (hK : ∀ code, K code) (p : Program C) : p.Uses A K := by
  cases p with
  | terminal a => exact hA a
  | directives a as => exact ⟨hA a, fun b _ ↦ hA b⟩
  | text pieces => exact fun a _ ↦ hA a
  | textarea as => exact fun a _ ↦ hA a
  | both own children => exact ⟨uses_of_forall hA hK own, uses_of_forall hA hK children⟩
  | siblings programs => exact usesEach_of_forall hA hK programs
  | client owns rank code => exact hK code

theorem usesEach_of_forall {A : Application C → Prop} {K : C → Prop} (hA : ∀ a, A a)
    (hK : ∀ code, K code) (ps : List (Option (Program C))) : UsesEach A K ps := by
  cases ps with
  | nil => trivial
  | cons p? ps =>
    cases p? with
    | none => exact usesEach_of_forall hA hK ps
    | some p => exact ⟨uses_of_forall hA hK p, usesEach_of_forall hA hK ps⟩

end

end Program

namespace Registry

/-- Whether all directives that a registry defines are of one kind. -/
def All (P : Directive C → Prop) (r : Registry C) : Prop := ∀ e ∈ r.definitions, P e.2

variable {P : Directive C → Prop} {r : Registry C}

theorem all_register (h : r.All P) (name : String) {d : Directive C} (hd : P d) :
    (r.register name d).All P := by
  intro e he
  rcases List.mem_cons.mp he with rfl | he
  · exact hd
  · exact h e (List.mem_filter.mp he).1

theorem all_builtin (htext : P { behaviour := .text }) (hattr : P { behaviour := .attr }) :
    (builtin : Registry C).All P :=
  all_register (all_register (fun _ he ↦ absurd he List.not_mem_nil) _ htext) _ hattr

theorem All.of_resolve? (h : r.All P) (d : Descriptor) (a : Application C)
    (ha : r.resolve? d = some a) : P a.directive := by
  obtain ⟨directive, hdirective, rfl⟩ := Option.map_eq_some_iff.mp ha
  obtain ⟨before, after, hdefinitions, -⟩ := List.lookup_eq_some_iff.mp hdirective
  refine h (d.name, directive) ?_
  rw [hdefinitions]
  exact List.mem_append_right before List.mem_cons_self

end Registry

namespace Compiler

variable {c : Compiler C} {A : Application C → Prop}

section Parts

variable (hA : ∀ d a, c.registry.resolve? d = some a → A a)

include hA

theorem forall_mem_byPriority (attrs : Attributes) :
    ∀ a ∈ byPriority (c.applications attrs), A a := by
  intro a ha
  obtain ⟨d, -, hd⟩ := List.mem_filterMap.mp (List.mem_mergeSort.mp ha)
  exact hA d a hd

theorem of_terminal? {attrs : Attributes} {a : Application C} (ha : c.terminal? attrs = some a) :
    A a := by
  obtain ⟨name, -, hname⟩ := List.exists_of_findSome?_eq_some ha
  obtain ⟨value, -, hvalue⟩ := Option.bind_eq_some_iff.mp hname
  exact hA _ a hvalue

theorem of_slot_eq_piece {token : Token} {a : Application C} (ha : Piece.slot a = c.piece token) :
    A a := by
  cases token with
  | literal text => contradiction
  | expression source =>
    rw [piece] at ha
    split at ha
    · rename_i b hb
      obtain rfl := Piece.slot.inj ha
      exact hA _ a hb
    · contradiction

theorem uses_compileNode {t : Tree NodeId} {p : Program C} (hp : (c.compileNode t).1 = some p) :
    p.Uses A fun _ ↦ False := by
  unfold compileNode at hp
  split at hp
  · rw [compileElement_fst] at hp
    split at hp
    · rename_i a ha
      obtain rfl := Option.some.inj hp
      exact of_terminal? hA ha
    · split at hp
      · obtain rfl := Option.some.inj hp
        exact forall_mem_byPriority hA _
      · have hall := forall_mem_byPriority hA t.attrs
        cases has : byPriority (c.applications t.attrs) with
        | nil =>
          rw [has] at hp
          contradiction
        | cons a as =>
          rw [has] at hp hall
          obtain rfl := Option.some.inj hp
          exact List.forall_mem_cons.mp hall
  · rw [compileText_fst] at hp
    split at hp
    · obtain rfl := Option.some.inj hp
      intro a ha
      obtain ⟨token, -, htoken⟩ := List.mem_map.mp ha
      exact of_slot_eq_piece hA htoken.symm
    · contradiction
  all_goals contradiction

end Parts

theorem uses_combine? {K : C → Prop} {own children : Option (Program C)}
    (hown : ∀ p, own = some p → p.Uses A K) (hchildren : ∀ p, children = some p → p.Uses A K) :
    ∀ p, Program.combine? own children = some p → p.Uses A K := by
  intro p hp
  cases own with
  | none => exact hchildren p hp
  | some q =>
    cases children with
    | none => exact hown p hp
    | some r =>
      obtain rfl := Option.some.inj hp
      exact ⟨hown q rfl, hchildren r rfl⟩

mutual

/-- What comes out of a template uses what the registry defines. -/
theorem uses_compile (hA : ∀ d a, c.registry.resolve? d = some a → A a) (t : Tree NodeId) :
    ∀ p, (c.compile t).1 = some p → p.Uses A fun _ ↦ False := by
  obtain ⟨n, kind, attrs, data, children⟩ := t
  rw [compile_fst]
  refine uses_combine? (fun p hp ↦ uses_compileNode hA hp) fun p hp ↦ ?_
  split at hp
  · contradiction
  · rw [siblings?] at hp
    split at hp
    · obtain rfl := Option.some.inj hp
      exact usesEach_compile hA children
    · contradiction

theorem usesEach_compile (hA : ∀ d a, c.registry.resolve? d = some a → A a)
    (ts : List (Tree NodeId)) :
    Program.UsesEach A (fun _ ↦ False) (ts.map fun t ↦ (c.compile t).1) := by
  match ts with
  | [] => trivial
  | t :: ts =>
    have hrest := usesEach_compile hA ts
    rw [List.map_cons]
    cases ht : (c.compile t).1 with
    | none => exact hrest
    | some p => exact ⟨uses_compile hA t p ht, hrest⟩

end

end Compiler

end LiveMarkup
