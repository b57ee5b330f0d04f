import Mathlib.Tactic.ByContra
import LiveMarkup.Binding.Compile

/-!
# What a program is made of

The program of a tree is nested as the tree is, but what it amounts to is a list: the agenda, the
nodes that have a program of their own, each with that program, a node before those below it. A tree
has a program exactly if its agenda is not empty (`Compiler.compile_eq_none_iff`).

Programs depend on the tree alone, not on the identities of its nodes, which only the reports
mention (`Compiler.compile_fst_of_plain`). So the program of a template may be read as that of the
live tree it is carried out on.
-/

namespace LiveMarkup

/-! ## Trees without their labels -/

namespace Tree

variable {α β : Type}

mutual

theorem textContent_map (f : α → β) (t : Tree α) : (t.map f).textContent = t.textContent := by
  obtain ⟨l, kind, attrs, data, children⟩ := t
  cases kind <;> simp only [map, textContent, textContentAll_mapAll]

theorem textContentAll_mapAll (f : α → β) (ts : List (Tree α)) :
    textContentAll (mapAll f ts) = textContentAll ts := by
  match ts with
  | [] => rfl
  | t :: ts => rw [mapAll, textContentAll, textContentAll, textContent_map, textContentAll_mapAll]

end

theorem textContent_of_plain {t u : Tree α} (h : t.plain = u.plain) :
    t.textContent = u.textContent := by
  have hc := congrArg textContent h
  rwa [plain, plain, textContent_map, textContent_map] at hc

end Tree

/-- Whether a piece has its text from a directive. -/
def Piece.isSlot {C : Type} : Piece C → Bool
  | .literal _ => false
  | .slot _ => true

namespace Compiler

variable {C : Type} (c : Compiler C)

/-! ## What a node's own program is made of -/

@[simp] theorem resolve_fst (node : NodeId) (d : Descriptor) :
    (c.resolve node d).1 = c.registry.resolve? d := by
  unfold resolve
  split
  · rename_i h
    exact h.symm
  · rename_i h
    exact h.symm

@[simp] theorem resolveAll_fst (node : NodeId) (ds : List Descriptor) :
    (c.resolveAll node ds).1 = ds.filterMap c.registry.resolve? := by
  induction ds with
  | nil => rfl
  | cons d ds ih =>
    change (c.resolve node d).1.toList ++ (c.resolveAll node ds).1 = _
    rw [resolve_fst, ih, List.filterMap_cons]
    cases c.registry.resolve? d <;> rfl

/-- The applications that an element's attributes ask for, in the order of the attributes. -/
def applications (attrs : Attributes) : List (Application C) :=
  (attrs.filterMap fun (attr, value) ↦ c.request? attr value).filterMap c.registry.resolve?

@[simp] theorem directives_fst (node : NodeId) (attrs : Attributes) :
    (c.directives node attrs).1 = byPriority (c.applications attrs) := by
  change byPriority (c.resolveAll node _).1 = _
  rw [resolveAll_fst]
  rfl

/-- What becomes of a token of an interpolated text. -/
def piece : Token → Piece C
  | .literal text => .literal (String.ofList text)
  | .expression source =>
    match c.registry.resolve? (.ofText (String.ofList source)) with
    | some a => .slot a
    | none => .literal ""

@[simp] theorem pieces_fst (node : NodeId) (tokens : List Token) :
    (c.pieces node tokens).1 = tokens.map c.piece := by
  induction tokens with
  | nil => rfl
  | cons token tokens ih =>
    rw [List.map_cons, ← ih]
    cases token with
    | literal text => rfl
    | expression source =>
      rw [pieces, piece, ← resolve_fst c node]
      obtain ⟨_ | a, trace⟩ := c.resolve node (Descriptor.ofText (String.ofList source)) <;> rfl

@[simp] theorem pieces_snd_fst (node : NodeId) (tokens : List Token) :
    (c.pieces node tokens).2.1 = (tokens.map c.piece).any Piece.isSlot := by
  induction tokens with
  | nil => rfl
  | cons token tokens ih =>
    rw [List.map_cons, List.any_cons, ← ih]
    cases token with
    | literal text => rfl
    | expression source =>
      rw [pieces, piece, ← resolve_fst c node]
      obtain ⟨_ | a, trace⟩ := c.resolve node (Descriptor.ofText (String.ofList source)) <;> rfl

theorem compileText_fst (node : NodeId) (data : String) :
    (c.compileText node data).1 =
      if Interpolation.hasExpression data.toList &&
          ((Interpolation.tokenize data.toList).map c.piece).any Piece.isSlot then
        some (.text ((Interpolation.tokenize data.toList).map c.piece))
      else none := by
  unfold compileText
  split
  · rename_i h
    dsimp only
    rw [pieces_fst, pieces_snd_fst, h, Bool.true_and]
  · rename_i h
    rw [Bool.eq_false_iff.mpr h, Bool.false_and]
    rfl

theorem compileElement_fst (node : NodeId) (tag : String) (attrs : Attributes)
    (content : List Char) :
    (c.compileElement node tag attrs content).1 =
      match c.terminal? attrs with
      | some a => some (.terminal a)
      | none =>
        if equalIgnoringCase tag "textarea" && Interpolation.hasExpression content then
          some (.textarea (byPriority (c.applications attrs)))
        else Program.ofDirectives? (byPriority (c.applications attrs)) := by
  unfold compileElement
  cases c.terminal? attrs with
  | some a => rfl
  | none =>
    dsimp only
    split
    · rw [directives_fst]
    · rw [directives_fst]

/-! ## The agenda -/

mutual

/-- The nodes of a tree that have a program of their own, each with its program, a node before those
below it. -/
def agenda (c : Compiler C) : Tree NodeId → List (Tree NodeId × Program C)
  | .node n kind attrs data children =>
    let t := Tree.node n kind attrs data children
    let own := (c.compileNode t).1
    own.toList.map (Prod.mk t) ++
      if own.any Program.isTerminal || kind.hasTag "script" then [] else agendaAll c children

/-- The agenda of trees, one tree after the other. -/
def agendaAll (c : Compiler C) : List (Tree NodeId) → List (Tree NodeId × Program C)
  | [] => []
  | t :: ts => agenda c t ++ agendaAll c ts

end

theorem compileEach_fst (ts : List (Tree NodeId)) :
    (c.compileEach ts).1 = ts.map fun t ↦ (c.compile t).1 := by
  induction ts with
  | nil => rw [compileEach]; rfl
  | cons t ts ih => rw [compileEach, List.map_cons, ← ih]

theorem combine?_none (own : Option (Program C)) : Program.combine? own none = own := by
  cases own <;> rfl

/-- The program of a tree is its own, followed by that of its children. -/
theorem compile_fst (n : NodeId) (kind : NodeKind) (attrs : Attributes) (data : String)
    (children : List (Tree NodeId)) :
    (c.compile (.node n kind attrs data children)).1 =
      Program.combine? (c.compileNode (.node n kind attrs data children)).1
        (if (c.compileNode (.node n kind attrs data children)).1.any Program.isTerminal ||
            kind.hasTag "script" then none
          else siblings? (children.map fun t ↦ (c.compile t).1)) := by
  have hdescends : descends (.node n kind attrs data children)
      (c.compileNode (.node n kind attrs data children)).1 =
        (!((c.compileNode (.node n kind attrs data children)).1.any Program.isTerminal ||
          kind.hasTag "script") && !children.isEmpty) := by
    rw [descends, Bool.not_or]
    rfl
  rw [compile]
  dsimp only
  rw [hdescends]
  split
  · rename_i h
    obtain ⟨h, -⟩ := Bool.and_eq_true_iff.mp h
    rw [if_neg (Bool.eq_false_iff.mp ((Bool.not_eq_true' _).mp h)), compileEach_fst]
  · rename_i h
    split
    · exact (combine?_none _).symm
    · rename_i hown
      have hempty : children.isEmpty = true := by
        simpa [Bool.eq_false_iff.mpr hown] using h
      rw [List.isEmpty_iff.mp hempty]
      exact (combine?_none _).symm

theorem combine?_eq_none_iff (own children : Option (Program C)) :
    Program.combine? own children = none ↔ own = none ∧ children = none := by
  cases own <;> cases children <;> simp [Program.combine?]

theorem siblings?_eq_none_iff (programs : List (Option (Program C))) :
    siblings? programs = none ↔ ∀ p ∈ programs, p = none := by
  rw [siblings?]
  split
  · rename_i h
    obtain ⟨p, hp, hsome⟩ := List.any_eq_true.mp h
    refine ⟨fun hc ↦ absurd hc (Option.some_ne_none _), fun hall ↦ ?_⟩
    rw [hall p hp] at hsome
    contradiction
  · rename_i h
    refine ⟨fun _ p hp ↦ ?_, fun _ ↦ rfl⟩
    by_contra hne
    exact h (List.any_eq_true.mpr ⟨p, hp, Option.isSome_iff_ne_none.mpr hne⟩)

mutual

/-- A tree has a program exactly if a node of its agenda has. -/
theorem compile_eq_none_iff (t : Tree NodeId) : (c.compile t).1 = none ↔ c.agenda t = [] := by
  obtain ⟨n, kind, attrs, data, children⟩ := t
  rw [compile_fst, combine?_eq_none_iff, agenda, List.append_eq_nil_iff, List.map_eq_nil_iff,
    Option.toList_eq_nil_iff]
  refine and_congr_right fun _ ↦ ?_
  split
  · exact iff_of_true rfl rfl
  · rw [siblings?_eq_none_iff]
    exact compileEach_eq_none_iff children

theorem compileEach_eq_none_iff (ts : List (Tree NodeId)) :
    (∀ p ∈ ts.map fun t ↦ (c.compile t).1, p = none) ↔ c.agendaAll ts = [] := by
  match ts with
  | [] => exact iff_of_true (fun _ hp ↦ absurd hp List.not_mem_nil) rfl
  | t :: ts =>
    rw [agendaAll, List.append_eq_nil_iff, List.map_cons, List.forall_mem_cons,
      compile_eq_none_iff t, compileEach_eq_none_iff ts]

end

/-! ## Labels -/

theorem compileNode_fst_of_plain {t u : Tree NodeId} (h : t.plain = u.plain) :
    (c.compileNode t).1 = (c.compileNode u).1 := by
  have hcontent := Tree.textContent_of_plain h
  obtain ⟨n, kind, attrs, data, ts⟩ := t
  obtain ⟨m, kind', attrs', data', us⟩ := u
  simp only [Tree.plain, Tree.map, Tree.node.injEq, true_and] at h
  obtain ⟨rfl, rfl, rfl, -⟩ := h
  unfold compileNode
  cases kind with
  | element tag =>
    simp only [Tree.kind, Tree.attrs, compileElement_fst, hcontent]
  | text => simp only [Tree.kind, Tree.data, compileText_fst]
  | comment => rfl
  | fragment => rfl

mutual

/-- Programs do not depend on the identities of nodes. -/
theorem compile_fst_of_plain (t u : Tree NodeId) (h : t.plain = u.plain) :
    (c.compile t).1 = (c.compile u).1 := by
  have hown := c.compileNode_fst_of_plain h
  obtain ⟨n, kind, attrs, data, ts⟩ := t
  obtain ⟨m, kind', attrs', data', us⟩ := u
  simp only [Tree.plain, Tree.map, Tree.node.injEq, true_and] at h
  obtain ⟨rfl, rfl, rfl, hchildren⟩ := h
  rw [compile_fst, compile_fst, hown, map_compile_fst_of_plain ts us hchildren]

theorem map_compile_fst_of_plain (ts us : List (Tree NodeId))
    (h : Tree.mapAll (fun _ ↦ ()) ts = Tree.mapAll (fun _ ↦ ()) us) :
    (ts.map fun t ↦ (c.compile t).1) = us.map fun u ↦ (c.compile u).1 := by
  match ts, us with
  | [], [] => rfl
  | t :: ts, u :: us =>
    rw [Tree.mapAll, Tree.mapAll] at h
    obtain ⟨ht, hts⟩ := List.cons.inj h
    rw [List.map_cons, List.map_cons, compile_fst_of_plain t u ht,
      map_compile_fst_of_plain ts us hts]

end

end Compiler

end LiveMarkup
