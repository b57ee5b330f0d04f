import LiveMarkup.Live.Client
import LiveMarkup.Proofs.Binding.Plan

/-!
# Reports of skipped requests

A request for a directive that nobody defines is skipped, and reported if reports are asked for.
Which reports a tree brings can be said without compiling it. `Compiler.visited` lists the nodes
that are looked at, a node before those below it; nothing below an element is looked at that is
taken by a terminal directive, that is a script, or that is a text area whose text is interpolated.
What a node asks for is read off its attributes or its text (`Compiler.requests`), in order, and an
element that is taken asks for nothing else. Of these requests, the ones for unknown names are
reported (`Compiler.reports`).

Compiling makes exactly these reports, in this order (`Compiler.diagnostics_compile`). They are a
matter of looking only: whether they are asked for makes no difference to the program
(`Compiler.compile_fst_reporting`).
-/

namespace LiveMarkup

variable {C H : Type}

namespace Compiler

/-! ## What is looked at, and what it asks for -/

/-- The compiler, with reports asked for or not. -/
def reporting (c : Compiler C) (asked : Bool) : Compiler C :=
  { c with config := { c.config with diagnostics := asked } }

variable (c : Compiler C)

/-- Whether a node is an element that carries the attribute of a terminal directive. -/
def isTaken (t : Tree NodeId) : Bool :=
  match t.kind with
  | .element _ => c.registry.terminalNames.any fun name ↦
      c.registry.contains name && t.attrs.has (c.config.mark ++ name)
  | .text | .comment | .fragment => false

/-- What an attribute asks for: the directive it names, or `attr` if its value is interpolated. -/
def attributeRequest? (attr value : String) : Option (String × Option String) :=
  match c.directiveName? attr with
  | some name => some (name, some attr)
  | none =>
    if Interpolation.hasExpression value.toList then some (attributeDirective, none) else none

/-- What a token of a text asks for: `bind` for an expression. -/
def tokenRequest? : Token → Option (String × Option String)
  | .expression _ => some (textDirective, none)
  | .literal _ => none

/-- The names that a node asks for, in order, each with the attribute that names it, if one does. -/
def requests (t : Tree NodeId) : List (String × Option String) :=
  match t.kind with
  | .element _ => t.attrs.filterMap fun (attr, value) ↦ c.attributeRequest? attr value
  | .text => (Interpolation.tokenize t.data.toList).filterMap tokenRequest?
  | .comment | .fragment => []

/-- The report of a request, if its name is unknown. -/
def report? (n : NodeId) (request : String × Option String) : Option Diagnostic :=
  if c.registry.contains request.1 then none else some ⟨request.1, request.2, n⟩

/-- The reports that a node brings. -/
def reports (t : Tree NodeId) : List Diagnostic :=
  if c.isTaken t then [] else (c.requests t).filterMap (c.report? t.label)

mutual

/-- The nodes of a tree that are looked at, each with all that is below it. -/
def visited (c : Compiler C) : Tree NodeId → List (Tree NodeId)
  | .node n kind attrs data children =>
    let t := Tree.node n kind attrs data children
    t :: if c.isTaken t || kind.hasTag "script" || isResolved t then [] else visitedAll c children

/-- The nodes of trees that are looked at, one tree after the other. -/
def visitedAll (c : Compiler C) : List (Tree NodeId) → List (Tree NodeId)
  | [] => []
  | t :: ts => visited c t ++ visitedAll c ts

end

/-- An attribute asks by name exactly if it is the mark with a name behind it. -/
theorem directiveName?_eq_some_iff {attr name : String} :
    c.directiveName? attr = some name ↔ name ≠ "" ∧ attr = c.config.mark ++ name := by
  constructor
  · intro h
    refine ⟨?_, eq_of_directiveName? h⟩
    rintro rfl
    unfold directiveName? at h
    split at h
    · exact absurd (congrArg String.toList (Option.some.inj h)) (by simp)
    · contradiction
  · rintro ⟨hname, rfl⟩
    have hrest : List.isPrefixOf? c.config.mark.toList (c.config.mark ++ name).toList =
        some name.toList := by
      rw [List.isPrefixOf?_eq_some_iff_append_eq, String.toList_append]
    rw [directiveName?, hrest]
    cases hchars : name.toList with
    | nil => exact absurd (String.toList_inj.mp hchars) hname
    | cons ch rest =>
      dsimp only
      rw [← hchars, String.ofList_toList]

/-! ## One node -/

@[simp] theorem diagnostics_append (t u : Trace) :
    (t ++ u).diagnostics = t.diagnostics ++ u.diagnostics := rfl

theorem diagnostics_resolve (n : NodeId) (d : Descriptor) :
    (c.resolve n d).2.diagnostics =
      if c.config.diagnostics then (c.report? n (d.name, d.sourceAttr)).toList else [] := by
  rw [report?, ← isSome_resolve?]
  unfold resolve
  cases c.registry.resolve? d with
  | some a => exact (ite_self _).symm
  | none => rfl

theorem diagnostics_resolveAll (n : NodeId) (ds : List Descriptor) :
    (c.resolveAll n ds).2.diagnostics =
      if c.config.diagnostics then ds.filterMap fun d ↦ c.report? n (d.name, d.sourceAttr)
      else [] := by
  induction ds with
  | nil => exact (ite_self _).symm
  | cons d ds ih =>
    change (c.resolve n d).2.diagnostics ++ (c.resolveAll n ds).2.diagnostics = _
    rw [ih, diagnostics_resolve, List.filterMap_cons]
    cases c.config.diagnostics with
    | false => rfl
    | true => cases c.report? n (d.name, d.sourceAttr) <;> rfl

theorem diagnostics_pieces (n : NodeId) (tokens : List Token) :
    (c.pieces n tokens).2.2.diagnostics =
      if c.config.diagnostics then (tokens.filterMap tokenRequest?).filterMap (c.report? n)
      else [] := by
  induction tokens with
  | nil => exact (ite_self _).symm
  | cons token tokens ih =>
    cases token with
    | literal text => exact ih
    | expression source =>
      have hsplit : (c.pieces n (.expression source :: tokens)).2.2.diagnostics =
          (c.resolve n (.ofText (String.ofList source))).2.diagnostics ++
            (c.pieces n tokens).2.2.diagnostics := by
        rw [pieces]
        obtain ⟨_ | a, trace⟩ := c.resolve n (.ofText (String.ofList source)) <;> rfl
      have hrequests : (Token.expression source :: tokens).filterMap tokenRequest? =
          (textDirective, none) :: tokens.filterMap tokenRequest? := rfl
      rw [hsplit, ih, diagnostics_resolve, hrequests, List.filterMap_cons]
      change (if _ then (c.report? n (textDirective, none)).toList else _) ++ _ = _
      cases c.config.diagnostics with
      | false => rfl
      | true => cases c.report? n (textDirective, none) <;> rfl

theorem request?_eq_attributeRequest? (attr value : String) :
    (c.request? attr value).map (fun d ↦ (d.name, d.sourceAttr)) =
      c.attributeRequest? attr value := by
  rw [request?, attributeRequest?]
  cases c.directiveName? attr with
  | some name => rfl
  | none => cases Interpolation.hasExpression value.toList <;> rfl

theorem diagnostics_directives (n : NodeId) (attrs : Attributes) :
    (c.directives n attrs).2.diagnostics =
      if c.config.diagnostics then
        (attrs.filterMap fun (attr, value) ↦ c.attributeRequest? attr value).filterMap (c.report? n)
      else [] := by
  change (c.resolveAll n (attrs.filterMap fun x ↦ c.request? x.1 x.2)).2.diagnostics = _
  rw [diagnostics_resolveAll]
  simp only [← request?_eq_attributeRequest?, List.filterMap_filterMap, Option.bind_map]
  rfl

/-- The search for a terminal directive finds one if the element carries the attribute of one. -/
theorem isSome_terminal? (attrs : Attributes) :
    (c.terminal? attrs).isSome = c.registry.terminalNames.any fun name ↦
      c.registry.contains name && attrs.has (c.config.mark ++ name) := by
  rw [terminal?]
  dsimp only
  simp only [bind_get?_resolve?]
  induction c.registry.terminalNames with
  | nil => rfl
  | cons name names ih =>
    rw [List.findSome?_cons, List.any_cons, ← ih]
    cases hcarries : c.registry.contains name && attrs.has (c.config.mark ++ name) with
    | false => rfl
    | true =>
      have hsome := c.isSome_resolve? (.ofDirective name
        ((attrs.get? (c.config.mark ++ name)).getD "") (c.config.mark ++ name))
      obtain ⟨a, ha⟩ := Option.isSome_iff_exists.mp
        (hsome.trans (Bool.and_eq_true_iff.mp hcarries).1)
      rw [if_pos rfl, ha]
      rfl

theorem diagnostics_compileNode (t : Tree NodeId) :
    (c.compileNode t).2.diagnostics = if c.config.diagnostics then c.reports t else [] := by
  obtain ⟨n, kind, attrs, data, children⟩ := t
  cases kind with
  | element tag =>
    change (c.compileElement n tag attrs _).2.diagnostics = _
    have htaken : c.isTaken (.node n (.element tag) attrs data children) =
        (c.terminal? attrs).isSome := (c.isSome_terminal? attrs).symm
    rw [compileElement, reports, htaken]
    cases c.terminal? attrs with
    | some a => exact (ite_self _).symm
    | none =>
      dsimp only
      rw [apply_ite Prod.snd, ite_self, diagnostics_directives]
      rfl
  | text =>
    change (c.compileText n data).2.diagnostics = _
    have hreports : c.reports (.node n .text attrs data children) =
        ((Interpolation.tokenize data.toList).filterMap tokenRequest?).filterMap (c.report? n) :=
      rfl
    rw [compileText, hreports]
    cases hexpression : Interpolation.hasExpression data.toList with
    | true =>
      rw [if_pos rfl]
      dsimp only
      rw [diagnostics_append, diagnostics_pieces, List.append_nil]
    | false =>
      rw [Interpolation.hasExpression_eq] at hexpression
      have hnone : (Interpolation.tokenize data.toList).filterMap tokenRequest? = [] := by
        refine List.filterMap_eq_nil_iff.mpr fun token htoken ↦ ?_
        cases token with
        | literal text => rfl
        | expression source => exact absurd rfl (List.any_eq_false.mp hexpression _ htoken)
      rw [hnone]
      exact (ite_self _).symm
  | comment => exact (ite_self _).symm
  | fragment => exact (ite_self _).symm

/-- A node keeps its children to itself if it is taken, or is a text area to be resolved. -/
theorem any_isTerminal_compileNode (t : Tree NodeId) :
    (c.compileNode t).1.any Program.isTerminal = (c.isTaken t || isResolved t) := by
  obtain ⟨n, kind, attrs, data, children⟩ := t
  cases kind with
  | element tag =>
    have htaken : c.isTaken (.node n (.element tag) attrs data children) =
        (c.terminal? attrs).isSome := (c.isSome_terminal? attrs).symm
    rw [htaken, terminal?_eq_owner?]
    cases howner : c.owner? attrs with
    | some a =>
      rw [c.compileNode_fst_of_owner?_some howner]
      rfl
    | none =>
      rw [c.compileNode_fst_of_owner?_none howner]
      cases isResolved (.node n (.element tag) attrs data children) with
      | true => rfl
      | false => exact any_isTerminal_ofDirectives? _
  | text =>
    change (c.compileText n data).1.any Program.isTerminal = false
    rw [compileText_fst]
    split <;> rfl
  | comment => rfl
  | fragment => rfl

/-! ## Trees -/

/-- The reports of a tree are those of its root, followed by those of its children. -/
theorem diagnostics_compile_node (n : NodeId) (kind : NodeKind) (attrs : Attributes) (data : String)
    (children : List (Tree NodeId)) :
    (c.compile (.node n kind attrs data children)).2.diagnostics =
      (c.compileNode (.node n kind attrs data children)).2.diagnostics ++
        if c.isTaken (.node n kind attrs data children) || kind.hasTag "script" ||
            isResolved (.node n kind attrs data children) then []
        else (c.compileEach children).2.diagnostics := by
  have hdescends : descends (.node n kind attrs data children)
      (c.compileNode (.node n kind attrs data children)).1 =
        (!(c.isTaken (.node n kind attrs data children) || kind.hasTag "script" ||
          isResolved (.node n kind attrs data children)) && !children.isEmpty) := by
    rw [descends, any_isTerminal_compileNode, Bool.or_right_comm, Bool.not_or (_ || _)]
    rfl
  rw [compile]
  dsimp only
  rw [hdescends]
  cases c.isTaken (.node n kind attrs data children) || kind.hasTag "script" ||
      isResolved (.node n kind attrs data children) with
  | true => exact (List.append_nil _).symm
  | false =>
    cases children with
    | nil =>
      rw [compileEach]
      exact (List.append_nil _).symm
    | cons child children => rfl

mutual

/-- **Reports are made where they are due.** Compiling a tree reports, if asked to, what the nodes
that are looked at ask for without its being known. -/
theorem diagnostics_compile (t : Tree NodeId) :
    (c.compile t).2.diagnostics =
      if c.config.diagnostics then (c.visited t).flatMap c.reports else [] := by
  obtain ⟨n, kind, attrs, data, children⟩ := t
  rw [diagnostics_compile_node, diagnostics_compileNode, diagnostics_compileEach children, visited,
    List.flatMap_cons]
  cases c.config.diagnostics with
  | true => simp only [if_true, apply_ite (List.flatMap c.reports), List.flatMap_nil]
  | false => exact ite_self _

theorem diagnostics_compileEach (ts : List (Tree NodeId)) :
    (c.compileEach ts).2.diagnostics =
      if c.config.diagnostics then (c.visitedAll ts).flatMap c.reports else [] := by
  match ts with
  | [] => exact (ite_self _).symm
  | t :: ts =>
    have hsplit : (c.compileEach (t :: ts)).2.diagnostics =
        (c.compile t).2.diagnostics ++ (c.compileEach ts).2.diagnostics := by
      rw [compileEach]
      rfl
    rw [hsplit, diagnostics_compile t, diagnostics_compileEach ts, visitedAll, List.flatMap_append]
    cases c.config.diagnostics <;> rfl

end

/-- An element reports the directive it names and the attribute it interpolates; the mark alone asks
for nothing. -/
example :
    let c : Compiler Unit := { registry := .empty }
    c.reports (.element ⟨0⟩ "p" [("v-on", "x"), ("v-", "y"), ("title", "{{a}}")] []) =
      [⟨"on", some "v-on", ⟨0⟩⟩, ⟨"attr", none, ⟨0⟩⟩] := by cbv

/-! ## Reports and programs -/

theorem compileNode_fst_reporting (asked : Bool) (t : Tree NodeId) :
    ((c.reporting asked).compileNode t).1 = (c.compileNode t).1 := by
  obtain ⟨n, kind, attrs, data, children⟩ := t
  cases kind with
  | element tag =>
    change ((c.reporting asked).compileElement n tag attrs _).1 = (c.compileElement n tag attrs _).1
    rw [compileElement_fst, compileElement_fst]
    rfl
  | text =>
    change ((c.reporting asked).compileText n data).1 = (c.compileText n data).1
    rw [compileText_fst, compileText_fst]
    rfl
  | comment => rfl
  | fragment => rfl

mutual

/-- Whether reports are asked for makes no difference to programs. -/
theorem compile_fst_reporting (asked : Bool) (t : Tree NodeId) :
    ((c.reporting asked).compile t).1 = (c.compile t).1 := by
  obtain ⟨n, kind, attrs, data, children⟩ := t
  rw [compile_fst, compile_fst, compileNode_fst_reporting, map_compile_fst_reporting asked children]

theorem map_compile_fst_reporting (asked : Bool) (ts : List (Tree NodeId)) :
    (ts.map fun t ↦ ((c.reporting asked).compile t).1) = ts.map fun t ↦ (c.compile t).1 := by
  match ts with
  | [] => rfl
  | t :: ts =>
    rw [List.map_cons, List.map_cons, compile_fst_reporting asked t,
      map_compile_fst_reporting asked ts]

end

theorem compileAll_fst_reporting (asked : Bool) (ts : List (Tree NodeId)) :
    ((c.reporting asked).compileAll ts).1 = (c.compileAll ts).1 := by
  rw [compileAll, compileAll]
  dsimp only
  rw [compileEach_fst, compileEach_fst, map_compile_fst_reporting]

end Compiler

/-! ## Compilers that keep their reports -/

/-- Reports are kept with the compiler that makes them. What is no compiler makes none. -/
theorem World.diagnostics_modifyCompiler (w : World C H) (i : CompilerId) {ds : List Diagnostic}
    (hnone : (w.compiler i).compiler.config.diagnostics = false → ds = []) :
    ((w.modifyCompiler i fun c ↦ { c with diagnostics := c.diagnostics ++ ds }).compiler
      i).diagnostics = (w.compiler i).diagnostics ++ ds := by
  rw [compiler, modifyCompiler]
  by_cases h : i.index < w.compilers.size
  · simp [compiler, Array.getD, h, Array.getElem_modify_self]
  · have hmissing : w.compiler i = default := by simp [compiler, Array.getD, h]
    rw [hmissing] at hnone ⊢
    rw [hnone rfl]
    simp [Array.getD, h]

/-- What a compiler has done that has made a program of trees: it has added a report for each
request of a node it has looked at whose name is unknown, in order, if it is to report; and it would
have made the same program in either case. -/
structure Compiler.Reported (c : Compiler C) (looked : List (Tree NodeId))
    (compiled : Compiler C → Option (Program C)) (before after : List Diagnostic)
    (program : Option (Program C)) : Prop where
  appended : after = before ++ if c.config.diagnostics then looked.flatMap c.reports else []
  program : ∀ asked, compiled (c.reporting asked) = program

namespace Client

variable (client : Client C H) (fuel : Nat) (st : State Value (Routine C) (World C H))

theorem reported_compileWith (i : CompilerId)
    (looked : Compiler C → List (Tree NodeId))
    {compile : Compiler C → NodeStore → Option (Program C) × Trace}
    (hreports : ∀ c, (compile c st.world.nodes).2.diagnostics =
      if c.config.diagnostics then (looked c).flatMap c.reports else [])
    (hprogram : ∀ (c : Compiler C) asked,
      (compile (c.reporting asked) st.world.nodes).1 = (compile c st.world.nodes).1) :
    ∃ program st', client.run fuel (Live.compileWith i compile) st = some (program, st') ∧
      (st.world.compiler i).compiler.Reported (looked (st.world.compiler i).compiler)
        (fun c ↦ (compile c st.world.nodes).1) (st.world.compiler i).diagnostics
        (st'.world.compiler i).diagnostics program := by
  refine ⟨_, _, rfl, ?_, hprogram _⟩
  rw [← hreports]
  refine st.world.diagnostics_modifyCompiler i fun hoff ↦ ?_
  rw [hreports, hoff]
  rfl

/-- **Exactly the skipped requests are reported.** Compiling a tree, or trees, always answers; the
reports it adds to those that the compiler has made before are those of the nodes it looks at. -/
theorem compile_reports (i : CompilerId) :
    (∀ n, ∃ program st', client.run fuel (Live.compile i n) st = some (program, st') ∧
      (st.world.compiler i).compiler.Reported
        ((st.world.compiler i).compiler.visited (st.world.nodes.tree n))
        (fun c ↦ (c.compile (st.world.nodes.tree n)).1)
        (st.world.compiler i).diagnostics (st'.world.compiler i).diagnostics program) ∧
    ∀ ns, ∃ program st', client.run fuel (Live.compileNodes i ns) st = some (program, st') ∧
      (st.world.compiler i).compiler.Reported
        ((st.world.compiler i).compiler.visitedAll (ns.map st.world.nodes.tree))
        (fun c ↦ (c.compileAll (ns.map st.world.nodes.tree)).1)
        (st.world.compiler i).diagnostics (st'.world.compiler i).diagnostics program := by
  constructor
  · intro n
    exact client.reported_compileWith fuel st i (fun c ↦ c.visited _)
      (fun c ↦ c.diagnostics_compile _) fun c asked ↦ c.compile_fst_reporting asked _
  · intro ns
    exact client.reported_compileWith fuel st i (fun c ↦ c.visitedAll _)
      (fun c ↦ c.diagnostics_compileEach _) fun c asked ↦ c.compileAll_fst_reporting asked _

end Client

end LiveMarkup
