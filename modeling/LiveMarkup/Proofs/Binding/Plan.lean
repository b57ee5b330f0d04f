import Mathlib.Data.List.Sort
import LiveMarkup.Proofs.Binding.Agenda

/-!
# The plan of a template

The rules of `LiveMarkup.Binding.Compile`, said once more without programs: `Compiler.plan` lists
which directives are to be bound, and where, in the order in which they are. It follows the tree. An
element that carries the attribute of a terminal directive contributes that directive alone, the
first in the order of the registry; any other contributes the directives of its attributes, sorted
by insertion from the highest priority down, and then what its children contribute, unless it is a
script or an interpolated text area. A text contributes one directive for each of its expressions.

The agenda of the tree contributes exactly the plan (`Compiler.plan_eq_flatMap_agenda`), and the
tree has a program exactly if there is a plan, or a text area to resolve
(`Compiler.compile_eq_none_iff_plan`).
-/

namespace LiveMarkup

/-! ## Expressions in texts -/

namespace Interpolation

theorem pushLiteral_any_isExpression (text : List Char) (tokens : List Token) :
    (pushLiteral text tokens).any Token.isExpression = tokens.any Token.isExpression := by
  unfold pushLiteral
  split <;> rfl

/-- Without an opening there is no expression. -/
theorem hasOpening_of_any_isExpression (cs : List Char)
    (h : (tokenize cs).any Token.isExpression = true) : hasOpening cs = true := by
  fun_induction tokenize cs with
  | case1 => contradiction
  | case2 => rfl
  | case3 => rfl
  | case4 => rfl
  | case5 c r _ ih =>
    rw [pushLiteral_any_isExpression] at h
    unfold hasOpening
    split
    · rfl
    · rename_i heq
      obtain ⟨-, rfl⟩ := List.cons.inj heq
      exact ih h
    · contradiction

theorem hasExpression_eq (cs : List Char) :
    hasExpression cs = (tokenize cs).any Token.isExpression := by
  rw [hasExpression, Bool.eq_iff_iff, Bool.and_eq_true]
  exact ⟨And.right, fun h ↦ ⟨hasOpening_of_any_isExpression cs h, h⟩⟩

end Interpolation

/-! ## Orders by priority -/

/-- Merging and inserting keep the same order among applications of one priority. -/
theorem Compiler.byPriority_eq_insertionSort {C : Type} (as : List (Application C)) :
    byPriority as = as.insertionSort fun a b ↦ b.priority ≤ a.priority := by
  have htrans (a b c : Application C) (hab : decide (b.priority ≤ a.priority) = true)
      (hbc : decide (c.priority ≤ b.priority) = true) :
      decide (c.priority ≤ a.priority) = true :=
    decide_eq_true (Int.le_trans (of_decide_eq_true hbc) (of_decide_eq_true hab))
  have htotal (a b : Application C) :
      (decide (b.priority ≤ a.priority) || decide (a.priority ≤ b.priority)) = true := by
    rw [Bool.or_eq_true, decide_eq_true_iff, decide_eq_true_iff]
    exact Int.le_total _ _
  induction as with
  | nil => exact List.mergeSort_nil
  | cons a as ih =>
    obtain ⟨before, behind, hcons, hrest, hbefore⟩ := List.mergeSort_cons htrans htotal a as
    have hsorted := List.pairwise_mergeSort htrans htotal (a :: as)
    rw [hcons, List.pairwise_append, List.pairwise_cons] at hsorted
    obtain ⟨-, ⟨hbehind, -⟩, -⟩ := hsorted
    rw [List.insertionSort_cons, ← ih, byPriority, byPriority, hcons, hrest]
    clear hcons hrest ih
    induction before with
    | nil =>
      cases behind with
      | nil => rfl
      | cons b behind =>
        exact (List.orderedInsert_cons_of_le _ behind
          (of_decide_eq_true (hbehind b List.mem_cons_self))).symm
    | cons b before ih =>
      have hb : ¬ b.priority ≤ a.priority := by
        simpa using hbefore b List.mem_cons_self
      rw [List.cons_append, List.cons_append, List.orderedInsert_cons, if_neg hb,
        ← ih fun c hc ↦ hbefore c (List.mem_cons_of_mem b hc)]

/-! ## The plan -/

/-- A place for a directive. -/
inductive Site where
  /-- An element of the tree. -/
  | element (n : NodeId) (tag : String)
  /-- A new text for one expression of a text of the tree. -/
  | slot (n : NodeId)

/-- What a node at that place is. -/
def Site.kind : Site → NodeKind
  | .element _ tag => .element tag
  | .slot _ => .text

/-- A directive that is to be bound, and where. -/
structure Errand (C : Type) where
  application : Application C
  site : Site

/-- The directive, and what it is to be bound on, whichever node that is. -/
def Errand.task {C : Type} (x : Errand C) : Application C × NodeKind := (x.application, x.site.kind)

namespace Compiler

variable {C : Type} (c : Compiler C)

/-- An attribute asks for a directive by the mark and its name. -/
theorem eq_of_directiveName? {c : Compiler C} {attr name : String}
    (h : c.directiveName? attr = some name) : attr = c.config.mark ++ name := by
  unfold directiveName? at h
  split at h
  · rename_i ch rest hrest
    obtain rfl := Option.some.inj h
    refine String.toList_inj.mp ?_
    rw [String.toList_append, String.toList_ofList]
    exact (List.isPrefixOf?_eq_some_iff_append_eq.mp hrest).symm
  · contradiction

/-- The terminal directive that owns an element: of the registered ones whose attribute the element
carries, the first in the order of the registry. -/
def owner? (attrs : Attributes) : Option (Application C) :=
  let names := c.registry.terminalNames.filter c.registry.contains
  (names.find? fun name ↦ attrs.has (c.config.mark ++ name)).bind fun name ↦
    let attr := c.config.mark ++ name
    c.registry.resolve? (.ofDirective name ((attrs.get? attr).getD "") attr)

/-- The directives for the expressions of a text. -/
def slots (n : NodeId) (data : List Char) : List (Errand C) :=
  (Interpolation.tokenize data).filterMap fun
    | .literal _ => none
    | .expression source =>
      (c.registry.resolve? (.ofText (String.ofList source))).map (Errand.mk · (.slot n))

/-- Whether an element is a text area whose text is interpolated. -/
def isResolved {α : Type} (t : Tree α) : Bool :=
  t.hasTag "textarea" && Interpolation.hasExpression t.textContent

mutual

/-- The directives to be bound on a tree, in order. -/
def plan (c : Compiler C) : Tree NodeId → List (Errand C)
  | .node n kind attrs data children =>
    match kind with
    | .element tag =>
      match c.owner? attrs with
      | some a => [⟨a, .element n tag⟩]
      | none =>
        let own := (c.applications attrs).insertionSort fun a b ↦ b.priority ≤ a.priority
        own.map (Errand.mk · (.element n tag)) ++
          if kind.hasTag "script" || isResolved (.node n kind attrs data children) then []
          else planAll c children
    | .text => c.slots n data.toList
    | .comment => []
    | .fragment => planAll c children

/-- The directives to be bound on trees, one tree after the other. -/
def planAll (c : Compiler C) : List (Tree NodeId) → List (Errand C)
  | [] => []
  | t :: ts => plan c t ++ planAll c ts

end

mutual

/-- Whether the plan of a tree comes by a text area that is resolved. -/
def resolves (c : Compiler C) : Tree NodeId → Prop
  | .node n kind attrs data children =>
    match kind with
    | .element _ =>
      c.owner? attrs = none ∧
        (isResolved (.node n kind attrs data children) ∨
          kind.hasTag "script" = false ∧ resolvesAll c children)
    | .fragment => resolvesAll c children
    | .text | .comment => False

/-- Whether the plan of trees comes by a text area that is resolved. -/
def resolvesAll (c : Compiler C) : List (Tree NodeId) → Prop
  | [] => False
  | t :: ts => resolves c t ∨ resolvesAll c ts

end

/-! ## What programs contribute -/

end Compiler

/-- The place for the directives of a node's own program. -/
def Tree.site (t : Tree NodeId) : Site :=
  match t.kind with
  | .element tag => .element t.label tag
  | .text | .comment | .fragment => .slot t.label

/-- The directives that the own program of the root of a tree binds, in order. -/
def Program.errands {C : Type} (t : Tree NodeId) : Program C → List (Errand C)
  | .terminal a => [⟨a, t.site⟩]
  | .directives a as => (a :: as).map (Errand.mk · t.site)
  | .text pieces =>
    pieces.filterMap fun
      | .literal _ => none
      | .slot a => some ⟨a, t.site⟩
  | .textarea as => as.map (Errand.mk · t.site)
  | .both .. | .siblings _ | .client .. => []

namespace Tree

variable {α : Type}

mutual

/-- Whether only elements and fragments have children. -/
def Proper : Tree α → Prop
  | .node _ kind _ _ children => (kind.isContainer = false → children = []) ∧ ProperAll children

/-- Whether only elements and fragments have children. -/
def ProperAll : List (Tree α) → Prop
  | [] => True
  | t :: ts => Proper t ∧ ProperAll ts

end

end Tree

namespace Compiler

variable {C : Type} (c : Compiler C)

/-- A request is joined with a definition exactly if its name is registered. -/
theorem isSome_resolve? (d : Descriptor) :
    (c.registry.resolve? d).isSome = c.registry.contains d.name :=
  Option.isSome_map

/-- The application of a terminal directive that an element asks for. -/
theorem bind_get?_resolve? (attrs : Attributes) (name : String) :
    ((attrs.get? (c.config.mark ++ name)).bind fun value ↦
      c.registry.resolve? (.ofDirective name value (c.config.mark ++ name))) =
    if c.registry.contains name && attrs.has (c.config.mark ++ name) then
      c.registry.resolve? (.ofDirective name ((attrs.get? (c.config.mark ++ name)).getD "")
        (c.config.mark ++ name))
    else none := by
  have hhas : attrs.has (c.config.mark ++ name) =
    (attrs.get? (c.config.mark ++ name)).isSome := rfl
  rw [hhas]
  cases attrs.get? (c.config.mark ++ name) with
  | none =>
    rw [Option.isSome_none, Bool.and_false]
    rfl
  | some value =>
    rw [Option.isSome_some, Bool.and_true, Option.bind_some, Option.getD_some]
    split
    · rfl
    · rename_i h
      rw [← Option.not_isSome_iff_eq_none, isSome_resolve?]
      exact h

theorem terminal?_eq_owner? (attrs : Attributes) : c.terminal? attrs = c.owner? attrs := by
  rw [terminal?, owner?]
  dsimp only
  simp only [bind_get?_resolve?]
  induction c.registry.terminalNames with
  | nil => rfl
  | cons name names ih =>
    rw [List.findSome?_cons, List.filter_cons, ih]
    cases hcontains : c.registry.contains name with
    | false => rfl
    | true =>
      rw [if_pos rfl, List.find?_cons]
      cases hhas : attrs.has (c.config.mark ++ name) with
      | false => rfl
      | true =>
        have hsome := c.isSome_resolve? (.ofDirective name
          ((attrs.get? (c.config.mark ++ name)).getD "") (c.config.mark ++ name))
        obtain ⟨a, ha⟩ := Option.isSome_iff_exists.mp (hsome.trans hcontains)
        simp only [ha, Bool.and_self, if_true, Option.bind_some]

theorem errands_ofDirectives? (t : Tree NodeId) (as : List (Application C)) :
    ((Program.ofDirectives? as).toList.map (Prod.mk t)).flatMap (fun x ↦ x.2.errands x.1) =
      as.map (Errand.mk · t.site) := by
  cases as with
  | nil => rfl
  | cons a as => exact List.append_nil _

/-- The expressions of a text contribute the slots among its pieces. -/
theorem slots_eq_filterMap (n : NodeId) (data : List Char) :
    c.slots n data = ((Interpolation.tokenize data).map c.piece).filterMap (fun
      | .literal _ => none
      | .slot a => some ⟨a, .slot n⟩) := by
  rw [slots, List.filterMap_map]
  refine List.filterMap_congr fun token _ ↦ ?_
  cases token with
  | literal text => rfl
  | expression source =>
    simp only [Function.comp_apply, piece]
    cases c.registry.resolve? (.ofText (String.ofList source)) <;> rfl

theorem compileText_fst_eq_none_iff (n : NodeId) (data : String) :
    (c.compileText n data).1 = none ↔ c.slots n data.toList = [] := by
  rw [compileText_fst, slots_eq_filterMap, List.filterMap_eq_nil_iff]
  split
  · rename_i h
    obtain ⟨piece, hpiece, hslot⟩ := List.any_eq_true.mp (Bool.and_eq_true_iff.mp h).2
    refine iff_of_false (Option.some_ne_none _) fun hall ↦ ?_
    cases piece with
    | literal text => contradiction
    | slot a => exact Option.some_ne_none _ (hall _ hpiece)
  · rename_i h
    refine iff_of_true rfl fun piece hpiece ↦ ?_
    cases piece with
    | literal text => rfl
    | slot a =>
      refine absurd ?_ h
      obtain ⟨token, htoken, hslot⟩ := List.mem_map.mp hpiece
      rw [Bool.and_eq_true, Interpolation.hasExpression_eq]
      refine ⟨List.any_eq_true.mpr ⟨token, htoken, ?_⟩, List.any_eq_true.mpr ⟨.slot a, hpiece, rfl⟩⟩
      cases token with
      | literal text => contradiction
      | expression source => rfl

/-- The own program of a text contributes what its expressions do. -/
theorem errands_compileText (n : NodeId) (attrs : Attributes) (data : String)
    (children : List (Tree NodeId)) :
    ((c.compileText n data).1.toList.map (Prod.mk (Tree.node n .text attrs data children))).flatMap
      (fun x ↦ x.2.errands x.1) = c.slots n data.toList := by
  cases hown : (c.compileText n data).1 with
  | none => exact ((c.compileText_fst_eq_none_iff n data).mp hown).symm
  | some q =>
    rw [compileText_fst] at hown
    split at hown
    · obtain rfl := Option.some.inj hown
      rw [slots_eq_filterMap]
      exact List.append_nil _
    · contradiction

/-- The own program of an element that no terminal directive owns. -/
theorem compileNode_fst_of_owner?_none {n : NodeId} {tag : String} {attrs : Attributes}
    {data : String} {children : List (Tree NodeId)} (h : c.owner? attrs = none) :
    (c.compileNode (.node n (.element tag) attrs data children)).1 =
      if isResolved (.node n (.element tag) attrs data children) then
        some (.textarea (byPriority (c.applications attrs)))
      else Program.ofDirectives? (byPriority (c.applications attrs)) := by
  rw [← terminal?_eq_owner?] at h
  change (c.compileElement n tag attrs _).1 = _
  rw [compileElement_fst, h]
  rfl

theorem compileNode_fst_of_owner?_some {n : NodeId} {tag : String} {attrs : Attributes}
    {data : String} {children : List (Tree NodeId)} {a : Application C}
    (h : c.owner? attrs = some a) :
    (c.compileNode (.node n (.element tag) attrs data children)).1 = some (.terminal a) := by
  rw [← terminal?_eq_owner?] at h
  change (c.compileElement n tag attrs _).1 = _
  rw [compileElement_fst, h]

theorem any_isTerminal_ofDirectives? (as : List (Application C)) :
    (Program.ofDirectives? as).any Program.isTerminal = false := by
  cases as <;> rfl

mutual

/-- **The agenda contributes the plan.** -/
theorem plan_eq_flatMap_agenda (t : Tree NodeId) (ht : t.Proper) :
    c.plan t = (c.agenda t).flatMap fun x ↦ x.2.errands x.1 := by
  obtain ⟨n, kind, attrs, data, children⟩ := t
  rw [Tree.Proper] at ht
  rw [agenda, List.flatMap_append]
  cases kind with
  | element tag =>
    rw [plan]
    cases howner : c.owner? attrs with
    | some a =>
      rw [compileNode_fst_of_owner?_some c howner]
      rfl
    | none =>
      rw [compileNode_fst_of_owner?_none c howner]
      dsimp only
      rw [← byPriority_eq_insertionSort]
      cases hresolved : isResolved (.node n (.element tag) attrs data children) with
      | true =>
        -- The text of a text area is resolved at once, and nothing below it is planned.
        have hterminal : (some (Program.textarea (byPriority (c.applications attrs)))).any
          Program.isTerminal = true := rfl
        rw [if_pos rfl, Bool.or_true, if_pos rfl, hterminal, Bool.true_or, if_pos rfl,
          List.flatMap_nil, List.append_nil, List.append_nil]
        exact (List.append_nil _).symm
      | false =>
        rw [if_neg Bool.false_ne_true, any_isTerminal_ofDirectives?, errands_ofDirectives?,
          Bool.or_false, Bool.false_or]
        split
        · rfl
        · rw [planAll_eq_flatMap_agendaAll children ht.2]
          rfl
  | text =>
    obtain rfl := ht.1 rfl
    rw [plan, ← errands_compileText c n attrs data []]
    split
    · exact (List.append_nil _).symm
    · exact (List.append_nil _).symm
  | comment =>
    obtain rfl := ht.1 rfl
    rw [plan]
    rfl
  | fragment =>
    rw [plan]
    exact planAll_eq_flatMap_agendaAll children ht.2

theorem planAll_eq_flatMap_agendaAll (ts : List (Tree NodeId)) (hts : Tree.ProperAll ts) :
    c.planAll ts = (c.agendaAll ts).flatMap fun x ↦ x.2.errands x.1 := by
  match ts with
  | [] => rfl
  | t :: ts =>
    rw [Tree.ProperAll] at hts
    rw [planAll, agendaAll, List.flatMap_append, plan_eq_flatMap_agenda t hts.1,
      planAll_eq_flatMap_agendaAll ts hts.2]

end

mutual

/-- An agenda is empty exactly if nothing is planned and no text area is resolved. -/
theorem agenda_eq_nil_iff (t : Tree NodeId) (ht : t.Proper) :
    c.agenda t = [] ↔ c.plan t = [] ∧ ¬ c.resolves t := by
  obtain ⟨n, kind, attrs, data, children⟩ := t
  rw [Tree.Proper] at ht
  rw [agenda, List.append_eq_nil_iff, List.map_eq_nil_iff, Option.toList_eq_nil_iff]
  cases kind with
  | element tag =>
    rw [plan, resolves]
    cases howner : c.owner? attrs with
    | some a =>
      rw [compileNode_fst_of_owner?_some c howner]
      exact iff_of_false (fun h ↦ Option.some_ne_none _ h.1) fun h ↦ List.cons_ne_nil _ _ h.1
    | none =>
      rw [compileNode_fst_of_owner?_none c howner]
      dsimp only
      rw [← byPriority_eq_insertionSort]
      cases hresolved : isResolved (.node n (.element tag) attrs data children) with
      | true =>
        -- This is where there is a program although nothing may be planned.
        rw [if_pos rfl]
        exact iff_of_false (fun h ↦ Option.some_ne_none _ h.1) fun h ↦ h.2 ⟨rfl, .inl rfl⟩
      | false =>
        have hown (as : List (Application C)) : Program.ofDirectives? as = none ↔ as = [] := by
          cases as <;> simp [Program.ofDirectives?]
        rw [if_neg Bool.false_ne_true, any_isTerminal_ofDirectives?, hown, Bool.or_false,
          Bool.false_or, List.append_eq_nil_iff, List.map_eq_nil_iff]
        have hbelow := agendaAll_eq_nil_iff children ht.2
        cases hscript : (NodeKind.element tag).hasTag "script" with
        | true => simp
        | false => simp [hbelow, and_assoc]
  | text =>
    obtain rfl := ht.1 rfl
    rw [plan, resolves, agendaAll, ite_self]
    change (c.compileText n data).1 = none ∧ [] = [] ↔ _
    rw [compileText_fst_eq_none_iff]
    exact and_congr_right fun _ ↦ iff_of_true rfl not_false
  | comment =>
    obtain rfl := ht.1 rfl
    simp [plan, resolves, compileNode, Tree.kind, agendaAll]
  | fragment =>
    have hbelow := agendaAll_eq_nil_iff children ht.2
    simp [plan, resolves, compileNode, Tree.kind, NodeKind.hasTag, hbelow]

theorem agendaAll_eq_nil_iff (ts : List (Tree NodeId)) (hts : Tree.ProperAll ts) :
    c.agendaAll ts = [] ↔ c.planAll ts = [] ∧ ¬ c.resolvesAll ts := by
  match ts with
  | [] => exact iff_of_true rfl ⟨rfl, id⟩
  | t :: ts =>
    rw [Tree.ProperAll] at hts
    rw [planAll, agendaAll, resolvesAll, List.append_eq_nil_iff, List.append_eq_nil_iff,
      agenda_eq_nil_iff t hts.1, agendaAll_eq_nil_iff ts hts.2, not_or]
    exact and_and_and_comm

end

/-- A tree has no program exactly if nothing is planned for it and no text area is resolved. -/
theorem compile_eq_none_iff_plan (t : Tree NodeId) (ht : t.Proper) :
    (c.compile t).1 = none ↔ c.plan t = [] ∧ ¬ c.resolves t :=
  (c.compile_eq_none_iff t).trans (c.agenda_eq_nil_iff t ht)

/-! ## Labels -/

end Compiler

namespace Tree

variable {α β : Type}

mutual

theorem proper_map (f : α → β) (t : Tree α) : (t.map f).Proper ↔ t.Proper := by
  obtain ⟨l, kind, attrs, data, children⟩ := t
  have hempty : mapAll f children = [] ↔ children = [] := by cases children <;> simp [mapAll]
  rw [map, Proper, Proper, properAll_mapAll, hempty]

theorem properAll_mapAll (f : α → β) (ts : List (Tree α)) :
    ProperAll (mapAll f ts) ↔ ProperAll ts := by
  match ts with
  | [] => rfl
  | t :: ts => rw [mapAll, ProperAll, ProperAll, proper_map, properAll_mapAll]

end

/-- Texts and comments have no children. -/
theorem Proper.children_eq_nil {t : Tree α} (h : t.Proper) (hkind : t.kind.isContainer = false) :
    t.children = [] := by
  obtain ⟨l, kind, attrs, data, children⟩ := t
  rw [Proper] at h
  exact h.1 hkind

theorem Proper.of_plain {t u : Tree α} (hu : u.Proper) (h : t.plain = u.plain) : t.Proper := by
  rw [← proper_map fun _ ↦ (), ← plain] at hu ⊢
  exact h ▸ hu

end Tree

namespace Compiler

variable {C : Type} (c : Compiler C)

theorem isResolved_of_plain {α : Type} {t u : Tree α} (h : t.plain = u.plain) :
    isResolved t = isResolved u := by
  have hcontent := Tree.textContent_of_plain h
  obtain ⟨n, kind, attrs, data, ts⟩ := t
  obtain ⟨m, kind', attrs', data', us⟩ := u
  simp only [Tree.plain, Tree.map, Tree.node.injEq, true_and] at h
  obtain ⟨rfl, -⟩ := h
  rw [isResolved, isResolved, hcontent]
  rfl

mutual

/-- The directives of a plan do not depend on the identities of nodes. -/
theorem map_task_plan_of_plain (t u : Tree NodeId) (h : t.plain = u.plain) :
    (c.plan t).map Errand.task = (c.plan u).map Errand.task := by
  have hresolved := isResolved_of_plain h
  obtain ⟨n, kind, attrs, data, ts⟩ := t
  obtain ⟨m, kind', attrs', data', us⟩ := u
  simp only [Tree.plain, Tree.map, Tree.node.injEq, true_and] at h
  obtain ⟨rfl, rfl, rfl, hchildren⟩ := h
  have hall := map_task_planAll_of_plain ts us hchildren
  cases kind with
  | element tag =>
    rw [plan, plan]
    cases c.owner? attrs with
    | some a => rfl
    | none =>
      dsimp only
      rw [hresolved, List.map_append, List.map_append, List.map_map, List.map_map]
      split
      · rfl
      · rw [hall]
        rfl
  | text =>
    rw [plan, plan, slots, slots, List.map_filterMap, List.map_filterMap]
    refine List.filterMap_congr fun token _ ↦ ?_
    cases token with
    | literal text => rfl
    | expression source =>
      dsimp only
      rw [Option.map_map, Option.map_map]
      rfl
  | comment => rw [plan, plan]
  | fragment =>
    rw [plan, plan]
    exact hall

theorem map_task_planAll_of_plain (ts us : List (Tree NodeId))
    (h : Tree.mapAll (fun _ ↦ ()) ts = Tree.mapAll (fun _ ↦ ()) us) :
    (c.planAll ts).map Errand.task = (c.planAll us).map Errand.task := by
  match ts, us with
  | [], [] => rfl
  | t :: ts, u :: us =>
    rw [Tree.mapAll, Tree.mapAll] at h
    obtain ⟨ht, hts⟩ := List.cons.inj h
    rw [planAll, planAll, List.map_append, List.map_append, map_task_plan_of_plain t u ht,
      map_task_planAll_of_plain ts us hts]

end

end Compiler

end LiveMarkup
