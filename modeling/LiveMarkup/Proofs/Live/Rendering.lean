import LiveMarkup.Proofs.Binding.Plan
import LiveMarkup.Proofs.Live.Upkeep

/-!
# Rendering

What a template shows where its fields have given values, computed directly from the template in one
pass (`Compiler.render`), without programs, effects or live nodes. This is what execution is
compared with.

The attributes of an element are worked off in the order of their declaration, with the values that
the template has for them, so that an attribute may be written more than once. What each of them
asks for is an `Upkeep` (`Compiler.upkeep?`), and rendering writes the values of these; the
directives of the two names defined in `Registry.builtin` keep the same
(`Compiler.Renderable.resolve?`).
-/

namespace LiveMarkup

variable {C H : Type}

/-! ## The renderer -/

namespace Compiler

variable (c : Compiler C)

/-- The attributes of an element once one attribute of its template, with the value written there,
is worked off. -/
def renderAttribute (field : String → Value) (done : Attributes) (attr value : String) :
    Attributes :=
  match c.directiveName? attr with
  | some name =>
    if name = attributeDirective then
      match Descriptor.splitColon? value.toList with
      | some (left, right) =>
        (done.remove attr).set (String.ofList (trim left)) (Expression.textWith field (trim right))
      | none => done
    else done
  | none =>
    if Interpolation.hasExpression value.toList then
      done.set attr (String.ofList (Interpolation.textWith field value.toList))
    else done

/-- The attributes of an element whose template has the given ones. -/
def renderAttributes (field : String → Value) (attrs : Attributes) : Attributes :=
  attrs.foldl (fun done (attr, value) ↦ c.renderAttribute field done attr value) attrs

mutual

/-- The tree that a template stands for where the fields have the given values; interpolated text
areas are left at those of `frozen`. -/
def render {α : Type} (c : Compiler C) (field frozen : String → Value) : Tree α → Tree α
  | .node l kind attrs data children =>
    match kind with
    | .element tag =>
      let t := Tree.node l kind attrs data children
      .node l (.element tag) (c.renderAttributes field attrs) data
        (if t.hasTag "script" then children
        else if isResolved t then
          [.text l (String.ofList (Interpolation.textWith frozen t.textContent))]
        else renderAll c field frozen children)
    | .text =>
      .node l .text attrs (String.ofList (Interpolation.textWith field data.toList)) children
    | .comment => .node l .comment attrs data children
    | .fragment => .node l .fragment attrs data (renderAll c field frozen children)

/-- The trees that templates stand for. -/
def renderAll {α : Type} (c : Compiler C) (field frozen : String → Value) :
    List (Tree α) → List (Tree α)
  | [] => []
  | t :: ts => render c field frozen t :: renderAll c field frozen ts

end

theorem render_element {α : Type} (field frozen : String → Value) (l : α) (tag : String)
    (attrs : Attributes) (data : String) (children : List (Tree α)) :
    c.render field frozen (.node l (.element tag) attrs data children) =
      .node l (.element tag) (c.renderAttributes field attrs) data
        (if equalIgnoringCase tag "script" then children
        else if isResolved (.node l (.element tag) attrs data children) then
          [.text l (String.ofList (Interpolation.textWith frozen (Tree.textContentAll children)))]
        else c.renderAll field frozen children) := rfl

/-- An interpolated text area is no script. -/
theorem script_of_isResolved {α : Type} {l : α} {tag : String} {attrs : Attributes} {data : String}
    {children : List (Tree α)}
    (h : isResolved (.node l (.element tag) attrs data children) = true) :
    equalIgnoringCase tag "script" = false := by
  have htextarea : equalIgnoringCase tag "textarea" = true := (Bool.and_eq_true_iff.mp h).1
  rw [equalIgnoringCase_iff] at htextarea
  rw [equalIgnoringCase, htextarea]
  decide

/-- The fields that interpolated attributes mention. -/
def attributeHeads (attrs : Attributes) : List String :=
  attrs.flatMap fun (attr, value) ↦
    if (c.directiveName? attr).isSome then [] else Interpolation.mentioned value.toList

mutual

/-- The fields that the expressions of a template mention, apart from those of directives and of
interpolated text areas. -/
def heads {α : Type} (c : Compiler C) : Tree α → List String
  | .node l kind attrs data children =>
    match kind with
    | .element _ =>
      let t := Tree.node l kind attrs data children
      c.attributeHeads attrs ++
        if t.hasTag "script" || isResolved t then [] else headsAll c children
    | .text => Interpolation.mentioned data.toList
    | .comment => []
    | .fragment => headsAll c children

/-- The fields that the expressions of templates mention. -/
def headsAll {α : Type} (c : Compiler C) : List (Tree α) → List String
  | [] => []
  | t :: ts => heads c t ++ headsAll c ts

end

theorem heads_element {α : Type} (l : α) (tag : String) (attrs : Attributes) (data : String)
    (children : List (Tree α)) :
    c.heads (.node l (.element tag) attrs data children) = c.attributeHeads attrs ++
      if equalIgnoringCase tag "script" || isResolved (.node l (.element tag) attrs data children)
      then [] else c.headsAll children := rfl

end Compiler

/-! ## Texts without expressions -/

namespace Interpolation

theorem flatMap_pushLiteral (field : String → Value) (text : List Char) (tokens : List Token) :
    (pushLiteral text tokens).flatMap (Token.textWith field) =
      text ++ tokens.flatMap (Token.textWith field) := by
  unfold pushLiteral
  split
  · rw [List.flatMap_cons, List.flatMap_cons, Token.textWith, Token.textWith, List.append_assoc]
  · rw [List.flatMap_cons, Token.textWith]

/-- A text without expressions stands for itself. -/
theorem textWith_of_hasExpression {cs : List Char} (h : hasExpression cs = false)
    (field : String → Value) : textWith field cs = cs := by
  rw [hasExpression_eq] at h
  rw [textWith_eq]
  fun_induction tokenize cs with
  | case1 => rfl
  | case2 r body rest hclosing _ ih =>
    rw [pushLiteral_any_isExpression] at h
    rw [flatMap_pushLiteral, ih h, eq_append_of_closing? hclosing, List.append_assoc]
    rfl
  | case3 => exact absurd h (Bool.eq_false_iff.mp · rfl)
  | case4 => simp [Token.textWith]
  | case5 c r _ ih =>
    rw [pushLiteral_any_isExpression] at h
    rw [flatMap_pushLiteral, ih h]
    rfl

end Interpolation

/-! ## Attributes -/

namespace Upkeep

/-- Puts a text among the attributes of an element, if it is an attribute's. -/
def write (text : String) (attrs : Attributes) : Upkeep → Attributes
  | .text .. => attrs
  | .attr _ _ name _ | .interpolatedAttr _ _ name _ => attrs.set name text

/-- The attributes of an element once the attribute that asks for the upkeep is worked off. One that
asks by name goes; an interpolated one is written itself. -/
def workOff (attr text : String) (done : Attributes) : Upkeep → Attributes
  | .text .. => done
  | .attr _ _ name _ => (done.remove attr).set name text
  | .interpolatedAttr _ _ name _ => done.set name text

end Upkeep

namespace Compiler

variable (c : Compiler C)

/-- What an attribute of a template asks to be kept up to date on a node. -/
def upkeep? (vm : ViewModelId) (n : NodeId) (attr value : String) : Option Upkeep :=
  match c.directiveName? attr with
  | some name =>
    if name = attributeDirective then
      (Descriptor.splitColon? value.toList).map fun (left, right) ↦
        .attr vm n (String.ofList (trim left)) (String.ofList (trim right))
    else none
  | none =>
    if Interpolation.hasExpression value.toList then some (.interpolatedAttr vm n attr value)
    else none

/-- What the attributes of a template ask to be kept up to date, each with the attribute that asks
for it. -/
def upkeeps (vm : ViewModelId) (n : NodeId) (attrs : Attributes) : List (String × Upkeep) :=
  attrs.filterMap fun (attr, value) ↦ (c.upkeep? vm n attr value).map (Prod.mk attr)

theorem renderAttribute_eq (field : String → Value) (done : Attributes) (attr value : String)
    (vm : ViewModelId) (n : NodeId) :
    c.renderAttribute field done attr value =
      match c.upkeep? vm n attr value with
      | some u => u.workOff attr (u.value field) done
      | none => done := by
  rw [renderAttribute, upkeep?]
  cases c.directiveName? attr with
  | some name =>
    dsimp only
    split
    · cases Descriptor.splitColon? value.toList with
      | some parts =>
        rw [Option.map_some]
        dsimp only [Upkeep.workOff, Upkeep.value]
        rw [String.toList_ofList]
      | none => rfl
    · rfl
  | none =>
    dsimp only
    split
    · rfl
    · rfl

/-- Rendering writes the value of everything that is to be kept up to date. -/
theorem renderAttributes_eq (field : String → Value) (attrs : Attributes) (vm : ViewModelId)
    (n : NodeId) :
    c.renderAttributes field attrs =
      (c.upkeeps vm n attrs).foldl (fun done x ↦ x.2.workOff x.1 (x.2.value field) done) attrs := by
  rw [renderAttributes, upkeeps, List.foldl_filterMap]
  congr 1
  funext done ⟨attr, value⟩
  dsimp only
  rw [c.renderAttribute_eq field done attr value vm n]
  cases c.upkeep? vm n attr value <;> rfl

/-! ### The directives of attributes -/

/-- Whether an attribute of a template asks for nothing that cannot be rendered: not for an
element's text, nor for an attribute without a name. -/
def Renderable (attr value : String) : Prop :=
  match c.directiveName? attr with
  | some name =>
    name ≠ textDirective ∧ (name = attributeDirective →
      ∃ left right, Descriptor.splitColon? value.toList = some (left, right) ∧ trim left ≠ [])
  | none => attr ≠ ""

/-- Whether the attributes of an element have names, each its own, and none of them asks for a
directive that there is. -/
structure Undirected (attrs : Attributes) : Prop where
  names : (attrs.map Prod.fst).Nodup
  named : ∀ x ∈ attrs, x.1 ≠ ""
  inert : ∀ x ∈ attrs, ∀ name, c.directiveName? x.1 = some name → c.registry.contains name = false

end Compiler

namespace Tree

variable {α : Type}

mutual

/-- The attributes of the elements of a tree, one list for each. -/
def attributeLists : Tree α → List Attributes
  | .node _ kind attrs _ children =>
    match kind with
    | .element _ => attrs :: attributeListsAll children
    | .text | .comment | .fragment => attributeListsAll children

/-- The attributes of the elements of trees. -/
def attributeListsAll : List (Tree α) → List Attributes
  | [] => []
  | t :: ts => attributeLists t ++ attributeListsAll ts

end

end Tree

namespace Descriptor

theorem attributeRoutine_ofInterpolation {attr : String} (h : attr ≠ "") (template : String)
    (vm : ViewModelId) (n : NodeId) :
    (ofInterpolation attr template).attributeRoutine (C := C) vm n =
      .ok (.interpolatedAttr vm n attr template) := by
  have hempty : attr.isEmpty = false := by simpa using h
  change (if attr.isEmpty then _ else _) = _
  rw [hempty]
  rfl

theorem attributeRoutine_ofDirective {value : String} {left right : List Char}
    (hsplit : splitColon? value.toList = some (left, right)) (hleft : trim left ≠ [])
    (name attr : String) (vm : ViewModelId) (n : NodeId) :
    (ofDirective name value attr).attributeRoutine (C := C) vm n =
      .ok (.attr vm n (String.ofList (trim left)) (String.ofList (trim right))) := by
  have hempty : (String.ofList (trim left)).isEmpty = false := by simpa using hleft
  rw [attributeRoutine]
  simp only [ofDirective, hsplit]
  change (if (String.ofList (trim left)).isEmpty then _ else _) = _
  rw [hempty]
  rfl

end Descriptor

namespace Application

/-- The attributes of a node once the one that asks for a directive has gone, as far as it has
to. -/
def clear (a : Application C) (attrs : Attributes) : Attributes :=
  match a.descriptor.sourceAttr with
  | some attr => if a.directive.retain then attrs else attrs.remove attr
  | none => attrs

/-- Whether a directive, bound to a node, works off an attribute of its template. -/
structure WorksOff (a : Application C) (vm : ViewModelId) (n : NodeId) (attr : String)
    (u : Upkeep) : Prop where
  keeps : a.Keeps vm n u
  node : u.node = n
  vm : u.vm = vm
  shape : ∀ kind, u.KeepsShape kind
  put : ∀ text s,
    u.put text s = s.modify n fun node ↦ { node with attrs := u.write text node.attrs }
  write : ∀ text attrs, u.workOff attr text attrs = u.write text (a.clear attrs)
  priority : a.priority = 0

end Application

namespace Compiler

variable {c : Compiler C}

theorem resolve?_attributeDirective (hc : c.registry = .builtin) {d : Descriptor}
    (h : d.name = attributeDirective) :
    c.registry.resolve? d = some ⟨{ d with terminal := false }, { behaviour := .attr }⟩ := by
  rw [hc, Registry.resolve?, h]
  rfl

theorem resolve?_textDirective (hc : c.registry = .builtin) {d : Descriptor}
    (h : d.name = textDirective) :
    c.registry.resolve? d = some ⟨{ d with terminal := false }, { behaviour := .text }⟩ := by
  rw [hc, Registry.resolve?, h]
  rfl

theorem piece_expression (hc : c.registry = .builtin) (source : List Char) :
    c.piece (.expression source) =
      .slot ⟨.ofText (String.ofList source), { behaviour := .text }⟩ := by
  rw [piece, resolve?_textDirective hc rfl]
  rfl

theorem resolve?_other (hc : c.registry = .builtin) {d : Descriptor}
    (hattr : d.name ≠ attributeDirective) (htext : d.name ≠ textDirective) :
    c.registry.resolve? d = none := by
  have hattr' : (d.name == attributeDirective) = false := beq_eq_false_iff_ne.mpr hattr
  have htext' : (d.name == textDirective) = false := beq_eq_false_iff_ne.mpr htext
  have hdefinition : (Registry.builtin (C := C)).definition? d.name = none := by
    change (match d.name == attributeDirective with
      | true => some _
      | false => match d.name == textDirective with
        | true => some _
        | false => none) = none
    rw [hattr', htext']
  rw [hc, Registry.resolve?, hdefinition]
  rfl

theorem terminal?_builtin (hc : c.registry = .builtin) (attrs : Attributes) :
    c.terminal? attrs = none := by
  rw [terminal?, hc]
  rfl

theorem priority_of_resolve? (hc : c.registry = .builtin) {d : Descriptor} {a : Application C}
    (h : c.registry.resolve? d = some a) : a.priority = 0 := by
  by_cases hattr : d.name = attributeDirective
  · rw [resolve?_attributeDirective hc hattr] at h
    obtain rfl := Option.some.inj h
    rfl
  by_cases htext : d.name = textDirective
  · rw [resolve?_textDirective hc htext] at h
    obtain rfl := Option.some.inj h
    rfl
  · rw [resolve?_other hc hattr htext] at h
    contradiction

/-- The two directives have one priority, so that attributes are worked off as they are declared. -/
theorem byPriority_applications (hc : c.registry = .builtin) (attrs : Attributes) :
    byPriority (c.applications attrs) = c.applications attrs := by
  have hpriority (a : Application C) (ha : a ∈ c.applications attrs) : a.priority = 0 := by
    obtain ⟨d, -, hd⟩ := List.mem_filterMap.mp ha
    exact priority_of_resolve? hc hd
  refine List.mergeSort_of_pairwise (List.pairwise_of_forall_mem_list fun a ha b hb ↦ ?_)
  rw [hpriority a ha, hpriority b hb]
  rfl

/-- Attributes that ask for no directive can be rendered. -/
theorem Undirected.renderable (hc : c.registry = .builtin) {attrs : Attributes}
    (h : c.Undirected attrs) : ∀ x ∈ attrs, c.Renderable x.1 x.2 := by
  intro x hx
  rw [Renderable]
  cases hname : c.directiveName? x.1 with
  | none => exact h.named x hx
  | some name =>
    have hinert := h.inert x hx name hname
    rw [hc] at hinert
    refine ⟨?_, fun hattr ↦ ?_⟩
    · rintro rfl
      contradiction
    · rw [hattr] at hinert
      contradiction

theorem applications_cons (c : Compiler C) (attr value : String) (attrs : Attributes) :
    c.applications ((attr, value) :: attrs) =
      ((c.request? attr value).bind c.registry.resolve?).toList ++ c.applications attrs := by
  simp only [applications, List.filterMap_cons]
  cases c.request? attr value with
  | none => rfl
  | some d =>
    simp only [List.filterMap_cons, Option.bind_some]
    cases c.registry.resolve? d <;> rfl

theorem upkeeps_cons (c : Compiler C) (vm : ViewModelId) (n : NodeId) (attr value : String)
    (attrs : Attributes) :
    c.upkeeps vm n ((attr, value) :: attrs) =
      ((c.upkeep? vm n attr value).map (Prod.mk attr)).toList ++ c.upkeeps vm n attrs := by
  simp only [upkeeps, List.filterMap_cons]
  cases c.upkeep? vm n attr value <;> rfl

theorem map_fst_upkeeps_sublist (c : Compiler C) (vm : ViewModelId) (n : NodeId)
    (attrs : Attributes) : ((c.upkeeps vm n attrs).map Prod.fst).Sublist (attrs.map Prod.fst) := by
  induction attrs with
  | nil => exact List.Sublist.refl _
  | cons x attrs ih =>
    obtain ⟨attr, value⟩ := x
    rw [upkeeps_cons, List.map_append, List.map_cons]
    cases c.upkeep? vm n attr value with
    | none => exact ih.cons attr
    | some u => exact ih.cons_cons attr

/-- Where no attribute asks for a directive, each that is interpolated is so in its own value. -/
theorem Undirected.of_mem_upkeeps (hc : c.registry = .builtin) {attrs : Attributes}
    (h : c.Undirected attrs) {vm : ViewModelId} {n : NodeId} {x : String × Upkeep}
    (hx : x ∈ c.upkeeps vm n attrs) :
    ∃ template, x.2 = .interpolatedAttr vm n x.1 template ∧
      Interpolation.mentioned template.toList ⊆ c.attributeHeads attrs := by
  obtain ⟨⟨attr, value⟩, hmem, hmap⟩ := List.mem_filterMap.mp hx
  obtain ⟨u, hu, rfl⟩ := Option.map_eq_some_iff.mp hmap
  rw [upkeep?] at hu
  cases hname : c.directiveName? attr with
  | some name =>
    have hinert := h.inert _ hmem name hname
    rw [hname] at hu
    dsimp only at hu
    split at hu
    · rename_i hattr
      rw [hc, hattr] at hinert
      contradiction
    · contradiction
  | none =>
    rw [hname] at hu
    dsimp only at hu
    split at hu
    · obtain rfl := Option.some.inj hu
      refine ⟨value, rfl, fun name hmentioned ↦ List.mem_flatMap.mpr ⟨_, hmem, ?_⟩⟩
      dsimp only
      rwa [hname]
    · contradiction

/-- An attribute asks for the directive that works it off, or for none. -/
theorem Renderable.resolve? (hc : c.registry = .builtin) {attr value : String}
    (h : c.Renderable attr value) (vm : ViewModelId) (n : NodeId) :
    ((c.request? attr value).bind c.registry.resolve? = none ∧ c.upkeep? vm n attr value = none) ∨
      ∃ a u, (c.request? attr value).bind c.registry.resolve? = some a ∧
        c.upkeep? vm n attr value = some u ∧ a.WorksOff vm n attr u := by
  rw [Renderable] at h
  rw [request?, upkeep?]
  cases hname : c.directiveName? attr with
  | some name =>
    rw [hname] at h
    obtain ⟨htext, hattr⟩ := h
    by_cases hn : name = attributeDirective
    · obtain ⟨left, right, hsplit, hleft⟩ := hattr hn
      refine .inr ⟨_, .attr vm n (String.ofList (trim left)) (String.ofList (trim right)),
        resolve?_attributeDirective hc hn, ?_, ?_, rfl, rfl, fun _ ↦ trivial, fun _ _ ↦ rfl,
        fun _ _ ↦ rfl, rfl⟩
      · dsimp only
        rw [if_pos hn, hsplit]
        rfl
      · exact Descriptor.attributeRoutine_ofDirective hsplit hleft name attr vm n
    · refine .inl ⟨resolve?_other hc hn htext, if_neg hn⟩
  | none =>
    rw [hname] at h
    dsimp only
    split
    · refine .inr ⟨_, _, resolve?_attributeDirective hc rfl, rfl, ?_, rfl, rfl, fun _ ↦ trivial,
        fun _ _ ↦ rfl, fun _ _ ↦ rfl, rfl⟩
      exact Descriptor.attributeRoutine_ofInterpolation h value vm n
    · exact .inl ⟨rfl, rfl⟩

end Compiler

end LiveMarkup
