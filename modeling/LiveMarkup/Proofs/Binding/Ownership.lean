import Mathlib.Data.List.Induction
import LiveMarkup.Proofs.Binding.Plan

/-!
# Terminal directives and their nodes

An element is searched for terminal directives by the names that the registry lists, so it matters
that these are the names whose definition is terminal. Registering keeps it so
(`Registry.mem_terminalNames_ofRegistrations`), whatever is defined anew.

An application is asked for by name, or it comes from an interpolation: an attribute whose value is
interpolated asks for `attr`, an expression of a text for `bind`. The search finds every terminal
directive that an attribute asks for by name, and the program is then that directive alone. It does
not look at interpolations. `Compiler.owns_iff` says when a terminal directive that a program binds
owns the node: if it is asked for by name, and otherwise only if it is alone on a text area whose
text is interpolated, since such a program leaves the children out on its own account.
-/

namespace LiveMarkup

variable {C : Type}

/-! ## The list of terminal names -/

namespace Registry

/-- The registry that registrations build, one after the other. -/
def ofRegistrations (rs : List (String × Directive C)) : Registry C :=
  rs.foldl (fun r e ↦ r.register e.1 e.2) empty

theorem ofRegistrations_snoc (rs : List (String × Directive C)) (e : String × Directive C) :
    ofRegistrations (rs ++ [e]) = (ofRegistrations rs).register e.1 e.2 := List.foldl_append

theorem definition?_register_of_ne (r : Registry C) {name other : String} (h : other ≠ name)
    (d : Directive C) : (r.register name d).definition? other = r.definition? other := by
  have hfilter (defs : List (String × Directive C)) :
      (defs.filter fun e ↦ e.1 != name).lookup other = defs.lookup other := by
    induction defs with
    | nil => rfl
    | cons e defs ih =>
      rw [List.filter_cons]
      split
      · rw [List.lookup_cons, List.lookup_cons, ih]
      · rename_i he
        have he : e.1 = name := by simpa using he
        rw [ih, List.lookup_cons, he, beq_false_of_ne h]
  rw [definition?, register, List.lookup_cons, beq_false_of_ne h]
  exact hfilter r.definitions

/-- **The names listed as terminal are those whose definition is.** -/
theorem mem_terminalNames_ofRegistrations (rs : List (String × Directive C)) (name : String) :
    name ∈ (ofRegistrations rs).terminalNames ↔
      ∃ d, (ofRegistrations rs).definition? name = some d ∧ d.terminal = true := by
  induction rs using List.reverseRecOn with
  | nil => exact iff_of_false List.not_mem_nil fun ⟨_, h, _⟩ ↦ Option.some_ne_none _ h.symm
  | append_singleton rs e ih =>
    rw [ofRegistrations_snoc, mem_terminalNames_register]
    rcases eq_or_ne name e.1 with rfl | hne
    · simp [definition?_register_self]
    · simp [hne, definition?_register_of_ne _ hne, ih]

end Registry

/-! ## Requests by name -/

/-- Whether a request is made by name, and not by an interpolation. -/
def Descriptor.isByName (d : Descriptor) : Bool := d.sourceAttr.isSome

namespace Compiler

variable {c : Compiler C}

/-- Whether an application comes from an interpolation, which has one of two names. -/
structure Implicit (c : Compiler C) (a : Application C) : Prop where
  isByName : a.descriptor.isByName = false
  defined : c.registry.definition? attributeDirective = some a.directive ∨
    c.registry.definition? textDirective = some a.directive

theorem resolve?_eq_some {r : Registry C} {d : Descriptor} {a : Application C}
    (h : r.resolve? d = some a) :
    r.definition? d.name = some a.directive ∧ a.descriptor.isByName = d.isByName := by
  obtain ⟨directive, hdirective, rfl⟩ := Option.map_eq_some_iff.mp h
  exact ⟨hdirective, rfl⟩

theorem isByName_of_owner? {attrs : Attributes} {a : Application C} (h : c.owner? attrs = some a) :
    a.descriptor.isByName = true := by
  obtain ⟨name, -, ha⟩ := Option.bind_eq_some_iff.mp h
  exact (resolve?_eq_some ha).2

/-- What an element's attributes ask for comes from the interpolation of one of them, or from one
with its name behind the mark. -/
theorem of_mem_applications {attrs : Attributes} {a : Application C}
    (ha : a ∈ c.applications attrs) :
    (a.descriptor.isByName = false ∧
        c.registry.definition? attributeDirective = some a.directive) ∨
      ∃ name, (c.config.mark ++ name) ∈ attrs.map Prod.fst ∧
        c.registry.definition? name = some a.directive := by
  obtain ⟨d, hd, hresolve⟩ := List.mem_filterMap.mp ha
  obtain ⟨⟨attr, value⟩, hmem, hrequest⟩ := List.mem_filterMap.mp hd
  obtain ⟨hdefinition, hname⟩ := resolve?_eq_some hresolve
  dsimp only at hrequest
  unfold request? at hrequest
  split at hrequest
  · rename_i name hattr
    obtain rfl := Option.some.inj hrequest
    exact .inr ⟨name, eq_of_directiveName? hattr ▸ List.mem_map_of_mem hmem, hdefinition⟩
  · split at hrequest
    · obtain rfl := Option.some.inj hrequest
      exact .inl ⟨hname, hdefinition⟩
    · contradiction

theorem has_of_mem {attrs : Attributes} {attr : String} (h : attr ∈ attrs.map Prod.fst) :
    attrs.has attr = true := by
  induction attrs with
  | nil => contradiction
  | cons e attrs ih =>
    rw [Attributes.has, Attributes.get?]
    split
    · rfl
    · rename_i hne
      rcases List.mem_cons.mp h with rfl | h
      · exact absurd rfl hne
      · exact ih h

/-- The search finds an owner if an attribute asks for a terminal directive that is defined. -/
theorem isSome_owner? {attrs : Attributes} {name : String}
    (hlisted : name ∈ c.registry.terminalNames) (hcontains : c.registry.contains name = true)
    (hattr : attrs.has (c.config.mark ++ name) = true) : (c.owner? attrs).isSome = true := by
  rw [owner?]
  dsimp only
  cases hfirst : (c.registry.terminalNames.filter c.registry.contains).find? fun name ↦
      attrs.has (c.config.mark ++ name) with
  | none =>
    have hname := List.mem_filter.mpr ⟨hlisted, hcontains⟩
    exact absurd hattr (List.find?_eq_none.mp hfirst name hname)
  | some first =>
    rw [Option.bind_some, isSome_resolve?]
    exact (List.mem_filter.mp (List.mem_of_find?_eq_some hfirst)).2

/-- On an element without an owner, terminal directives come from interpolations only. -/
theorem implicit_of_owner?_none {rs : List (String × Directive C)}
    (hc : c.registry = .ofRegistrations rs) {attrs : Attributes} (howner : c.owner? attrs = none)
    {a : Application C} (ha : a ∈ c.applications attrs) (hterminal : a.directive.terminal = true) :
    c.Implicit a := by
  obtain ⟨hname, hdefinition⟩ | ⟨name, hattr, hdefinition⟩ := of_mem_applications ha
  · exact ⟨hname, .inl hdefinition⟩
  · have hlisted : name ∈ c.registry.terminalNames := by
      rw [hc] at hdefinition ⊢
      exact (Registry.mem_terminalNames_ofRegistrations rs name).mpr ⟨_, hdefinition, hterminal⟩
    have hcontains : c.registry.contains name = true := by
      rw [Registry.contains, hdefinition]
      rfl
    have hfound := isSome_owner? hlisted hcontains (has_of_mem hattr)
    rw [howner] at hfound
    contradiction

/-! ## Owners -/

/-- What it takes for a directive to own the node on which a program binds it: the program binds no
other there and is terminal, and nothing below the node is compiled. -/
structure Owns (c : Compiler C) (t : Tree NodeId) (p : Program C) (x : Errand C) : Prop where
  alone : p.errands t = [x]
  isTerminal : p.isTerminal = true
  stays : descends t (some p) = false
  compile_eq : c.compile t = c.compileNode t

theorem compile_eq_compileNode {t : Tree NodeId}
    (h : descends t (c.compileNode t).1 = false) : c.compile t = c.compileNode t := by
  obtain ⟨n, kind, attrs, data, children⟩ := t
  rw [compile]
  dsimp only
  rw [h]
  rfl

/-- A directive that is alone in a terminal program owns the node. -/
theorem Owns.of_isTerminal {t : Tree NodeId} {p : Program C} {x : Errand C}
    (hp : (c.compileNode t).1 = some p) (hterminal : p.isTerminal = true)
    (halone : p.errands t = [x]) : c.Owns t p x := by
  have hstays : descends t (some p) = false := by
    rw [descends, Option.any_some, hterminal]
    rfl
  exact ⟨halone, hterminal, hstays, compile_eq_compileNode (hp ▸ hstays)⟩

/-- The program of a node is that of one directive asked for by name, or it binds terminal
directives by interpolation only and is terminal exactly for a text area that is resolved. -/
theorem compileNode_cases {rs : List (String × Directive C)} (hc : c.registry = .ofRegistrations rs)
    {t : Tree NodeId} {p : Program C} (hp : (c.compileNode t).1 = some p) :
    (∃ a, p = .terminal a ∧ a.descriptor.isByName = true) ∨
      (p.isTerminal = isResolved t ∧ ∀ x ∈ p.errands t,
        x.application.directive.terminal = true → c.Implicit x.application) := by
  obtain ⟨n, kind, attrs, data, children⟩ := t
  cases kind with
  | element tag =>
    cases howner : c.owner? attrs with
    | some a =>
      rw [compileNode_fst_of_owner?_some c howner] at hp
      exact .inl ⟨a, (Option.some.inj hp).symm, isByName_of_owner? howner⟩
    | none =>
      refine .inr ?_
      have hall (a : Application C) (ha : a ∈ byPriority (c.applications attrs)) :=
        implicit_of_owner?_none hc howner (List.mem_mergeSort.mp ha)
      rw [compileNode_fst_of_owner?_none c howner] at hp
      split at hp
      · rename_i hresolved
        obtain rfl := Option.some.inj hp
        refine ⟨hresolved.symm, fun x hx ↦ ?_⟩
        obtain ⟨a, ha, rfl⟩ := List.mem_map.mp hx
        exact hall a ha
      · rename_i hresolved
        cases has : byPriority (c.applications attrs) with
        | nil =>
          rw [has] at hp
          contradiction
        | cons first others =>
          rw [has] at hp hall
          obtain rfl := Option.some.inj hp
          refine ⟨(Bool.eq_false_iff.mpr hresolved).symm, fun x hx ↦ ?_⟩
          obtain ⟨a, ha, rfl⟩ := List.mem_map.mp hx
          exact hall a ha
  | text =>
    refine .inr ?_
    change (c.compileText n data).1 = some p at hp
    have herrands := errands_compileText c n attrs data children
    rw [hp] at herrands
    rw [compileText_fst] at hp
    split at hp
    · obtain rfl := Option.some.inj hp
      refine ⟨rfl, fun x hx _ ↦ ?_⟩
      rw [show Program.errands _ _ = c.slots n data.toList from
        (List.append_nil _).symm.trans herrands] at hx
      obtain ⟨token, -, htoken⟩ := List.mem_filterMap.mp hx
      cases token with
      | literal text => contradiction
      | expression source =>
        obtain ⟨a, ha, rfl⟩ := Option.map_eq_some_iff.mp htoken
        exact ⟨(resolve?_eq_some ha).2, .inr (resolve?_eq_some ha).1⟩
    · contradiction
  | comment => contradiction
  | fragment => contradiction

/-- **When a terminal directive owns its node.** Whatever has been registered, and whatever else a
node asks for: a terminal directive that the node's program binds owns the node if it is asked for
by name. One that an interpolation asks for owns it only if it is alone on a text area whose text is
interpolated. -/
theorem owns_iff {rs : List (String × Directive C)} (hc : c.registry = .ofRegistrations rs)
    {t : Tree NodeId} {p : Program C} (hp : (c.compileNode t).1 = some p) {x : Errand C}
    (hx : x ∈ p.errands t) (hterminal : x.application.directive.terminal = true) :
    c.Owns t p x ↔
      x.application.descriptor.isByName = true ∨ isResolved t = true ∧ p.errands t = [x] := by
  rcases compileNode_cases hc hp with ⟨a, rfl, hname⟩ | ⟨hresolved, himplicit⟩
  · obtain rfl : x = ⟨a, t.site⟩ := List.mem_singleton.mp hx
    exact iff_of_true (.of_isTerminal hp rfl rfl) (.inl hname)
  · rw [(himplicit x hx hterminal).isByName, ← hresolved]
    constructor
    · exact fun h ↦ .inr ⟨h.isTerminal, h.alone⟩
    · rintro (h | ⟨h, halone⟩)
      · contradiction
      · exact .of_isTerminal hp h halone

/-- If the two definitions that interpolations ask for are not terminal, every terminal directive
owns the nodes on which it is bound. -/
theorem owns_of_interpolation {rs : List (String × Directive C)}
    (hc : c.registry = .ofRegistrations rs)
    (hattr : attributeDirective ∉ c.registry.terminalNames)
    (htext : textDirective ∉ c.registry.terminalNames)
    {t : Tree NodeId} {p : Program C} (hp : (c.compileNode t).1 = some p) {x : Errand C}
    (hx : x ∈ p.errands t) (hterminal : x.application.directive.terminal = true) :
    c.Owns t p x := by
  rcases compileNode_cases hc hp with ⟨a, rfl, -⟩ | ⟨-, himplicit⟩
  · obtain rfl : x = ⟨a, t.site⟩ := List.mem_singleton.mp hx
    exact .of_isTerminal hp rfl rfl
  · rw [hc, Registry.mem_terminalNames_ofRegistrations, ← hc] at hattr htext
    rcases (himplicit x hx hterminal).defined with h | h
    · exact absurd ⟨_, h, hterminal⟩ hattr
    · exact absurd ⟨_, h, hterminal⟩ htext

end Compiler

/-! ### Two terminal directives -/

/-- A registry in which `own` is terminal, and by a later definition `attr` is. -/
def possessive : List (String × Directive Unit) :=
  [(textDirective, { behaviour := .text }), (attributeDirective, { behaviour := .attr }),
    ("own", { terminal := true, behaviour := .client () }),
    (attributeDirective, { terminal := true, behaviour := .attr })]

def possessiveCompiler : Compiler Unit where
  registry := .ofRegistrations possessive

/-- A request joined with a terminal directive. -/
def possessed (d : Descriptor) (behaviour : Behaviour Unit) : Application Unit :=
  ⟨{ d with terminal := true }, { terminal := true, behaviour }⟩

/-- An element that asks for `own`, with expressions in an attribute and in a child. -/
def ownedTemplate : Tree NodeId :=
  .element ⟨0⟩ "p" [("title", "{{a}}"), ("v-own", "x")] [.text ⟨1⟩ "{{b}}"]

/-- The directive that the element asks for by name owns it. -/
theorem own_owns :
    possessiveCompiler.Owns ownedTemplate
      (.terminal (possessed (.ofDirective "own" "x" "v-own") (.client ())))
      ⟨possessed (.ofDirective "own" "x" "v-own") (.client ()), .element ⟨0⟩ "p"⟩ := by
  refine (Compiler.owns_iff rfl ?_ (List.mem_singleton.mpr rfl) rfl).mpr (.inl rfl)
  exact Compiler.compileNode_fst_of_owner?_some possessiveCompiler rfl

def sharedAttributes : Attributes := [("title", "{{a}}"), ("lang", "{{b}}")]

/-- An element with expressions in two attributes and in a child. -/
def sharedTemplate : Tree NodeId := .element ⟨0⟩ "p" sharedAttributes [.text ⟨1⟩ "{{c}}"]

theorem applications_sharedAttributes : possessiveCompiler.applications sharedAttributes =
    [possessed (.ofInterpolation "title" "{{a}}") .attr,
      possessed (.ofInterpolation "lang" "{{b}}") .attr] := by
  have htitle : possessiveCompiler.directiveName? "title" = none := by decide
  have hlang : possessiveCompiler.directiveName? "lang" = none := by decide
  have ha : Interpolation.hasExpression "{{a}}".toList = true := by cbv
  have hb : Interpolation.hasExpression "{{b}}".toList = true := by cbv
  simp only [Compiler.applications, sharedAttributes, List.filterMap_cons, Compiler.request?,
    htitle, hlang, ha, hb, if_true, List.filterMap_nil]
  rfl

/-- **Terminal directives need not own their nodes.** Interpolated attributes bring the terminal
definition of `attr` onto an element twice, and the element's children are compiled. -/
theorem not_owns_of_interpolation :
    ¬ ∀ (rs : List (String × Directive Unit)) (c : Compiler Unit),
      c.registry = .ofRegistrations rs → ∀ t p, (c.compileNode t).1 = some p → ∀ x ∈ p.errands t,
        x.application.directive.terminal = true → c.Owns t p x := by
  intro h
  have hp : (possessiveCompiler.compileNode sharedTemplate).1 = some (.directives
      (possessed (.ofInterpolation "title" "{{a}}") .attr)
      [possessed (.ofInterpolation "lang" "{{b}}") .attr]) := by
    refine (Compiler.compileNode_fst_of_owner?_none possessiveCompiler rfl).trans ?_
    rw [applications_sharedAttributes, Compiler.byPriority_eq_insertionSort]
    rfl
  exact absurd (h possessive _ rfl sharedTemplate _ hp _ List.mem_cons_self rfl).isTerminal
    Bool.false_ne_true

end LiveMarkup
