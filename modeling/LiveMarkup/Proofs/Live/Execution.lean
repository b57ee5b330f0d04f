import LiveMarkup.Proofs.Live.Performing
import LiveMarkup.Proofs.Live.Upkeep

/-!
# Execution

A template whose plan has gentle directives only is executed, on any live tree of its shape, by
binding the directives of the plan in order and entering each binding into the ledger
(`Compiler.execute_performs_plan`). The agenda carries the proof: its programs are tame because each
fulfils its errands, so the whole program is carried out; and since code ends in one way only, what
it was carried out by is what performs the errands, one program after the other.

The two directives of this library are gentle where they leave children alone: the one for texts on
texts, the one for attributes anywhere.
-/

namespace LiveMarkup

variable {C H : Type}

namespace Compiler

variable (c : Compiler C)

mutual

/-- The agenda of a tree has own programs of roots of proper trees. -/
theorem compileNode_of_mem_agenda (t : Tree NodeId) (ht : t.Proper)
    {x : Tree NodeId × Program C} (hx : x ∈ c.agenda t) :
    (c.compileNode x.1).1 = some x.2 ∧ x.1.Proper := by
  obtain ⟨n, kind, attrs, data, children⟩ := t
  rw [agenda] at hx
  rcases List.mem_append.mp hx with hx | hx
  · obtain ⟨q, hq, rfl⟩ := List.mem_map.mp hx
    exact ⟨Option.mem_toList.mp hq, ht⟩
  · rw [Tree.Proper] at ht
    split at hx
    · exact absurd hx List.not_mem_nil
    · exact compileNode_of_mem_agendaAll children ht.2 hx

theorem compileNode_of_mem_agendaAll (ts : List (Tree NodeId)) (hts : Tree.ProperAll ts)
    {x : Tree NodeId × Program C} (hx : x ∈ c.agendaAll ts) :
    (c.compileNode x.1).1 = some x.2 ∧ x.1.Proper := by
  match ts with
  | [] => exact absurd hx List.not_mem_nil
  | t :: ts =>
    rw [agendaAll] at hx
    rw [Tree.ProperAll] at hts
    rcases List.mem_append.mp hx with hx | hx
    · exact compileNode_of_mem_agenda t hts.1 hx
    · exact compileNode_of_mem_agendaAll ts hts.2 hx

end

variable {r : LiveRunner C H} {limit : Nat} {scope : Scope} {bound : Nat}

/-- A program whose directives are gentle is tame. -/
theorem tame_of_gentle {t : Tree NodeId} (ht : t.Proper) {q : Program C}
    (hq : (c.compileNode t).1 = some q)
    (hgentle : ∀ x ∈ q.errands t, r.Gentle limit scope x.site.kind x.application) :
    r.Tame limit scope t q := by
  intro p st hst hnodup
  obtain ⟨X, ⟨st', bs, hlink, -, hagrees⟩, hX, hnil⟩ :=
    c.fulfils_own hq hst (List.Nodup.of_append_right hnodup) hgentle (Nat.zero_le _)
  refine ⟨st', hlink, hagrees.mono hX, fun hterminal hchildren ↦ ?_⟩
  have hkind : t.kind ≠ .text := by
    obtain ⟨n, kind, attrs, data, children⟩ := t
    rintro rfl
    rw [Tree.Proper] at ht
    exact hchildren (ht.1 rfl)
  exact hnil hterminal hkind ▸ hagrees

/-- What an agenda was carried out by performs its errands. -/
theorem performs_of_carries {xs : List (Tree NodeId × Program C)} {st st' : LiveState C H}
    (h : r.Carries limit scope xs st st') (hxs : ∀ x ∈ xs, (c.compileNode x.1).1 = some x.2)
    (hgentle : ∀ x ∈ xs, ∀ y ∈ x.2.errands x.1, r.Gentle limit scope y.site.kind y.application)
    (hbound : bound ≤ st.world.nodes.size) :
    ∃ bs, r.Performs limit scope bound (xs.flatMap fun x ↦ x.2.errands x.1) bs st st' := by
  induction h with
  | nil st hs => exact ⟨[], .nil (Runner.Tends.holdings st hs)⟩
  | @cons t q xs st st₁ st₂ p hs hst ht hlink _ ih =>
    obtain ⟨hq, hrest⟩ := List.forall_mem_cons.mp hxs
    obtain ⟨hgentle₁, hgentle₂⟩ := List.forall_mem_cons.mp hgentle
    have hst : (st.withHoldings hs).world.nodes.Shows Node.skeleton (t.asNodes p) := hst
    obtain ⟨X, ⟨st₁', bs, hlink', hperforms, hagrees⟩, -⟩ :=
      c.fulfils_own hq hst ht hgentle₁ hbound
    obtain ⟨-, rfl⟩ := hlink.unique hlink'
    obtain ⟨cs, hcs⟩ := ih hrest hgentle₂ (Nat.le_trans hbound hagrees.size)
    exact ⟨bs ++ cs, (hperforms.of_tends (Runner.Tends.holdings st hs)).append hcs⟩

end Compiler

namespace Runner.Yields

variable {r : LiveRunner C H} {limit : Nat}

/-- An execution that does not fail answers what reached the ledger meanwhile. -/
theorem execute {q? : Option (Program C)} {scope : Scope} {n : NodeId} {st st' : LiveState C H}
    (h : r.Links limit (Program.linkAny scope n q?) st () st') :
    r.Yields limit (Live.execute q? scope (.node n)) st
      (.ok ⟨scope.vm, (st'.world.ledgerOf scope.vm).since
        (st.world.ledgerOf scope.vm).watermark⟩) st' := by
  refine (ask (fun w ↦ (w.ledgerOf scope.vm).watermark) st).bind ?_
  have hrest : r.Yields limit (do
      return .ok (← Live.ownedSince scope.vm (st.world.ledgerOf scope.vm).watermark)) st'
      (.ok ⟨scope.vm, (st'.world.ledgerOf scope.vm).since
        (st.world.ledgerOf scope.vm).watermark⟩ : Except LinkError (Disposer C)) st' :=
    (ask _ st').bind (done _ _)
  cases q? with
  | none => exact Yields.bind h hrest
  | some q => exact Yields.bind h hrest

end Runner.Yields

/-! ## The directives of this library -/

/-- A directive that keeps something up to date without changing the structure of trees is
gentle. -/
theorem Client.gentle_of_keeps (client : Client C H) (fuel limit : Nat) {scope : Scope}
    {kind : NodeKind} {a : Application C}
    (h : ∀ n, ∃ u, a.Keeps scope.vm n u ∧ u.node = n ∧ u.KeepsShape kind) :
    (client.meaning.runner (fuel + 1)).Gentle limit scope kind a := by
  intro n st hn hkind
  obtain ⟨u, hkeeps, rfl, hshape⟩ := h n
  refine ⟨_, _, client.yields_bind fuel limit hkeeps st, ?_, ?_⟩
  · rw [State.world_launch]
    split
    · exact NodeStore.Agrees.refl _ _ _
    · exact Upkeep.agrees_skeleton_put (hkind ▸ hshape) _
  · rw [State.world_launch]
    split <;> rfl

/-! ## Executing a template -/

/-- **Execution performs the plan.** Take a template in which only elements and fragments have
children, whose plan has gentle directives only. It has no program exactly if nothing is planned and
no text area is resolved. Executed on a live tree of its structure, it succeeds, having bound the
directives of the plan in order and entered exactly their bindings into the ledger, and answers what
has been entered. -/
theorem Compiler.execute_performs_plan (c : Compiler C) (client : Client C H) (fuel : Nat)
    {template live : Tree NodeId} (hproper : template.Proper) (hlive : live.plain = template.plain)
    {scope : Scope} {p : Option NodeId} {st : LiveState C H} {l : Ledger (Binding C)}
    (hst : st.world.nodes.Shows Node.skeleton (live.asNodes p))
    (hnodup : (p.toList ++ live.labels).Nodup) (hl : st.world.ledger? scope.vm = some l)
    (hgentle : ∀ x ∈ c.plan template,
      (client.meaning.runner fuel).Gentle fuel scope x.site.kind x.application) :
    ((c.compile template).1 = none ↔ c.plan template = [] ∧ ¬ c.resolves template) ∧
      ∃ st' bs, client.run fuel
          (Live.execute (c.compile template).1 scope (.node live.label)) st =
            some (.ok ⟨scope.vm, (l.registerAll bs).since l.watermark⟩, st') ∧
        (client.meaning.runner fuel).Performs fuel scope st.world.nodes.size (c.plan live) bs st
          st' ∧
        st'.world.ledger? scope.vm = some (l.registerAll bs) := by
  refine ⟨c.compile_eq_none_iff_plan template hproper, ?_⟩
  have hproper : live.Proper := hproper.of_plain hlive
  -- The plan of the copy has the directives of the template's, on other nodes.
  have hgentle : ∀ x ∈ c.plan live,
      (client.meaning.runner fuel).Gentle fuel scope x.site.kind x.application := by
    intro x hx
    have htask := List.mem_map_of_mem (f := Errand.task) hx
    rw [c.map_task_plan_of_plain live template hlive] at htask
    obtain ⟨y, hy, hxy⟩ := List.mem_map.mp htask
    obtain ⟨happlication, hkind⟩ := Prod.mk.inj hxy
    exact happlication ▸ hkind ▸ hgentle y hy
  rw [← c.compile_fst_of_plain live template hlive]
  have hplan := c.plan_eq_flatMap_agenda live hproper
  have hown (x : Tree NodeId × Program C) (hx : x ∈ c.agenda live) :=
    c.compileNode_of_mem_agenda live hproper hx
  have herrands (x : Tree NodeId × Program C) (hx : x ∈ c.agenda live) :
      ∀ y ∈ x.2.errands x.1,
        (client.meaning.runner fuel).Gentle fuel scope y.site.kind y.application :=
    fun y hy ↦ hgentle y (hplan ▸ List.mem_flatMap.mpr ⟨x, hx, hy⟩)
  obtain ⟨st', hlink, hcarries, -⟩ := c.completes_compile live p st
    (fun x hx ↦ c.tame_of_gentle (hown x hx).2 (hown x hx).1 (herrands x hx)) hst hnodup
  obtain ⟨bs, hperforms⟩ := c.performs_of_carries hcarries (fun x hx ↦ (hown x hx).1) herrands
    (Nat.le_refl st.world.nodes.size)
  rw [← hplan] at hperforms
  have hledger := hperforms.ledger? hgentle
  rw [hl] at hledger
  refine ⟨st', bs, ?_, hperforms, hledger⟩
  have hrun := Runner.Yields.execute hlink
  rwa [World.ledgerOf_of_ledger? hl, World.ledgerOf_of_ledger? hledger] at hrun

/-! ### A logging directive -/

/-- A client whose only directive makes a binding and does nothing else. -/
def logger : Client Unit Unit where
  perform _ := pure ()
  bind _ _ _ _ := pure (.ok (.client ()))
  link _ _ _ := pure (.ok ())

/-- The directives of this library, and the logging one, which is applied before them. -/
def logCompiler : Compiler Unit where
  registry := Registry.builtin.register "log" { priority := 1, behaviour := .client () }

/-- An element with both kinds of directives around a text and another element. -/
def logTemplate : Tree NodeId :=
  .element ⟨0⟩ "div" [("v-attr", "title: x"), ("v-log", "outer")]
    [.text ⟨1⟩ "{{x}}", .element ⟨2⟩ "p" [("v-log", "inner")] []]

/-- A copy of the template, and a view-model without fields. -/
def logState : LiveState Unit Unit where
  graph := .empty
  world := {
    nodes := (NodeStore.empty.plant logTemplate).2
    viewModels := #[⟨[], ⟨0⟩, ⟨0⟩, false, false⟩]
    ledgers := #[.empty]
    host := () }

/-- The logging directive comes first, and the text's behind those of the element around it. -/
theorem plan_logTemplate : logCompiler.plan logTemplate =
    [⟨⟨.ofDirective "log" "outer" "v-log", { priority := 1, behaviour := .client () }⟩,
        .element ⟨0⟩ "div"⟩,
      ⟨⟨.ofDirective "attr" "title: x" "v-attr", { behaviour := .attr }⟩, .element ⟨0⟩ "div"⟩,
      ⟨⟨.ofText "x", { behaviour := .text }⟩, .slot ⟨1⟩⟩,
      ⟨⟨.ofDirective "log" "inner" "v-log", { priority := 1, behaviour := .client () }⟩,
        .element ⟨2⟩ "p"⟩] := by
  have htokens : Interpolation.tokenize "{{x}}".toList = [.expression ['x']] := by cbv
  simp only [logTemplate, Tree.element, Tree.text, Compiler.plan, Compiler.planAll, Compiler.slots,
    htokens]
  rfl

theorem gentle_log (fuel limit : Nat) (scope : Scope) (kind : NodeKind) (d : Descriptor) :
    (logger.meaning.runner (fuel + 1)).Gentle limit scope kind
      ⟨d, { priority := 1, behaviour := .client () }⟩ :=
  fun _ st _ _ ↦ ⟨.client (), st, rfl, NodeStore.Agrees.refl _ _ _, rfl⟩

/-- The template is executed on its copy as planned. -/
theorem logTemplate_performs_plan :
    ((logCompiler.compile logTemplate).1 = none ↔
        logCompiler.plan logTemplate = [] ∧ ¬ logCompiler.resolves logTemplate) ∧
      ∃ st' bs, logger.run 1
          (Live.execute (logCompiler.compile logTemplate).1 ⟨⟨0⟩, none, none⟩ (.node ⟨0⟩))
          logState = some (.ok ⟨⟨0⟩, (Ledger.empty.registerAll bs).since ⟨0⟩⟩, st') ∧
        (logger.meaning.runner 1).Performs 1 ⟨⟨0⟩, none, none⟩ 3 (logCompiler.plan logTemplate) bs
          logState st' ∧
        st'.world.ledger? ⟨0⟩ = some (Ledger.empty.registerAll bs) := by
  have hsolid : Tree.SolidAll logTemplate.children := by
    simp [logTemplate, Tree.element, Tree.text, Tree.children, Tree.SolidAll, Tree.Solid]
  have hplants := (NodeStore.plants_plant NodeStore.empty logTemplate hsolid).2
  have hshows : logState.world.nodes.Shows Node.skeleton (logTemplate.asNodes none) :=
    hplants.shows.of_id _
  have hproper : logTemplate.Proper := by
    simp [logTemplate, Tree.element, Tree.text, Tree.Proper, Tree.ProperAll, NodeKind.isContainer]
  refine logCompiler.execute_performs_plan logger 1 hproper rfl hshows (by decide) rfl ?_
  rw [plan_logTemplate]
  intro x hx
  rcases List.mem_cons.mp hx with rfl | hx
  · exact gentle_log 0 1 _ _ _
  rcases List.mem_cons.mp hx with rfl | hx
  · exact logger.gentle_of_keeps 0 1 fun n ↦ ⟨.attr ⟨0⟩ n "title" "x", rfl, rfl, trivial⟩
  rcases List.mem_cons.mp hx with rfl | hx
  · exact logger.gentle_of_keeps 0 1 fun n ↦ ⟨.text ⟨0⟩ n "x", rfl, rfl, rfl⟩
  · obtain rfl := List.mem_singleton.mp hx
    exact gentle_log 0 1 _ _ _

end LiveMarkup
