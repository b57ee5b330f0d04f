import LiveMarkup.Proofs.Live.Clones

/-!
# Disposal is final and local

Templates are executed on any number of live trees that are apart from each other, fields are
written and executions disposed, in any order. A tree shows what its template renders to for the
current values of the fields from its execution to its disposal, whatever is disposed meanwhile; and
once its own execution is disposed it never changes again (`Copy.current_until_disposed`).

Stopped effects stay subscribed until the next write, and may still wait to run. So that they do no
harm has to be shown of every later run, and that dropping them drops no other; both are part of
what `Exhibits` says, and that is kept up by every act.
-/

namespace LiveMarkup

variable {C H ι : Type}

namespace Exhibits

variable {copies : ι → Copy C} {known : List ViewModelId} {P P' : ι → Picture}
  {seen seen' : ι → EffectId → Snapshot} {held held' : ι → Progress C} {A A' : Outlook ι}
  {st st' : LiveState C H} {i : ι}

/-- A copy whose effects have seen the fields as they are shows what its template renders to. -/
theorem displays (h : Exhibits copies known P seen held A st) {frozen : String → Value}
    (hplace : (copies i).live.kind = .text → (copies i).above ≠ none)
    (hdesign : (A.standing i).design = (copies i).design frozen)
    (hcurrent : (A.standing i).Current (A.fields (copies i).scope.vm)) :
    st.Displays (copies i).compiler (copies i).scope.vm frozen (copies i).template (P i).roots := by
  obtain ⟨p, hp⟩ := Copy.exists_above hplace
  rw [← h.fields _ (h.mem i)] at hcurrent
  refine ((h.stands i).markup_of_current hcurrent).trans ?_
  rw [hdesign]
  exact ((h.sound i).design_of_above hp frozen).2 _

/-- A copy that was just executed has seen the fields as they are, if all were declared that its
template mentions. -/
theorem current_execute [DecidableEq ι] (h : Exhibits copies known P seen held A st)
    (h' : Exhibits copies known P' seen' held' (A.step copies (.execute i)) st')
    (hstage : (A.standing i).stage = .pending)
    (hplace : (copies i).live.kind = .text → (copies i).above ≠ none)
    (hheads : ∀ name ∈ (copies i).compiler.heads (copies i).template,
      ((st.world.viewModel (copies i).scope.vm).field? name).isSome) :
    ((A.step copies (.execute i)).standing i).Current
      ((A.step copies (.execute i)).fields (copies i).scope.vm) := by
  obtain ⟨p, hp⟩ := Copy.exists_above hplace
  obtain ⟨owned, hstanding, hfields⟩ := Outlook.standing_step_execute copies hstage
  refine (h'.stands i).current (fun k ↦ ?_) fun name hname ↦ ?_
  · rw [hstanding, hfields]
  · rw [hstanding] at hname
    have hname := ((h.sound i).design_of_above hp _).1 ▸ hname
    obtain ⟨s, hs⟩ := Option.isSome_iff_exists.mp (hheads name hname)
    rw [hfields, ← h.fields _ (h.mem i)]
    exact h.regular.isSome_snapshot (h.mem i) hs

end Exhibits

namespace Copy

/-- **Disposal is final and local.** Take copies of templates that are shown apart from each other,
for view-models whose fields only they and effects elsewhere read. Whatever is executed, written and
disposed before, executing one of the copies succeeds; its text, if it is one, has to stand below
another node. From then on, whatever is executed, written and disposed but for this copy, the trees
that stand where the copy stood show what the template renders to for the current values of the
fields, if all that it mentions were declared at the execution; text areas stay at the values they
had then. Once the copy is disposed, the trees show what they did, whatever is executed, written and
disposed later. -/
theorem current_until_disposed [DecidableEq ι] (client : Client C H) {copies : ι → Copy C}
    {known : List ViewModelId} {st : LiveState C H} (hawaits : ∀ i, (copies i).Awaits known st)
    (hapart : ∀ i j, i ≠ j → List.Disjoint (copies i).live.labels (copies j).live.labels)
    (hregular : st.Regular known) (hidle : st.graph.Idle) (i : ι)
    (hplace : (copies i).live.kind = .text → (copies i).above ≠ none) {before : List (Act ι)}
    (hbefore : .execute i ∉ before) (hknown : ∀ a ∈ before, a.vm copies ∈ known) :
    ∃ held₁ st₁ held₂ st₂ roots,
      client.Leads (Act.carryAll copies before fun _ ↦ .pending) st held₁ st₁ ∧
      client.Leads ((Act.execute i).carry copies held₁) st₁ held₂ st₂ ∧
      (copies i).Succeeds st₁.world.nodes st₂.world.nodes roots ∧
      ∀ between : List (Act ι), .dispose i ∉ between → (∀ a ∈ between, a.vm copies ∈ known) →
        ∃ held₃ st₃, client.Leads (Act.carryAll copies between held₂) st₂ held₃ st₃ ∧
          (held₃ i).stage = .live ∧
          ((∀ name ∈ (copies i).compiler.heads (copies i).template,
              ((st₁.world.viewModel (copies i).scope.vm).field? name).isSome) →
            st₃.Displays (copies i).compiler (copies i).scope.vm
              (st₁.fieldValue (copies i).scope.vm) (copies i).template roots) ∧
          ∀ after : List (Act ι), (∀ a ∈ after, a.vm copies ∈ known) →
            ∃ held₄ st₄,
              client.Leads (Act.carryAll copies (.dispose i :: after) held₃) st₃ held₄ st₄ ∧
              (held₄ i).stage = .disposed ∧
              Tree.markupAll (roots.map st₄.world.nodes.tree) =
                Tree.markupAll (roots.map st₃.world.nodes.tree) := by
  have : Nonempty ι := ⟨i⟩
  -- Before: the copy is still pending.
  obtain ⟨st₁, P₁, seen₁, held₁, hleads₁, h₁, -⟩ :=
    (Exhibits.start hawaits hapart hregular hidle).carryAll client hknown
  have hstage₁ := congrArg Standing.stage (Outlook.standing_run_of_still copies
    (A := .start copies st) (i := i) rfl Stage.noConfusion fun _ ↦ hbefore)
  have hheld₁ : held₁ i = .pending := Progress.of_stage_eq_pending (h₁.stage_eq i ▸ hstage₁)
  -- The execution.
  obtain ⟨st₂, Q, d, hexecute, h₂, hsucceeds⟩ := h₁.execute client hheld₁
  obtain ⟨owned, hstanding₂, hfields₂⟩ := Outlook.standing_step_execute copies hstage₁
  refine ⟨held₁, st₁, Function.update held₁ i (.live d), st₂, Q.roots, hleads₁, ?_,
    hsucceeds hplace, fun between hbetween hknown₃ ↦ ?_⟩
  · rw [Act.carry, hheld₁]
    exact hexecute.bind (.done _ _)
  -- Between: the copy is live, stands where it stood, and goes on to see the fields.
  have hlive₂ := congrArg Standing.stage hstanding₂
  obtain ⟨st₃, P₃, seen₃, held₃, hleads₃, h₃, hroots₃⟩ := h₂.carryAll client hknown₃
  obtain ⟨hlive₃, hdesign₃, hcurrent₃⟩ := Outlook.current_run copies hlive₂ hbetween
  have hroots₃ : (P₃ i).roots = Q.roots := by
    rw [hroots₃ i (hlive₂ ▸ Stage.noConfusion), Function.update_self]
  refine ⟨held₃, st₃, hleads₃, h₃.stage_eq i ▸ hlive₃, fun hheads ↦ ?_, fun after hknown₄ ↦ ?_⟩
  · rw [← hroots₃, ← State.value_snapshot, h₁.fields _ (h₁.mem i)]
    refine h₃.displays hplace ?_ (hcurrent₃ (h₁.current_execute h₂ hstage₁ hplace hheads))
    rw [hdesign₃, hstanding₂]
  · -- After: what is disposed has no effects that could change it.
    have hknown₄ : ∀ a ∈ Act.dispose i :: after, a.vm copies ∈ known :=
      List.forall_mem_cons.mpr ⟨h₃.mem i, hknown₄⟩
    obtain ⟨st₄, P₄, seen₄, held₄, hleads₄, h₄, hroots₄⟩ := h₃.carryAll client hknown₄
    have hstanding₄ := Outlook.standing_run_dispose copies hlive₃ after
    refine ⟨held₄, st₄, hleads₄, ?_, ?_⟩
    · rw [← h₄.stage_eq i, hstanding₄]
      rfl
    · rw [← hroots₃, ← hroots₄ i (hlive₃ ▸ Stage.noConfusion), (h₄.stands i).markup, hstanding₄,
        Standing.markupAll_forest_rest, hroots₄ i (hlive₃ ▸ Stage.noConfusion),
        (h₃.stands i).markup]

/-! ### Two greetings for one view-model -/

/-- Two clones of the greeting, for the first view-model. -/
def twins : Bool → Copy Empty := greetingClones fun _ ↦ ⟨⟨0⟩, none, none⟩

/-- A greeting is current from its execution until it is disposed, and stays as it was then,
whatever is executed, written and disposed beside it. -/
theorem twin_current_until_disposed :
    ∃ held₂ st₂ roots,
      Client.none.Leads ((Act.execute false).carry twins fun _ ↦ .pending)
        (greetings.withNodes greetingNodes) held₂ st₂ ∧
      (twins false).Succeeds (greetings.withNodes greetingNodes).world.nodes st₂.world.nodes
        roots ∧
      ∀ between : List (Act Bool), .dispose false ∉ between →
        (∀ a ∈ between, a.vm twins ∈ [(⟨0⟩ : ViewModelId), ⟨1⟩]) →
        ∃ held₃ st₃, Client.none.Leads (Act.carryAll twins between held₂) st₂ held₃ st₃ ∧
          (held₃ false).stage = .live ∧
          st₃.Displays greetingCompiler ⟨0⟩ ((greetings.withNodes greetingNodes).fieldValue ⟨0⟩)
            greetingTemplate roots ∧
          ∀ after : List (Act Bool), (∀ a ∈ after, a.vm twins ∈ [(⟨0⟩ : ViewModelId), ⟨1⟩]) →
            ∃ held₄ st₄,
              Client.none.Leads (Act.carryAll twins (.dispose false :: after) held₃) st₃ held₄ st₄ ∧
              (held₄ false).stage = .disposed ∧
              Tree.markupAll (roots.map st₄.world.nodes.tree) =
                Tree.markupAll (roots.map st₃.world.nodes.tree) := by
  have hscope (_ : Bool) : (⟨0⟩ : ViewModelId) ∈ [(⟨0⟩ : ViewModelId), ⟨1⟩] := List.mem_cons_self
  have hkind : (twins false).live.kind ≠ .text := by
    rw [twins, kind_greetingClones hscope]
    exact NodeKind.noConfusion
  obtain ⟨held₁, st₁, held₂, st₂, roots, hnothing, hexecute, hsucceeds, hrest⟩ :=
    current_until_disposed Client.none (awaits_greetingClones hscope)
      (disjoint_greetingClones hscope) (regular_greetings.withNodes greetingNodes) idle_greetings
      false (fun hc ↦ absurd hc hkind)
      (List.not_mem_nil : Act.execute false ∉ ([] : List (Act Bool)))
      fun _ ha ↦ absurd ha List.not_mem_nil
  obtain ⟨rfl, rfl⟩ := hnothing.unique (.done _ _)
  have hheads (name : String) (hname : name ∈ greetingCompiler.heads greetingTemplate) :
      (((greetings.withNodes greetingNodes).world.viewModel ⟨0⟩).field? name).isSome := by
    rw [heads_greetingTemplate] at hname
    obtain rfl : name = "x" := by simpa using hname
    rfl
  refine ⟨held₂, st₂, roots, hexecute, hsucceeds, fun between hbetween hknown ↦ ?_⟩
  obtain ⟨held₃, st₃, hleads, hlive, hdisplays, hafter⟩ := hrest between hbetween hknown
  exact ⟨held₃, st₃, hleads, hlive, hdisplays hheads, hafter⟩

end Copy

end LiveMarkup
