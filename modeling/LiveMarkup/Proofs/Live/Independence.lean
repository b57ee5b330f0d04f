import LiveMarkup.Proofs.Live.Clones

/-!
# Clones of one template are independent

The program of a template is carried out on two clones of it, for two view-models. What is done for
the one view-model makes no difference to the clone and the ledger of the other, in whatever order
things are done; the clones have no node in common, and the template stays as it is
(`Copy.clones_independent`).

What makes no difference can be foretold of both runs, and there it is the same
(`Outlook.alike_run`). The template is a third copy, on which nothing is executed. So the acts are
acts on copies among which there is one more (`Act.map`).
-/

namespace LiveMarkup

variable {C H ι κ : Type}

/-! ## Copies among others -/

namespace Act

/-- The act on copies that go by other names. -/
def map (f : ι → κ) : Act ι → Act κ
  | .execute i => .execute (f i)
  | .set vm name value => .set vm name value
  | .dispose i => .dispose (f i)

theorem vm_map (f : ι → κ) (copies : κ → Copy C) (a : Act ι) :
    (a.map f).vm copies = a.vm fun i ↦ copies (f i) := by
  cases a <;> rfl

variable [DecidableEq ι] [DecidableEq κ] {f : ι → κ} (hf : Function.Injective f)
  (copies : κ → Copy C) (held : κ → Progress C)

include hf

/-- It does not matter to the code of an act which other copies there are. -/
theorem carry_map (a : Act ι) :
    (a.carry (fun i ↦ copies (f i)) (fun i ↦ held (f i)) : Live C H _) =
      (fun held' i ↦ held' (f i)) <$> (a.map f).carry copies held := by
  have hupdate (i : ι) (p : Progress C) : Function.update (fun i ↦ held (f i)) i p =
      fun j ↦ Function.update held (f i) p (f j) := by
    exact (Function.update_comp_eq_of_injective held hf i p).symm
  cases a with
  | execute i =>
    rw [map, carry, carry]
    cases held (f i) with
    | pending =>
      rw [map_bind]
      refine bind_congr fun x ↦ ?_
      cases x with
      | ok d => simp only [hupdate, map_pure]
      | error _ => simp only [hupdate, map_pure]
    | live d => rw [map_pure]
    | disposed => rw [map_pure]
  | set vm name value =>
    rw [map, carry, carry, map_bind]
    refine bind_congr fun _ ↦ ?_
    rw [map_pure]
  | dispose i =>
    rw [map, carry, carry]
    cases held (f i) with
    | live d =>
      rw [map_bind]
      refine bind_congr fun _ ↦ ?_
      rw [hupdate, map_pure]
    | pending => rw [map_pure]
    | disposed => rw [map_pure]

theorem carryAll_map (acts : List (Act ι)) :
    (carryAll (fun i ↦ copies (f i)) acts (fun i ↦ held (f i)) : Live C H _) =
      (fun held' i ↦ held' (f i)) <$> carryAll copies (acts.map (map f)) held := by
  induction acts generalizing held with
  | nil => rw [List.map_nil, carryAll, carryAll, map_pure]
  | cons a acts ih =>
    rw [List.map_cons, carryAll, carryAll, carry_map hf, map_bind, bind_map_left]
    exact bind_congr fun held' ↦ ih held'

end Act

namespace Exhibits

variable {known : List ViewModelId} {st st' : LiveState C H}

/-- Acts on some of the copies come to what is foretold. -/
theorem carryAll_map [DecidableEq ι] [DecidableEq κ] [Nonempty κ] (client : Client C H)
    {f : ι → κ} (hf : Function.Injective f) {copies : κ → Copy C} {P : κ → Picture}
    {seen : κ → EffectId → Snapshot} {held : κ → Progress C} {A : Outlook κ}
    (h : Exhibits copies known P seen held A st) {acts : List (Act ι)}
    (hacts : ∀ a ∈ acts, a.vm (fun i ↦ copies (f i)) ∈ known) :
    ∃ st' P' seen' held', client.Leads (Act.carryAll (fun i ↦ copies (f i)) acts
        fun i ↦ held (f i)) st (fun i ↦ held' (f i)) st' ∧
      Exhibits copies known P' seen' held' (A.run copies (acts.map (Act.map f))) st' := by
  have hmap : ∀ a ∈ acts.map (Act.map f), a.vm copies ∈ known :=
    List.forall_mem_map.mpr fun a ha ↦ (Act.vm_map f copies a).symm ▸ hacts a ha
  obtain ⟨st', P', seen', held', hleads, h', -⟩ := h.carryAll client hmap
  refine ⟨st', P', seen', held', ?_, h'⟩
  rw [Act.carryAll_map hf]
  exact hleads.map _

variable {copies : ι → Copy C} {P P' : ι → Picture} {seen seen' : ι → EffectId → Snapshot}
  {held held' : ι → Progress C} {A B : Outlook ι} {i : ι}

/-- Where the same is foretold for a view-model, a copy for it that stands nowhere is the same, and
so is the ledger. -/
theorem same_of_alike (h : Exhibits copies known P seen held A st)
    (h' : Exhibits copies known P' seen' held' B st')
    (halike : Outlook.Alike copies (copies i).scope.vm A B) (habove : (copies i).above = none) :
    (held i).stage = (held' i).stage ∧
      (st.world.nodes.tree (copies i).live.label).markup =
        (st'.world.nodes.tree (copies i).live.label).markup ∧
      (st.world.ledgerOf (copies i).scope.vm).ids =
        (st'.world.ledgerOf (copies i).scope.vm).ids ∧
      (st.world.ledgerOf (copies i).scope.vm).next =
        (st'.world.ledgerOf (copies i).scope.vm).next := by
  have hstanding := halike.standing i rfl
  have hledger : (st.world.ledgerOf (copies i).scope.vm).bare =
      (st'.world.ledgerOf (copies i).scope.vm).bare :=
    (h.ledgers _ (h.mem i)).trans (halike.ledgers.trans (h'.ledgers _ (h'.mem i)).symm)
  refine ⟨?_, ?_, ?_, ?_⟩
  · rw [← h.stage_eq, hstanding, h'.stage_eq]
  · have htree := (h.stands i).head?_forest habove
    rw [hstanding, (h'.stands i).head?_forest habove] at htree
    exact Tree.markup_of_plain (Option.some.inj htree).symm
  · rw [← Ledger.ids_bare, hledger, Ledger.ids_bare]
  · rw [← Ledger.next_bare, hledger, Ledger.next_bare]

/-- A copy on which nothing was executed is the tree that it was. -/
theorem tree_of_pending (h : Exhibits copies known P seen held A st)
    (hi : (A.standing i).stage = .pending) :
    st.world.nodes.tree (copies i).live.label = (copies i).live := by
  have hheld : held i = .pending := Progress.of_stage_eq_pending ((h.stage_eq i).symm.trans hi)
  have hstands := h.stands i
  rw [hheld] at hstands
  exact NodeStore.tree_of_shows hstands.shows_live.2.2 (h.sound i).nodup

end Exhibits

namespace Copy

variable {c : Compiler C} {t : Tree NodeId} {q : Option NodeId} {known : List ViewModelId}
  {st : LiveState C H} {scope : Bool → Scope} {root : Bool → NodeId} {s₁ s₂ : NodeStore}

/-- **Instances of one program are independent.** Take a template that interpolates texts and
attributes and asks for no directive, and two clones of it, each for a view-model. The program of
the template is executed on the clones, fields are written, and the executions disposed, in any
order. Then the tree of a clone and the ledger of its view-model are as if nothing had been done for
the other one; no node can be reached from both clones; and the template is what it was. -/
theorem clones_independent (client : Client C H) (h : ∀ b, Awaits known ⟨c, t, t, q, scope b⟩ st)
    (hregular : st.Regular known) (hidle : st.graph.Idle)
    (hfirst : st.world.nodes.deepClone t.label = (root false, s₁))
    (hsecond : s₁.deepClone t.label = (root true, s₂)) (acts : List (Act Bool))
    (hacts : ∀ a ∈ acts, a.vm (clones c t s₂ root scope) ∈ known) :
    ∃ held' st', client.Leads (Act.carryAll (clones c t s₂ root scope) acts fun _ ↦ .pending)
        (st.withNodes s₂) held' st' ∧
      (∀ b, ∃ held₁ st₁, client.Leads (Act.carryAll (clones c t s₂ root scope)
            (acts.filter fun a ↦ decide (a.vm (clones c t s₂ root scope) = (scope b).vm))
            fun _ ↦ .pending) (st.withNodes s₂) held₁ st₁ ∧
        (held' b).stage = (held₁ b).stage ∧
        (st'.world.nodes.tree (root b)).markup = (st₁.world.nodes.tree (root b)).markup ∧
        (st'.world.ledgerOf (scope b).vm).ids = (st₁.world.ledgerOf (scope b).vm).ids ∧
        (st'.world.ledgerOf (scope b).vm).next = (st₁.world.ledgerOf (scope b).vm).next) ∧
      List.Disjoint (st'.world.nodes.tree (root false)).labels
        (st'.world.nodes.tree (root true)).labels ∧
      st'.world.nodes.tree t.label = t := by
  have h₀ := Exhibits.start (awaits_clonesWith h hfirst hsecond)
    (disjoint_clonesWith h hfirst hsecond) (hregular.withNodes s₂) hidle
  have hsome : Function.Injective (some : Bool → Option Bool) := Option.some_injective Bool
  obtain ⟨st', P', seen', held', hleads, h'⟩ := h₀.carryAll_map client hsome hacts
  have hroot (b : Bool) : (clonesWith c t q s₂ root scope (some b)).live.label = root b :=
    NodeStore.label_tree s₂ (root b)
  refine ⟨_, st', hleads, fun b ↦ ?_, ?_, ?_⟩
  · -- For the view-model of the clone, the same is foretold of both runs.
    have hacts₁ (a : Act Bool) (ha : a ∈ acts.filter fun a ↦
        decide (a.vm (clones c t s₂ root scope) = (scope b).vm)) :
        a.vm (clones c t s₂ root scope) ∈ known :=
      hacts a (List.mem_of_mem_filter ha)
    obtain ⟨st₁, P₁, seen₁, held₁, hleads₁, h₁⟩ := h₀.carryAll_map client hsome hacts₁
    have halike := Outlook.alike_run (.refl (clonesWith c t q s₂ root scope) (scope b).vm
      (.start (clonesWith c t q s₂ root scope) (st.withNodes s₂))) (acts.map (Act.map some))
    rw [List.filter_map] at halike
    have hfilter : (fun a ↦ decide (a.vm (clonesWith c t q s₂ root scope) = (scope b).vm)) ∘
        Act.map some = fun a ↦ decide (a.vm (clones c t s₂ root scope) = (scope b).vm) :=
      funext fun a ↦ by rw [Function.comp_apply, Act.vm_map]; rfl
    rw [hfilter] at halike
    have hsame := h'.same_of_alike h₁ (i := some b) halike rfl
    rw [hroot] at hsame
    exact ⟨_, st₁, hleads₁, hsame⟩
  · -- What can be reached from a clone are nodes of its picture.
    have hsubset (b : Bool) := (h'.stands (some b)).labels_tree_subset rfl
    simp only [hroot] at hsubset
    intro n hn hmem
    exact h'.apart (some false) (some true) (by decide) (hsubset false hn) (hsubset true hmem)
  · -- Nothing was executed on the template.
    have hexecute : Act.execute none ∉ acts.map (Act.map some) := by
      intro hmem
      obtain ⟨a, -, ha⟩ := List.mem_map.mp hmem
      cases a <;> simp [Act.map] at ha
    have hstanding := Outlook.standing_run_of_still (clonesWith c t q s₂ root scope)
      (A := .start (clonesWith c t q s₂ root scope) (st.withNodes s₂)) (i := none) rfl
      Stage.noConfusion fun _ ↦ hexecute
    exact h'.tree_of_pending (congrArg Standing.stage hstanding)

/-! ### Two greetings -/

/-- For whom each of the greetings is. -/
def greeted (b : Bool) : Scope := ⟨cond b ⟨1⟩ ⟨0⟩, none, none⟩

/-- Both greetings are executed, written, and one of them disposed before it is written again. -/
def greetingActs : List (Act Bool) :=
  [.execute true, .execute false, .set ⟨0⟩ "x" (.string "Ada"), .set ⟨1⟩ "x" (.string "Bob"),
    .dispose false, .set ⟨0⟩ "x" (.string "Eve")]

/-- What is done for the one greeting makes no difference to the other. -/
theorem greetings_independent :
    ∃ held' st', Client.none.Leads (Act.carryAll (greetingClones greeted) greetingActs
        fun _ ↦ .pending) (greetings.withNodes greetingNodes) held' st' ∧
      (∀ b, ∃ held₁ st₁, Client.none.Leads (Act.carryAll (greetingClones greeted)
            (greetingActs.filter fun a ↦ decide (a.vm (greetingClones greeted) = (greeted b).vm))
            fun _ ↦ .pending) (greetings.withNodes greetingNodes) held₁ st₁ ∧
        (held' b).stage = (held₁ b).stage ∧
        (st'.world.nodes.tree (greetingRoot b)).markup =
          (st₁.world.nodes.tree (greetingRoot b)).markup ∧
        (st'.world.ledgerOf (greeted b).vm).ids = (st₁.world.ledgerOf (greeted b).vm).ids ∧
        (st'.world.ledgerOf (greeted b).vm).next = (st₁.world.ledgerOf (greeted b).vm).next) ∧
      List.Disjoint (st'.world.nodes.tree (greetingRoot false)).labels
        (st'.world.nodes.tree (greetingRoot true)).labels ∧
      st'.world.nodes.tree ⟨0⟩ = greetingTemplate := by
  have hgreeted : ∀ b, (greeted b).vm ∈ [(⟨0⟩ : ViewModelId), ⟨1⟩] := by decide
  have hacts : ∀ a ∈ greetingActs, a.vm (greetingClones greeted) ∈ [(⟨0⟩ : ViewModelId), ⟨1⟩] := by
    decide
  exact clones_independent Client.none (fun b ↦ awaits_greetings (hgreeted b)) regular_greetings
    idle_greetings rfl rfl greetingActs hacts

end Copy

end LiveMarkup
