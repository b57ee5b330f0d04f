import LiveMarkup.Proofs.Live.Exhibition

/-!
# Clones of a template

A clone of a template has its shape and nodes of its own. So a template that is shown where it can
be executed can be cloned, and its clones can be executed in its stead (`Copy.awaits_clonesWith`),
apart from the template and from each other (`Copy.disjoint_clonesWith`).
-/

namespace LiveMarkup

variable {C H : Type}

/-- The state with other nodes. -/
def State.withNodes (st : LiveState C H) (s : NodeStore) : LiveState C H :=
  st.withWorld { st.world with nodes := s }

theorem State.Regular.withNodes {known : List ViewModelId} {st : LiveState C H}
    (h : st.Regular known) (s : NodeStore) : (st.withNodes s).Regular known :=
  ⟨h.lt, h.signal, h.injective, h.subscribers, h.ledger, h.apart⟩

namespace Copy

/-- Clones of a template at given roots, each for one view-model. -/
def clones (c : Compiler C) (t : Tree NodeId) (s : NodeStore) (root : Bool → NodeId)
    (scope : Bool → Scope) (b : Bool) : Copy C :=
  ⟨c, t, s.tree (root b), none, scope b⟩

/-- The clones, and the template itself. -/
def clonesWith (c : Compiler C) (t : Tree NodeId) (q : Option NodeId) (s : NodeStore)
    (root : Bool → NodeId) (scope : Bool → Scope) : Option Bool → Copy C
  | none => ⟨c, t, t, q, scope true⟩
  | some b => clones c t s root scope b

variable {c : Compiler C} {t : Tree NodeId} {q : Option NodeId} {known : List ViewModelId}
  {st : LiveState C H}

/-- A tree of the shape of a template can be executed where the template can, if other nodes are as
before. -/
theorem Awaits.of_agrees {scope : Scope} (h : Awaits known ⟨c, t, t, q, scope⟩ st) {s : NodeStore}
    (hagrees : st.world.nodes.Agrees id [] s) {live : Tree NodeId} {above : Option NodeId}
    (hlive : live.plain = t.plain) (hnodup : live.labels.Nodup)
    (hshows : s.Shows id (live.asNodes above))
    (hlisted : live.kind = .text → ∀ p ∈ above, live.label ∈ (s.get p).children)
    (hlabels : ∀ n ∈ live.labels, n ∈ t.labels ∨ st.world.nodes.size ≤ n.index) :
    Awaits known ⟨c, t, live, above, scope⟩ (st.withNodes s) where
  sound := ⟨h.sound.builtin, h.sound.interpolates, hlive, hnodup⟩
  mem := h.mem
  gone := h.gone
  shows := hshows
  listed := hlisted
  readers e he hreads := by
    obtain ⟨u, hbody, hu⟩ := h.readers e he hreads
    refine ⟨u, hbody, hu.of_surrounds ?_ hlabels⟩
    exact ((hagrees.of_id _).mono (List.nil_subset _)).surrounds

section Clones

variable {scope : Bool → Scope} {root : Bool → NodeId} {s₁ s₂ : NodeStore}
  (h : ∀ b, Awaits known ⟨c, t, t, q, scope b⟩ st)
  (hfirst : st.world.nodes.deepClone t.label = (root false, s₁))
  (hsecond : s₁.deepClone t.label = (root true, s₂))

include h hfirst hsecond

/-- What cloning a template twice does: the clones are the template, numbered from where the stores
ended. -/
theorem plants_clones : st.world.nodes.Plants t s₁ ∧ s₁.Plants t s₂ ∧
    s₂.tree (root false) = t.number st.world.nodes.size ∧
    s₂.tree (root true) = t.number s₁.size := by
  have hst := (h true).shows
  have hnodup := (h true).sound.nodup
  have hsolid := (h true).sound.interpolates.solid
  obtain ⟨hroot₁, hplants₁⟩ := NodeStore.plants_deepClone hst hnodup hsolid
  rw [hfirst] at hroot₁ hplants₁
  -- The first clone leaves the template where it is, so that the second is one of the same tree.
  have hst₁ := hst.of_agrees hplants₁.agrees fun _ _ ↦ List.not_mem_nil
  obtain ⟨hroot₂, hplants₂⟩ := NodeStore.plants_deepClone hst₁ hnodup hsolid
  rw [hsecond] at hroot₂ hplants₂
  exact ⟨hplants₁, hplants₂, hplants₁.tree_eq hroot₁ hplants₂.agrees,
    hplants₂.tree_eq hroot₂ (NodeStore.Agrees.refl _ _ _)⟩

/-- A template and two clones of it can be executed. -/
theorem awaits_clonesWith (i : Option Bool) :
    (clonesWith c t q s₂ root scope i).Awaits known (st.withNodes s₂) := by
  obtain ⟨hplants₁, hplants₂, htree₁, htree₂⟩ := plants_clones h hfirst hsecond
  have hagrees := hplants₁.agrees.trans hplants₂.agrees
  have hclone (b : Bool) {k : Nat} (hk : st.world.nodes.size ≤ k)
      (hs : s₂.Shows id ((t.number k).asNodes none)) :
      Awaits known ⟨c, t, t.number k, none, scope b⟩ (st.withNodes s₂) :=
    (h b).of_agrees hagrees (Tree.plain_number k t) (Tree.nodup_labels_number k t) hs
      (fun _ p hp ↦ absurd hp (Option.not_mem_none p))
      fun n hn ↦ .inr (Nat.le_trans hk (Tree.mem_labels_number hn).1)
  rcases i with _ | _ | _
  · have hst₂ := (h true).shows.of_agrees hagrees fun _ _ ↦ List.not_mem_nil
    refine (h true).of_agrees hagrees rfl (h true).sound.nodup hst₂ (fun hkind p hp ↦ ?_)
      fun n hn ↦ .inl hn
    have hmem := (h true).listed hkind p hp
    have hget : s₂.get p = st.world.nodes.get p :=
      hagrees.get p (NodeStore.lt_of_mem_children hmem) List.not_mem_nil
    rwa [hget]
  · rw [clonesWith, clones, htree₁]
    exact hclone false (Nat.le_refl _)
      (hplants₁.shows.of_agrees hplants₂.agrees fun _ _ ↦ List.not_mem_nil)
  · rw [clonesWith, clones, htree₂]
    exact hclone true hplants₁.agrees.size hplants₂.shows

/-- A template and two clones of it have no nodes in common. -/
theorem disjoint_clonesWith (i j : Option Bool) (hij : i ≠ j) :
    List.Disjoint (clonesWith c t q s₂ root scope i).live.labels
      (clonesWith c t q s₂ root scope j).live.labels := by
  obtain ⟨hplants₁, -, htree₁, htree₂⟩ := plants_clones h hfirst hsecond
  have hst := (h true).shows
  -- The template is made of old nodes, and the clones are numbered one after the other.
  have hbefore {k : Nat} (hk : st.world.nodes.size ≤ k) :
      List.Disjoint t.labels (t.number k).labels := fun n hn hmem ↦
    Nat.not_lt.mpr (Nat.le_trans hk (Tree.mem_labels_number hmem).1) (hst.lt_of_mem_labels hn)
  have hfalse := hbefore (Nat.le_refl _)
  have htrue := hbefore hplants₁.agrees.size
  have hboth : List.Disjoint (t.number st.world.nodes.size).labels (t.number s₁.size).labels :=
    fun n hn hmem ↦ Nat.not_lt.mpr (Tree.mem_labels_number hmem).1
      (hplants₁.size ▸ (Tree.mem_labels_number hn).2)
  rcases i with _ | _ | _ <;> rcases j with _ | _ | _
  all_goals simp only [clonesWith, clones, htree₁, htree₂]
  exacts [absurd rfl hij, hfalse, htrue, hfalse.symm, absurd rfl hij, hboth, htrue.symm,
    hboth.symm, absurd rfl hij]

end Clones

end Copy

/-! ### Two greetings -/

/-- The template of a greeting, and two view-models with the one field. -/
def greetings : LiveState Empty Unit where
  graph := {
    signals := #[⟨.null, []⟩, ⟨.null, []⟩]
    effects := #[]
    queue := []
    current := none
    flushing := false }
  world := {
    nodes := (NodeStore.empty.plant greetingTemplate).2
    viewModels := #[⟨[("x", ⟨0⟩)], ⟨0⟩, ⟨0⟩, false, false⟩, ⟨[("x", ⟨1⟩)], ⟨1⟩, ⟨1⟩, false, false⟩]
    ledgers := #[.empty, .empty]
    host := () }

/-- The nodes once the template is cloned twice. -/
def greetingNodes : NodeStore := ((greetings.world.nodes.deepClone ⟨0⟩).2.deepClone ⟨0⟩).2

/-- The roots of the clones. -/
def greetingRoot (b : Bool) : NodeId :=
  cond b ((greetings.world.nodes.deepClone ⟨0⟩).2.deepClone ⟨0⟩).1
    (greetings.world.nodes.deepClone ⟨0⟩).1

/-- The clones of the greeting, each for the view-model of a scope. -/
def greetingClones (scope : Bool → Scope) : Bool → Copy Empty :=
  Copy.clones greetingCompiler greetingTemplate greetingNodes greetingRoot scope

theorem idle_greetings : greetings.graph.Idle := ⟨rfl, fun _ ↦ rfl, rfl, rfl⟩

theorem awaits_greetings {scope : Scope} (hscope : scope.vm ∈ [(⟨0⟩ : ViewModelId), ⟨1⟩]) :
    Copy.Awaits [⟨0⟩, ⟨1⟩] ⟨greetingCompiler, greetingTemplate, greetingTemplate, none, scope⟩
      greetings where
  sound := by
    have hnodup : greetingTemplate.labels.Nodup := by decide
    exact ⟨rfl, interpolates_greetingTemplate, rfl, hnodup⟩
  mem := hscope
  gone := by
    have hgone : ∀ w ∈ [(⟨0⟩ : ViewModelId), ⟨1⟩], (greetings.world.viewModel w).gone = false := by
      decide
    exact hgone _ hscope
  shows := (NodeStore.plants_plant .empty greetingTemplate
    interpolates_greetingTemplate.solid).2.shows
  listed hkind := NodeKind.noConfusion hkind
  readers _ he := absurd (Graph.lt_of_isActive he) (Nat.not_lt_zero _)

theorem regular_greetings : greetings.Regular [⟨0⟩, ⟨1⟩] := by
  have hfield {w : ViewModelId} (hw : w ∈ [(⟨0⟩ : ViewModelId), ⟨1⟩]) {name : String} {s : SignalId}
      (hs : (greetings.world.viewModel w).field? name = some s) :
      name = "x" ∧ s = ⟨w.index⟩ := by
    have hlookup {s' : SignalId} (h : List.lookup name [("x", s')] = some s) :
        name = "x" ∧ s = s' := by
      by_cases hname : name = "x"
      · subst hname
        exact ⟨rfl, (Option.some.inj h).symm⟩
      · rw [List.lookup_cons, beq_eq_false_iff_ne.mpr hname] at h
        exact absurd h.symm (Option.some_ne_none s)
    rcases List.mem_cons.mp hw with rfl | hw
    · exact hlookup hs
    · obtain rfl := List.mem_singleton.mp hw
      exact hlookup hs
  have hsignals : ∀ w ∈ [(⟨0⟩ : ViewModelId), ⟨1⟩], w.index < greetings.graph.signals.size := by
    decide
  have hledgers : ∀ w ∈ [(⟨0⟩ : ViewModelId), ⟨1⟩], greetings.world.ledger? w = some .empty := by
    simp [World.ledger?, World.viewModel, greetings]
  refine ⟨by decide, fun w hw name s hs ↦ ?_, fun w hw w' hw' name name' s hs hs' ↦ ?_,
    fun s e he ↦ ?_, fun w hw ↦ ⟨_, hledgers w hw, Ledger.sound_empty⟩, by decide⟩
  · exact (hfield hw hs).2 ▸ hsignals w hw
  · obtain ⟨rfl, rfl⟩ := hfield hw hs
    obtain ⟨rfl, hsame⟩ := hfield hw' hs'
    exact ⟨congrArg ViewModelId.mk (SignalId.mk.inj hsame), rfl⟩
  · obtain ⟨_ | _ | n⟩ := s
    · exact absurd he List.not_mem_nil
    · exact absurd he List.not_mem_nil
    · exact absurd he List.not_mem_nil

theorem deepClone_greetings : greetings.world.nodes.deepClone greetingTemplate.label =
    (greetingRoot false, (greetings.world.nodes.deepClone ⟨0⟩).2) := rfl

theorem deepClone_deepClone_greetings :
    (greetings.world.nodes.deepClone ⟨0⟩).2.deepClone greetingTemplate.label =
      (greetingRoot true, greetingNodes) := rfl

section GreetingClones

variable {scope : Bool → Scope} (hscope : ∀ b, (scope b).vm ∈ [(⟨0⟩ : ViewModelId), ⟨1⟩])

include hscope

theorem awaits_greetingClones (b : Bool) :
    (greetingClones scope b).Awaits [⟨0⟩, ⟨1⟩] (greetings.withNodes greetingNodes) :=
  Copy.awaits_clonesWith (fun b ↦ awaits_greetings (hscope b)) deepClone_greetings
    deepClone_deepClone_greetings (some b)

theorem disjoint_greetingClones (b b' : Bool) (hb : b ≠ b') :
    List.Disjoint (greetingClones scope b).live.labels (greetingClones scope b').live.labels :=
  Copy.disjoint_clonesWith (fun b ↦ awaits_greetings (hscope b)) deepClone_greetings
    deepClone_deepClone_greetings (some b) (some b') fun he ↦ hb (Option.some.inj he)

theorem kind_greetingClones (b : Bool) : (greetingClones scope b).live.kind = .element "p" := by
  obtain ⟨-, -, htree₁, htree₂⟩ := Copy.plants_clones (fun b ↦ awaits_greetings (hscope b))
    deepClone_greetings deepClone_deepClone_greetings
  cases b with
  | false =>
    rw [greetingClones, Copy.clones, htree₁, Tree.kind_number]
    rfl
  | true =>
    rw [greetingClones, Copy.clones, htree₂, Tree.kind_number]
    rfl

end GreetingClones

end LiveMarkup
