import LiveMarkup.Live.Component
import LiveMarkup.Proofs.Live.Yields
import LiveMarkup.Proofs.Markup.Tidy

/-!
# Reading into a fragment

The trees of a source are planted in a row, and those that are kept are moved below a new fragment
one after the other. So the fragment holds the forest of the source (`Runner.Yields.parseFragment`).
-/

namespace LiveMarkup

variable {C H : Type}

namespace Tree

variable {α : Type}

theorem asNodesAll_sublist (p : Option NodeId) {ts us : List (Tree NodeId)} (h : ts.Sublist us) :
    (asNodesAll p ts).Sublist (asNodesAll p us) := by
  induction h with
  | slnil => exact List.Sublist.refl _
  | cons t _ ih => exact ih.trans (List.sublist_append_right _ _)
  | cons_cons t _ ih => exact (List.Sublist.refl _).append ih

theorem labelsAll_sublist {ts us : List (Tree NodeId)} (h : ts.Sublist us) :
    (labelsAll ts).Sublist (labelsAll us) := by
  rw [← map_fst_asNodesAll none ts, ← map_fst_asNodesAll none us]
  exact (asNodesAll_sublist none h).map Prod.fst

@[simp] theorem isBlankText_number (k : Nat) (t : Tree α) :
    (t.number k).isBlankText = t.isBlankText := by
  obtain ⟨l, kind, attrs, data, children⟩ := t
  rw [number]
  rfl

/-- The trees of a numbered row that are not blank texts. -/
def kept (k : Nat) (ts : List (Tree α)) : List (Tree NodeId) :=
  (numberAll k ts).filter fun t ↦ !t.isBlankText

theorem kept_sublist (k : Nat) (ts : List (Tree α)) : (kept k ts).Sublist (numberAll k ts) :=
  List.filter_sublist

theorem map_label_kept (k : Nat) (ts : List (Tree α)) :
    (ts.zip ((numberAll k ts).map label)).filterMap
        (fun x ↦ if x.1.isBlankText then none else some x.2) = (kept k ts).map label := by
  induction ts generalizing k with
  | nil => rfl
  | cons t ts ih =>
    rw [kept, numberAll, List.map_cons, List.zip_cons_cons, List.filterMap_cons, ih,
      List.filter_cons, isBlankText_number]
    dsimp only
    cases t.isBlankText <;> rfl

theorem mapAll_kept (k : Nat) (ts : List (Tree α)) :
    mapAll (fun _ ↦ ()) (kept k ts) = mapAll (fun _ ↦ ()) (ts.filter fun t ↦ !t.isBlankText) := by
  induction ts generalizing k with
  | nil => rfl
  | cons t ts ih =>
    rw [kept, numberAll, List.filter_cons, List.filter_cons, isBlankText_number]
    cases t.isBlankText with
    | true => exact ih _
    | false => exact congrArg₂ List.cons (plain_number k t) (ih _)

end Tree

namespace NodeStore

/-- A new fragment below which nodes are moved one after the other. -/
def gather (s : NodeStore) (ns : List NodeId) : NodeId × NodeStore :=
  let f := (s.create { kind := .fragment }).1
  (f, ns.foldl (fun s n ↦ s.append f n) (s.create { kind := .fragment }).2)

/-- The kept trees of a row that is planted stand below the fragment they are moved to. -/
theorem PlantsAll.gather {s s₁ : NodeStore} {forest : List (Tree Unit)} (h : s.PlantsAll forest s₁)
    (hforest : ∀ t ∈ forest, t.Solid) {f : NodeId} {s₂ : NodeStore}
    (hs₂ : s₁.gather ((Tree.kept s.size forest).map Tree.label) = (f, s₂)) :
    s₂.Shows id ((Tree.fragment f (Tree.kept s.size forest)).asNodes none) ∧
      (Tree.fragment f (Tree.kept s.size forest)).labels.Nodup ∧ s.Agrees id [] s₂ := by
  obtain ⟨hf, hfill⟩ := Prod.mk.inj hs₂
  have hlt : f.index < (s₁.create { kind := .fragment }).2.size := by
    rw [← hf, size_create]
    exact Nat.lt_succ_self _
  have hget : (s₁.create { kind := .fragment }).2.get f = { kind := .fragment } :=
    hf ▸ get_create_self s₁ _
  have hcreate := s₁.agrees_create { kind := .fragment }
  have hsublist := Tree.kept_sublist s.size forest
  have hkept := (h.shows.of_agrees hcreate fun _ _ ↦ List.not_mem_nil).subset
    (Tree.asNodesAll_sublist none hsublist).subset
  have hlabels (n : NodeId) (hn : n ∈ Tree.labelsAll (Tree.kept s.size forest)) :
      s.size ≤ n.index ∧ n.index < s₁.size := by
    rw [h.size]
    exact Tree.mem_labelsAll_numberAll ((Tree.labelsAll_sublist hsublist).subset hn)
  have hnodup : (f :: Tree.labelsAll (Tree.kept s.size forest)).Nodup := by
    refine List.nodup_cons.mpr ⟨fun hmem ↦ ?_, ?_⟩
    · have hlt := (hlabels f hmem).2
      rw [← hf] at hlt
      exact Nat.lt_irrefl _ hlt
    · exact (Tree.nodup_labelsAll_numberAll _ _).sublist (Tree.labelsAll_sublist hsublist)
  have hkinds (t : Tree NodeId) (ht : t ∈ Tree.kept s.size forest) : t.kind ≠ .fragment := by
    obtain ⟨u, hu, hkind⟩ := Tree.exists_kind_of_mem_numberAll (hsublist.subset ht)
    exact hkind ▸ (hforest u hu).kind_ne
  rw [hf] at hfill
  obtain ⟨hagrees, hrow, hshows⟩ := foldl_append_of_shows hkept hnodup hkinds hlt hfill.symm
  refine ⟨?_, hnodup, ?_⟩
  · rw [Tree.fragment, Tree.asNodes, shows_cons]
    refine ⟨⟨Nat.lt_of_lt_of_le hlt hagrees.size, ?_⟩, hshows⟩
    rw [hrow, hget]
    rfl
  · refine (((h.agrees.trans hcreate).mono (List.nil_subset _)).trans hagrees).of_append
      (X := []) fun n hn ↦ ?_
    rcases List.mem_cons.mp hn with rfl | hn
    · exact hf ▸ h.agrees.size
    · exact (hlabels n ((Tree.map_label_sublist_labelsAll _).subset hn)).1

end NodeStore

/-- Reading a source makes a fragment that holds its forest, and changes nothing else. -/
theorem Runner.Yields.parseFragment {source : String} {ts : List (Tree Unit)}
    (h : parseMarkup source = .ok ts) (st : LiveState C H) :
    ∃ s f us, (∀ (r : LiveRunner C H) limit, r.Yields limit (Live.parseFragment source) st (.ok f)
        (st.withWorld { st.world with nodes := s })) ∧
      Tree.mapAll (fun _ ↦ ()) us = Tree.mapAll (fun _ ↦ ()) ts ∧
      s.Shows id ((Tree.fragment f us).asNodes none) ∧ (Tree.fragment f us).labels.Nodup ∧
      st.world.nodes.Agrees id [] s := by
  rw [parseMarkup] at h
  cases herror : (Reading.ofSource source).error with
  | some e =>
    rw [herror] at h
    contradiction
  | none =>
    rw [herror] at h
    have hts : (Reading.ofSource source).forest.filter (fun t ↦ !t.isBlankText) = ts :=
      Except.ok.inj h
    generalize hforest : (Reading.ofSource source).forest = forest at hts
    have hsolid (t : Tree Unit) (ht : t ∈ forest) : t.Solid :=
      (Reading.wellFormed_forest source t (hforest ▸ ht)).solid
    obtain ⟨hroots, hplants⟩ :=
      st.world.nodes.plantsAll_plantAll forest fun t ht ↦ (hsolid t ht).children
    obtain ⟨hshows, hnodup, hagrees⟩ := hplants.gather hsolid rfl
    have hcode : (Live.parseFragment source : Live C H _) = Live.editWith fun nodes ↦
        let planted := nodes.plantAll forest
        let gathered := planted.2.gather ((forest.zip planted.1).filterMap fun x ↦
          if x.1.isBlankText then none else some x.2)
        (.ok gathered.1, gathered.2) := by
      simp only [Live.parseFragment, herror, hforest]
      rfl
    refine ⟨_, _, _, fun r limit ↦ ?_, ?_, hshows, hnodup, hagrees⟩
    · rw [hcode, ← Tree.map_label_kept, ← hroots]
      exact editWith _ st
    · rw [← hts]
      exact Tree.mapAll_kept _ _

end LiveMarkup
