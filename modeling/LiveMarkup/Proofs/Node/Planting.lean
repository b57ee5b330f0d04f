import Mathlib.Data.List.Nodup
import LiveMarkup.Proofs.Node.Operations

/-!
# Planting trees

Planting a tree adds its nodes under the identities that come next, a node before its children. So
the planted tree is known before it is planted: it is `Tree.number` of the first new identity. No
node that was there before is changed.

The trees planted here have no fragment below the root. A fragment there would not be planted at
all, but give its place to its children.
-/

namespace LiveMarkup

namespace Tree

variable {α : Type}

/-! ## Numbered trees -/

mutual

/-- The tree with its nodes numbered from `k` on, a node before its children. -/
def number (k : Nat) : Tree α → Tree NodeId
  | .node _ kind attrs data children => .node ⟨k⟩ kind attrs data (numberAll (k + 1) children)

/-- The trees with their nodes numbered from `k` on, one tree after the other. -/
def numberAll (k : Nat) : List (Tree α) → List (Tree NodeId)
  | [] => []
  | t :: ts => number k t :: numberAll (k + t.size) ts

end

@[simp] theorem label_number (k : Nat) (t : Tree α) : (t.number k).label = ⟨k⟩ := by
  obtain ⟨l, kind, attrs, data, children⟩ := t
  rw [number, label]

@[simp] theorem kind_number (k : Nat) (t : Tree α) : (t.number k).kind = t.kind := by
  obtain ⟨l, kind, attrs, data, children⟩ := t
  rw [number, Tree.kind, Tree.kind]

theorem exists_kind_of_mem_numberAll {k : Nat} {ts : List (Tree α)} {t : Tree NodeId}
    (h : t ∈ numberAll k ts) : ∃ u ∈ ts, u.kind = t.kind := by
  induction ts generalizing k with
  | nil => exact absurd h List.not_mem_nil
  | cons u ts ih =>
    rcases List.mem_cons.mp h with rfl | h
    · exact ⟨u, List.mem_cons_self, (kind_number k u).symm⟩
    · obtain ⟨u', hu', hkind⟩ := ih h
      exact ⟨u', List.mem_cons_of_mem u hu', hkind⟩

theorem size_node (l : α) (kind : NodeKind) (attrs : Attributes) (data : String)
    (children : List (Tree α)) :
    (Tree.node l kind attrs data children).size = (labelsAll children).length + 1 := by
  rw [size, labels, List.length_cons]

theorem length_labelsAll_cons (t : Tree α) (ts : List (Tree α)) :
    (labelsAll (t :: ts)).length = t.size + (labelsAll ts).length := by
  rw [labelsAll, List.length_append, size]

mutual

theorem labels_number (k : Nat) (t : Tree α) :
    (t.number k).labels = (List.range' k t.size).map NodeId.mk := by
  obtain ⟨l, kind, attrs, data, children⟩ := t
  rw [number, labels, labelsAll_numberAll, size_node, List.range'_succ, List.map_cons]

theorem labelsAll_numberAll (k : Nat) (ts : List (Tree α)) :
    labelsAll (numberAll k ts) = (List.range' k (labelsAll ts).length).map NodeId.mk := by
  match ts with
  | [] => rfl
  | t :: ts =>
    rw [numberAll, labelsAll, labels_number, labelsAll_numberAll, length_labelsAll_cons,
      ← List.range'_append_1, List.map_append]

end

theorem mem_labels_number {k : Nat} {t : Tree α} {n : NodeId} (h : n ∈ (t.number k).labels) :
    k ≤ n.index ∧ n.index < k + t.size := by
  rw [labels_number] at h
  obtain ⟨i, hi, rfl⟩ := List.mem_map.mp h
  exact List.mem_range'_1.mp hi

theorem mem_labelsAll_numberAll {k : Nat} {ts : List (Tree α)} {n : NodeId}
    (h : n ∈ labelsAll (numberAll k ts)) :
    k ≤ n.index ∧ n.index < k + (labelsAll ts).length := by
  rw [labelsAll_numberAll] at h
  obtain ⟨i, hi, rfl⟩ := List.mem_map.mp h
  exact List.mem_range'_1.mp hi

theorem nodup_labelsAll_numberAll (k : Nat) (ts : List (Tree α)) :
    (labelsAll (numberAll k ts)).Nodup := by
  rw [labelsAll_numberAll]
  exact List.Nodup.map (fun _ _ h ↦ NodeId.mk.inj h) List.nodup_range'

theorem nodup_labels_number (k : Nat) (t : Tree α) : (t.number k).labels.Nodup := by
  rw [labels_number]
  exact List.Nodup.map (fun _ _ h ↦ NodeId.mk.inj h) List.nodup_range'

mutual

/-- Whether no node of a tree is a fragment. -/
def Solid : Tree α → Prop
  | .node _ kind _ _ children => kind ≠ .fragment ∧ SolidAll children

/-- Whether no node of the trees is a fragment. -/
def SolidAll : List (Tree α) → Prop
  | [] => True
  | t :: ts => Solid t ∧ SolidAll ts

end

theorem Solid.kind_ne {t : Tree α} (h : t.Solid) : t.kind ≠ .fragment := by
  obtain ⟨l, kind, attrs, data, children⟩ := t
  rw [Solid] at h
  exact h.1

theorem Solid.children {t : Tree α} (h : t.Solid) : SolidAll t.children := by
  obtain ⟨l, kind, attrs, data, children⟩ := t
  rw [Solid] at h
  exact h.2

theorem solidAll_iff {ts : List (Tree α)} : SolidAll ts ↔ ∀ t ∈ ts, t.Solid := by
  induction ts with
  | nil => exact iff_of_true trivial fun _ ht ↦ absurd ht List.not_mem_nil
  | cons t ts ih => rw [SolidAll, ih, List.forall_mem_cons]

end Tree

namespace NodeStore

variable {α : Type} {s s' : NodeStore} {p : NodeId}

/-! ## Planting -/

/-- What planting a tree does. -/
structure Plants (s : NodeStore) (t : Tree α) (s' : NodeStore) : Prop where
  size : s'.size = s.size + t.size
  agrees : s.Agrees id [] s'
  shows : s'.Shows id ((t.number s.size).asNodes none)

/-- What planting trees at the end of a node does. -/
structure PlantsBelow (s : NodeStore) (p : NodeId) (ts : List (Tree α)) (s' : NodeStore) :
    Prop where
  size : s'.size = s.size + (Tree.labelsAll ts).length
  agrees : s.Agrees id [p] s'
  get : s'.get p = { s.get p with
    children := (s.get p).children ++ (Tree.numberAll s.size ts).map Tree.label }
  shows : s'.Shows id (Tree.asNodesAll (some p) (Tree.numberAll s.size ts))

/-- Putting a tree below a node that is not part of it changes nothing but the row there and the
parent of the root. -/
theorem append_of_shows {t : Tree NodeId} (h : s.Shows id (t.asNodes none))
    (hnodup : t.labels.Nodup) (ht : t.kind ≠ .fragment) (hp : p.index < s.size)
    (hpt : p ∉ t.labels) :
    s.Agrees id [p, t.label] (s.append p t.label) ∧
      (s.append p t.label).get p =
        { s.get p with children := (s.get p).children ++ [t.label] } ∧
      (s.append p t.label).Shows id (t.asNodes (some p)) := by
  have hne : p ≠ t.label := fun he ↦ hpt (he ▸ t.label_mem_labels)
  have hroot : t.label.index < s.size ∧ (s.get t.label).kind = t.kind ∧
      (s.get t.label).parent = none := by
    obtain ⟨n, kind, attrs, data, children⟩ := t
    obtain ⟨hlt, hget⟩ := h _ List.mem_cons_self
    exact ⟨hlt, congrArg Node.kind hget, congrArg Node.parent hget⟩
  obtain ⟨hlt, hkind, hparent⟩ := hroot
  have hget := get_append_of_top (hkind ▸ ht) hparent hlt hp hne
  refine ⟨⟨Nat.le_of_eq (size_append ..).symm, fun m _ hm ↦ ?_⟩, ?_, ?_⟩
  · rw [List.mem_cons, List.mem_singleton, not_or] at hm
    rw [hget, if_neg hm.1, if_neg hm.2]
  · rw [hget, if_pos rfl]
  · rw [← Tree.asNodesAll_singleton] at h ⊢
    rw [← Tree.labelsAll_singleton] at hnodup hpt
    refine h.reparent hnodup (Nat.le_of_eq (size_append ..).symm) (fun m hm ↦ ?_)
      fun m hm hnot ↦ ?_
    · obtain rfl := List.mem_singleton.mp hm
      rw [hget, if_neg hne.symm, if_pos rfl]
    · have hmp : m ≠ p := fun he ↦ hpt (he ▸ hm)
      rw [hget, if_neg hmp, if_neg fun he ↦ hnot (List.mem_singleton.mpr he)]

/-- A planted tree that is put below a node of before. -/
theorem Plants.append {t : Tree α} (h : s.Plants t s') (ht : t.kind ≠ .fragment)
    (hp : p.index < s.size) :
    (s'.append p ⟨s.size⟩).size = s.size + t.size ∧
      s.Agrees id [p] (s'.append p ⟨s.size⟩) ∧
      (s'.append p ⟨s.size⟩).get p =
        { s.get p with children := (s.get p).children ++ [⟨s.size⟩] } ∧
      (s'.append p ⟨s.size⟩).Shows id ((t.number s.size).asNodes (some p)) := by
  have hpt : p ∉ (t.number s.size).labels := fun hmem ↦
    Nat.not_lt.mpr (Tree.mem_labels_number hmem).1 hp
  have hkind : (t.number s.size).kind ≠ .fragment := by rwa [Tree.kind_number]
  obtain ⟨hagrees, hget, hshows⟩ := append_of_shows h.shows (Tree.nodup_labels_number _ t) hkind
    (Nat.lt_of_lt_of_le hp h.agrees.size) hpt
  have hold : s'.get p = s.get p := h.agrees.get p hp List.not_mem_nil
  rw [Tree.label_number] at hagrees hget hshows
  refine ⟨(size_append ..).trans h.size, ?_, hold ▸ hget, hshows⟩
  refine ((h.agrees.mono (List.nil_subset _)).trans hagrees).of_append (X := [p]) fun n hn ↦ ?_
  exact Nat.le_of_eq (congrArg NodeId.index (List.mem_singleton.mp hn)).symm

mutual

/-- Planting a tree adds it, numbered, and changes nothing else. -/
theorem plants_plant (s : NodeStore) (t : Tree α) (ht : Tree.SolidAll t.children) :
    (s.plant t).1 = ⟨s.size⟩ ∧ s.Plants t (s.plant t).2 := by
  obtain ⟨l, kind, attrs, data, children⟩ := t
  have hlt : (⟨s.size⟩ : NodeId).index < (s.create { kind, attrs, data }).2.size := by
    rw [size_create]
    exact Nat.lt_succ_self _
  have hbelow := plantsBelow_plantBelow (s.create { kind, attrs, data }).2 ⟨s.size⟩ children hlt ht
  have hplant : s.plant (.node l kind attrs data children) =
      (⟨s.size⟩, (s.create { kind, attrs, data }).2.plantBelow ⟨s.size⟩ children) := by
    rw [plant]
    rfl
  rw [hplant]
  refine ⟨rfl, ?_, ?_, ?_⟩
  · rw [hbelow.size, size_create, Tree.size_node]
    omega
  · refine ((agrees_create s { kind, attrs, data }).mono (List.nil_subset _)).trans hbelow.agrees
      |>.of_append (X := []) fun n hn ↦ ?_
    exact Nat.le_of_eq (congrArg NodeId.index (List.mem_singleton.mp hn)).symm
  · have hget := hbelow.get
    have hshows := hbelow.shows
    rw [size_create] at hget hshows
    rw [get_create, if_pos rfl] at hget
    rw [Tree.number, Tree.asNodes, shows_cons]
    refine ⟨⟨?_, hget⟩, hshows⟩
    exact Nat.lt_of_lt_of_le hlt hbelow.agrees.size

/-- Planting trees at the end of a node adds them, numbered, and changes only that node. -/
theorem plantsBelow_plantBelow (s : NodeStore) (p : NodeId) (ts : List (Tree α))
    (hp : p.index < s.size) (hts : Tree.SolidAll ts) : s.PlantsBelow p ts (s.plantBelow p ts) := by
  match ts with
  | [] =>
    rw [plantBelow]
    refine ⟨rfl, Agrees.refl _ _ _, ?_, shows_nil _ _⟩
    rw [Tree.numberAll, List.map_nil, List.append_nil]
  | t :: ts =>
    rw [Tree.SolidAll] at hts
    obtain ⟨hfst, hplants⟩ := plants_plant s t hts.1.children
    obtain ⟨hsize, hagrees, hget, hshows⟩ := hplants.append hts.1.kind_ne hp
    have hbelow : s.plantBelow p (t :: ts) =
        ((s.plant t).2.append p ⟨s.size⟩).plantBelow p ts := by
      rw [plantBelow, ← hfst]
    have hlt : p.index < ((s.plant t).2.append p ⟨s.size⟩).size :=
      Nat.lt_of_lt_of_le hp hagrees.size
    have hrest := plantsBelow_plantBelow ((s.plant t).2.append p ⟨s.size⟩) p ts hlt hts.2
    rw [hbelow]
    refine ⟨?_, hagrees.trans hrest.agrees, ?_, ?_⟩
    · rw [hrest.size, hsize, Tree.length_labelsAll_cons, Nat.add_assoc]
    · rw [hrest.get, hget, hsize, Tree.numberAll, List.map_cons, Tree.label_number]
      simp only [List.append_assoc, List.cons_append, List.nil_append]
    · -- Planting the rest touches `p` only, which is not part of the first tree.
      rw [Tree.numberAll, Tree.asNodesAll, shows_append, ← hsize]
      refine ⟨hshows.of_agrees hrest.agrees fun x hx hxp ↦ ?_, hrest.shows⟩
      have hge := (Tree.mem_labels_number (Tree.mem_labels_of_mem_asNodes hx)).1
      rw [List.mem_singleton.mp hxp] at hge
      omega

end

/-- A clone of a tree that is shown is the tree on new nodes, and nothing else changes. -/
theorem plants_deepClone {t : Tree NodeId} {q : Option NodeId} (h : s.Shows id (t.asNodes q))
    (hnodup : t.labels.Nodup) (hsolid : Tree.SolidAll t.children) :
    (s.deepClone t.label).1 = ⟨s.size⟩ ∧ s.Plants t (s.deepClone t.label).2 := by
  rw [deepClone, tree_of_shows h hnodup]
  exact plants_plant s t hsolid

/-- The tree that was planted. -/
theorem Plants.tree_eq {t : Tree α} {n : NodeId} (h : s.Plants t s') (hn : n = ⟨s.size⟩)
    {s'' : NodeStore} (hagrees : s'.Agrees id [] s'') : s''.tree n = t.number s.size := by
  rw [hn, ← t.label_number s.size]
  exact tree_of_shows (h.shows.of_agrees hagrees fun _ _ ↦ List.not_mem_nil)
    (Tree.nodup_labels_number s.size t)

/-- What planting trees in a row does. -/
structure PlantsAll (s : NodeStore) (ts : List (Tree α)) (s' : NodeStore) : Prop where
  size : s'.size = s.size + (Tree.labelsAll ts).length
  agrees : s.Agrees id [] s'
  shows : s'.Shows id (Tree.asNodesAll none (Tree.numberAll s.size ts))

/-- Planting trees in a row adds them, numbered, and changes nothing else. -/
theorem plantsAll_plantAll (s : NodeStore) (ts : List (Tree α))
    (hts : ∀ t ∈ ts, Tree.SolidAll t.children) :
    (s.plantAll ts).1 = (Tree.numberAll s.size ts).map Tree.label ∧
      s.PlantsAll ts (s.plantAll ts).2 := by
  induction ts generalizing s with
  | nil => exact ⟨rfl, rfl, Agrees.refl _ _ _, shows_nil _ _⟩
  | cons t ts ih =>
    obtain ⟨ht, hts⟩ := List.forall_mem_cons.mp hts
    obtain ⟨hfst, hplants⟩ := plants_plant s t ht
    obtain ⟨hroots, hrest⟩ := ih (s.plant t).2 hts
    rw [hplants.size] at hroots
    have hshows := hrest.shows
    rw [hplants.size] at hshows
    refine ⟨?_, ?_, hplants.agrees.trans hrest.agrees, ?_⟩
    · rw [plantAll, Tree.numberAll, List.map_cons, Tree.label_number, ← hroots, ← hfst]
    · rw [Tree.length_labelsAll_cons, ← Nat.add_assoc, ← hplants.size]
      exact hrest.size
    · rw [Tree.numberAll, Tree.asNodesAll, shows_append]
      exact ⟨hplants.shows.of_agrees hrest.agrees fun _ _ ↦ List.not_mem_nil, hshows⟩

/-! ## Filling a node -/

/-- Trees that are put below a node one after the other stand there in a row. -/
theorem foldl_append_of_shows {ts : List (Tree NodeId)} (h : s.Shows id (Tree.asNodesAll none ts))
    (hnodup : (p :: Tree.labelsAll ts).Nodup) (hts : ∀ t ∈ ts, t.kind ≠ .fragment)
    (hp : p.index < s.size) {s' : NodeStore}
    (hs' : s' = (ts.map Tree.label).foldl (fun s n ↦ s.append p n) s) :
    s.Agrees id (p :: ts.map Tree.label) s' ∧
      s'.get p = { s.get p with children := (s.get p).children ++ ts.map Tree.label } ∧
      s'.Shows id (Tree.asNodesAll (some p) ts) := by
  induction ts generalizing s with
  | nil =>
    subst hs'
    refine ⟨Agrees.refl _ _ _, ?_, shows_nil _ _⟩
    rw [List.map_nil, List.append_nil]
  | cons t ts ih =>
    rw [Tree.asNodesAll, shows_append] at h
    obtain ⟨hfirst, hrest⟩ := h
    obtain ⟨ht, hts⟩ := List.forall_mem_cons.mp hts
    rw [Tree.labelsAll, List.nodup_cons, List.mem_append, not_or, List.nodup_append'] at hnodup
    obtain ⟨⟨hpt, hpts⟩, hnt, hnts, hdisjoint⟩ := hnodup
    obtain ⟨hagrees, hget, hshows⟩ := append_of_shows hfirst hnt ht hp hpt
    have hrest' := hrest.of_agrees hagrees fun x hx hmem ↦ by
      have hx := Tree.mem_labelsAll_of_mem_asNodesAll hx
      rcases List.mem_cons.mp hmem with rfl | hmem
      · exact hpts hx
      · exact hdisjoint (List.mem_singleton.mp hmem ▸ t.label_mem_labels) hx
    obtain ⟨hagrees', hget', hshows'⟩ := ih hrest' (List.nodup_cons.mpr ⟨hpts, hnts⟩) hts
      (Nat.lt_of_lt_of_le hp hagrees.size) hs'
    refine ⟨?_, ?_, ?_⟩
    · refine (hagrees.mono ?_).trans (hagrees'.mono ?_)
      · exact List.cons_subset_cons p (List.cons_subset_cons _ (List.nil_subset _))
      · exact List.cons_subset_cons p (List.subset_cons_self ..)
    · rw [hget', hget, List.map_cons, List.append_assoc]
      rfl
    · rw [Tree.asNodesAll, shows_append]
      refine ⟨hshows.of_agrees hagrees' fun x hx hmem ↦ ?_, hshows'⟩
      have hx := Tree.mem_labels_of_mem_asNodes hx
      rcases List.mem_cons.mp hmem with hxp | hmem
      · exact hpt (hxp ▸ hx)
      · exact hdisjoint hx ((Tree.map_label_sublist_labelsAll ts).subset hmem)

/-- The trees below a fragment are put below another node, and the fragment is left without any. -/
theorem append_fragment_of_shows {f : NodeId} {attrs : Attributes} {data : String}
    {ts : List (Tree NodeId)} {q : Option NodeId}
    (h : s.Shows id ((Tree.node f .fragment attrs data ts).asNodes q))
    (hnodup : (f :: Tree.labelsAll ts).Nodup) (hp : p.index < s.size)
    (hpt : p ∉ f :: Tree.labelsAll ts) :
    s.Agrees id (p :: f :: Tree.labelsAll ts) (s.append p f) ∧
      (s.append p f).get p =
        { s.get p with children := (s.get p).children ++ ts.map Tree.label } ∧
      (s.append p f).Shows id (Tree.asNodesAll (some p) ts) := by
  rw [Tree.asNodes, shows_cons] at h
  obtain ⟨⟨hlt, hget⟩, hbelow⟩ := h
  obtain ⟨hf, hts⟩ := List.nodup_cons.mp hnodup
  rw [List.mem_cons, not_or] at hpt
  have hroots : ts.map Tree.label ⊆ Tree.labelsAll ts :=
    (Tree.map_label_sublist_labelsAll ts).subset
  have hrow : (s.get f).children = ts.map Tree.label := congrArg Node.children hget
  have hmovable : s.Movable f p := by
    constructor
    · exact congrArg Node.kind hget
    · exact hlt
    · intro m hm
      exact hbelow.lt_of_mem_labelsAll (hroots (hrow ▸ hm))
    · exact fun hm ↦ hf (hroots (hrow ▸ hm))
    · exact hp
    · exact hpt.1
    · exact fun hm ↦ hpt.2 (hroots (hrow ▸ hm))
  have happend := hmovable.get_append
  rw [hrow] at happend
  refine ⟨⟨Nat.le_of_eq (size_append ..).symm, fun m _ hm ↦ ?_⟩, ?_, ?_⟩
  · rw [List.mem_cons, List.mem_cons, not_or, not_or] at hm
    rw [happend, if_neg hm.1, if_neg fun hmts ↦ hm.2.2 (hroots hmts), if_neg hm.2.1]
  · rw [happend, if_pos rfl]
  · have hne {m : NodeId} (hm : m ∈ Tree.labelsAll ts) : m ≠ p ∧ m ≠ f := by
      constructor
      · rintro rfl
        exact hpt.2 hm
      · rintro rfl
        exact hf hm
    refine hbelow.reparent hts (Nat.le_of_eq (size_append ..).symm) (fun m hm ↦ ?_)
      fun m hm hnot ↦ ?_
    · rw [happend, if_neg (hne (hroots hm)).1, if_pos hm]
    · rw [happend, if_neg (hne hm).1, if_neg hnot, if_neg (hne hm).2]

end NodeStore

end LiveMarkup
