import LiveMarkup.Proofs.Node.Forest

/-!
# Replacements that are refused

Replacing a node answers whether the node had a place. It has none if it has no parent, and then
nothing happens. But what is put in its place is taken out first, and that can be the node itself,
or the fragment the node stands in (`NodeStore.Displaced`). Then its place is gone before it is
looked up, the replacement is refused, and what was taken out stays out.

These are the only refusals (`NodeStore.replace_refused_iff`).
-/

namespace LiveMarkup

namespace NodeStore

variable {s : NodeStore} {n p r : NodeId} {made : List NodeId}

/-- Whether the links of all nodes are what they were. -/
def SameLinks (s s' : NodeStore) : Prop :=
  ∀ m, (s'.get m).children = (s.get m).children ∧ (s'.get m).parent = (s.get m).parent

/-- Whether a node has a place, and is to give it to itself or to the fragment it stands in. -/
def Displaced (s : NodeStore) (n r : NodeId) : Prop :=
  (s.get n).parent ≠ none ∧ (r = n ∨ s.Under n r)

/-- A node with a place is refused a replacement that takes it out. -/
theorem Linked.replace_eq_false_iff (hs : s.Linked) (hp : s.Under n p) (r : NodeId) :
    (s.replace n r).1 = false ↔ n ∈ (s.take r).1 := by
  rcases hs.replace_cases hp r with ⟨hfalse, hmem, -⟩ | ⟨htrue, pre, post, hhouses⟩
  · exact iff_of_true hfalse hmem
  · refine iff_of_false (by rw [htrue]; exact Bool.noConfusion) fun hmem ↦ ?_
    -- The node is still listed by its parent, so it has not been taken out.
    have hfrees := hs.frees_take r
    have hlisted : n ∈ ((s.take r).2.get p).children := by
      rw [hhouses.children]
      simp
    have hparent := ((hfrees.linked hs).mem_children p n).mp hlisted
    rw [hfrees.get, Node.parent_placed, if_pos hmem] at hparent
    contradiction

/-- As long as no node gets below itself, a node is taken out with what is put in its place only if
that is the node itself or the fragment it stands in. -/
theorem Forest.mem_take_iff (hs : s.Forest) (hp : s.Under n p)
    (hclear : ∀ c ∈ (s.take r).1, ¬ s.Above c p) :
    n ∈ (s.take r).1 ↔ r = n ∨ s.Under n r := by
  constructor
  · intro hmem
    rcases mem_take hmem with hchild | ⟨heq, -⟩
    · exact .inr ((hs.linked.mem_children r n).mp hchild)
    · exact .inl heq.symm
  · rintro (rfl | hr)
    · rw [take_of_ne (hs.solid hp)]
      exact List.mem_singleton_self r
    · by_cases hkind : (s.get r).kind = .fragment
      · rw [take_of_fragment hkind]
        exact (hs.linked.mem_children r n).mpr hr
      · -- The parent would get below itself.
        obtain rfl : r = p := Option.some.inj (hr.symm.trans hp)
        refine absurd .refl (hclear r ?_)
        rw [take_of_ne hkind]
        exact List.mem_singleton_self r

theorem Forest.replace_eq_false_iff (hs : s.Forest) (he : (Edit.replace n r).Allowed s) :
    (s.replace n r).1 = false ↔ (s.get n).parent = none ∨ s.Displaced n r := by
  cases hp : (s.get n).parent with
  | none =>
    rw [replace_of_top hp]
    exact iff_of_true rfl (.inl rfl)
  | some p =>
    rw [hs.linked.replace_eq_false_iff hp, hs.mem_take_iff hp (he.clear p hp), Displaced, hp]
    simp

/-- A displaced node is taken out with what was to be put in its place. -/
theorem Forest.frees_of_displaced (hs : s.Forest) (he : (Edit.replace n r).Allowed s)
    (h : s.Displaced n r) : n ∈ s.inserted r ∧ s.Frees (s.inserted r) (s.replace n r).2 := by
  obtain ⟨p, hp⟩ := Option.ne_none_iff_exists'.mp h.1
  have hmem := (hs.mem_take_iff hp (he.clear p hp)).mpr h.2
  have hfalse := (hs.linked.replace_eq_false_iff hp r).mpr hmem
  rw [← fst_take]
  rcases hs.linked.replace_cases hp r with ⟨-, -, heq⟩ | ⟨htrue, -⟩
  · exact ⟨hmem, heq ▸ hs.linked.frees_take r⟩
  · rw [hfalse] at htrue
    contradiction

/-- **Refused replacements.** In a store that has been come by without putting a node below itself,
a replacement that would not do so either is refused exactly if the node has no parent or is
displaced. If it is refused, the links of all nodes are what they were exactly if the node is not
displaced, and then the store is what it was; a displaced node is taken out of its parent, together
with all else that was to be put in its place. -/
theorem replace_refused_iff (h : Reaches made s) (he : (Edit.replace n r).Allowed s) :
    ((s.replace n r).1 = false ↔ (s.get n).parent = none ∨ s.Displaced n r) ∧
      ((s.replace n r).1 = false →
        (s.SameLinks (s.replace n r).2 ↔ ¬ s.Displaced n r) ∧
        (¬ s.Displaced n r → (s.replace n r).2 = s) ∧
        (s.Displaced n r → n ∈ s.inserted r ∧ s.Frees (s.inserted r) (s.replace n r).2)) := by
  have hs := h.forest.1
  have hiff := hs.replace_eq_false_iff he
  refine ⟨hiff, fun hfalse ↦ ?_⟩
  have hsame : ¬ s.Displaced n r → (s.replace n r).2 = s := fun hnot ↦ by
    rw [replace_of_top ((hiff.mp hfalse).resolve_right hnot)]
  refine ⟨⟨fun hlinks hdisplaced ↦ ?_, fun hnot ↦ ?_⟩, hsame, hs.frees_of_displaced he⟩
  · obtain ⟨hmem, hfrees⟩ := hs.frees_of_displaced he hdisplaced
    have hparent := (hlinks n).2
    rw [hfrees.get, Node.parent_placed, if_pos hmem] at hparent
    exact hdisplaced.1 hparent.symm
  · rw [hsame hnot]
    exact fun _ ↦ ⟨rfl, rfl⟩

/-! ## A text and the node that holds it -/

/-- A text in a node of the given kind. -/
def boxed (kind : NodeKind) : NodeStore :=
  ((empty.build .text "x" [] []).2.build kind "" [] [⟨0⟩]).2

theorem reaches_boxed (kind : NodeKind) : Reaches [⟨0⟩, ⟨1⟩] (boxed kind) := by
  have htext := Reaches.empty.run (e := .build .text "x" [] [])
    ⟨by decide, Edit.noConfusion, trivial⟩
  exact htext.run (e := .build kind "" [] [⟨0⟩])
    ⟨List.forall_mem_singleton.mpr (by decide), Edit.noConfusion, trivial⟩

theorem allowed_replace_boxed {kind : NodeKind} (hp : ((boxed kind).get ⟨1⟩).parent = none)
    (hlt : ∀ m ∈ [n, r], m.index < (boxed kind).size) (hn : ((boxed kind).get n).parent = some ⟨1⟩)
    (hnot : ⟨1⟩ ∉ ((boxed kind).take r).1) : (Edit.replace n r).Allowed (boxed kind) where
  lt := hlt
  ne := Edit.noConfusion
  clear p hp' := by
    obtain rfl : (⟨1⟩ : NodeId) = p := Option.some.inj (hn.symm.trans hp')
    exact not_above_of_top hp hnot

/-- A text in a fragment that is to give its place to the fragment. The replacement is refused, and
the text is taken out of the fragment. -/
theorem replace_by_holder_refused : (Edit.replace ⟨0⟩ ⟨1⟩).Allowed (boxed .fragment) ∧
    ((boxed .fragment).replace ⟨0⟩ ⟨1⟩).1 = false ∧
    ⟨0⟩ ∈ (boxed .fragment).inserted ⟨1⟩ ∧
    (boxed .fragment).Frees ((boxed .fragment).inserted ⟨1⟩)
      ((boxed .fragment).replace ⟨0⟩ ⟨1⟩).2 := by
  have hallowed : (Edit.replace ⟨0⟩ ⟨1⟩).Allowed (boxed .fragment) :=
    allowed_replace_boxed (by decide) (by decide) (by decide) (by decide)
  have hdisplaced : (boxed .fragment).Displaced ⟨0⟩ ⟨1⟩ :=
    ⟨by decide, .inr (show ((boxed .fragment).get ⟨0⟩).parent = some ⟨1⟩ by decide)⟩
  obtain ⟨hiff, hrefused⟩ := replace_refused_iff (reaches_boxed .fragment) hallowed
  have hfalse := hiff.mpr (.inr hdisplaced)
  exact ⟨hallowed, hfalse, (hrefused hfalse).2.2 hdisplaced⟩

/-- A text in an element that is to give its place to itself. The replacement is refused, although
the text has a parent, and the element has lost its child. -/
theorem not_sameLinks_of_replace_self : Reaches [⟨0⟩, ⟨1⟩] (boxed (.element "p")) ∧
    (Edit.replace ⟨0⟩ ⟨0⟩).Allowed (boxed (.element "p")) ∧
    ((boxed (.element "p")).replace ⟨0⟩ ⟨0⟩).1 = false ∧
    ((boxed (.element "p")).get ⟨1⟩).children = [⟨0⟩] ∧
    (((boxed (.element "p")).replace ⟨0⟩ ⟨0⟩).2.get ⟨1⟩).children = [] ∧
    ¬ (boxed (.element "p")).SameLinks ((boxed (.element "p")).replace ⟨0⟩ ⟨0⟩).2 := by
  refine ⟨reaches_boxed _, allowed_replace_boxed (by decide) (by decide) (by decide) (by decide),
    by decide, by decide, by decide, fun hlinks ↦ ?_⟩
  exact absurd (hlinks ⟨1⟩).1 (by decide)

end NodeStore

end LiveMarkup
