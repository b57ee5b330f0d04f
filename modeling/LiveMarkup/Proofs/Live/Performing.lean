import LiveMarkup.Proofs.Binding.Plan
import LiveMarkup.Proofs.Live.Carrying
import LiveMarkup.Proofs.Live.Evaluation
import LiveMarkup.Proofs.Node.Planting

/-!
# Execution performs the plan

The program of a template, carried out on a live tree of its shape, binds the directives of the plan
in the order of the plan, and enters each binding into the ledger at once; between two of them it
reads signals, works on nodes and holds them, and nothing else (`Runner.Performs`).

That holds of any directives that are gentle: binding them succeeds, and leaves the structure of
trees and the ledger alone (`Runner.Gentle`). Attributes and data they may change, and with them
anything that has to do with neither.
-/

namespace LiveMarkup

variable {C H : Type}

/-- The ledger with bindings registered one after the other. -/
def Ledger.registerAll {β : Type} (l : Ledger β) (bs : List β) : Ledger β :=
  bs.foldl (fun l b ↦ (l.register b).2) l

/-! ## Where directives are bound -/

namespace Site

/-- The element itself, or anything that is new. -/
def Allows (bound : Nat) (n : NodeId) : Site → Prop
  | .element m _ => n = m
  | .slot _ => bound ≤ n.index

/-- Whether a node is one on which a directive may be bound there: the element itself, or a text
that is new. -/
structure Admits (site : Site) (bound : Nat) (s : NodeStore) (n : NodeId) : Prop where
  lt : n.index < s.size
  kind : (s.get n).kind = site.kind
  place : site.Allows bound n

theorem Admits.of_agrees {site : Site} {bound : Nat} {s s' : NodeStore} {n : NodeId}
    (h : site.Admits bound s n) (hs : s.Agrees Node.skeleton [] s') : site.Admits bound s' n where
  lt := Nat.lt_of_lt_of_le h.lt hs.size
  kind := (congrArg Prod.fst (hs.get n h.lt List.not_mem_nil)).trans h.kind
  place := h.place

end Site

namespace Runner

/-! ## Gentle directives -/

/-- Whether a directive can be bound to any node of a kind, and leaves the structure of trees and
the ledger alone. -/
def Gentle (r : LiveRunner C H) (limit : Nat) (scope : Scope) (kind : NodeKind)
    (a : Application C) : Prop :=
  ∀ (n : NodeId) (st : LiveState C H), n.index < st.world.nodes.size →
    (st.world.nodes.get n).kind = kind →
      ∃ b st', r.Yields limit (a.bind scope n) st (.ok b) st' ∧
        st.world.nodes.Agrees Node.skeleton [] st'.world.nodes ∧
        st'.world.ledger? scope.vm = st.world.ledger? scope.vm

/-! ## Performing -/

/-- What may happen between two directives: reads, and work on nodes that are then held or not. -/
structure Tends (st st' : LiveState C H) : Prop where
  graph : ∃ ss, st'.graph = (st.trackAll ss).graph
  world : st'.world =
    { st.world with nodes := st'.world.nodes, holdings := st'.world.holdings }

/-- Whether directives are bound between two states, in order, with these bindings, each of which is
entered into the ledger at once. Texts that are not new are those below `bound`. -/
inductive Performs (r : LiveRunner C H) (limit : Nat) (scope : Scope) (bound : Nat) :
    List (Errand C) → List (Binding C) → LiveState C H → LiveState C H → Prop
  | nil {st st' : LiveState C H} : Tends st st' → Performs r limit scope bound [] [] st st'
  | cons {x : Errand C} {xs : List (Errand C)} {b : Binding C} {bs : List (Binding C)} {n : NodeId}
    {st st₁ st₂ st' : LiveState C H} : Tends st st₁ → x.site.Admits bound st₁.world.nodes n →
      r.Yields limit (x.application.bind scope n) st₁ (.ok b) st₂ →
        Performs r limit scope bound xs bs (st₂.register scope.vm b) st' →
          Performs r limit scope bound (x :: xs) (b :: bs) st st'

namespace Tends

variable {st st₁ st₂ : LiveState C H}

theorem refl (st : LiveState C H) : Tends st st := ⟨⟨[], rfl⟩, rfl⟩

theorem trans (h : Tends st st₁) (h' : Tends st₁ st₂) : Tends st st₂ where
  graph := by
    obtain ⟨ss, hss⟩ := h.graph
    obtain ⟨ts, hts⟩ := h'.graph
    refine ⟨ss ++ ts, ?_⟩
    rw [hts, State.trackAll_append, State.trackAll, State.trackAll, hss]
    rfl
  world := by
    rw [h'.world, h.world]

theorem trackAll (st : LiveState C H) (ss : List SignalId) : Tends st (st.trackAll ss) :=
  ⟨⟨ss, rfl⟩, rfl⟩

theorem nodes (st : LiveState C H) (s : NodeStore) :
    Tends st (st.withWorld { st.world with nodes := s }) := ⟨⟨[], rfl⟩, rfl⟩

theorem holdings (st : LiveState C H) (hs : List (List (Held C))) : Tends st (st.withHoldings hs) :=
  ⟨⟨[], rfl⟩, rfl⟩

theorem ledger? (h : Tends st st₁) (vm : ViewModelId) :
    st₁.world.ledger? vm = st.world.ledger? vm := by
  rw [h.world]
  rfl

end Tends

namespace Performs

variable {r : LiveRunner C H} {limit : Nat} {scope : Scope} {bound : Nat}
  {xs ys : List (Errand C)} {bs cs : List (Binding C)} {st st₁ st₂ : LiveState C H}

theorem of_tends (h : Tends st st₁) (h' : r.Performs limit scope bound xs bs st₁ st₂) :
    r.Performs limit scope bound xs bs st st₂ := by
  cases h' with
  | nil h₁ => exact .nil (h.trans h₁)
  | cons h₁ hn hbind hrest => exact .cons (h.trans h₁) hn hbind hrest

theorem append (h : r.Performs limit scope bound xs bs st st₁)
    (h' : r.Performs limit scope bound ys cs st₁ st₂) :
    r.Performs limit scope bound (xs ++ ys) (bs ++ cs) st st₂ := by
  induction h with
  | nil h₁ => exact of_tends h₁ h'
  | cons h₁ hn hbind _ ih => exact .cons h₁ hn hbind (ih h')

theorem tends (h : r.Performs limit scope bound xs bs st st₁) (h' : Tends st₁ st₂) :
    r.Performs limit scope bound xs bs st st₂ := by
  have hall := h.append (.nil h')
  rwa [List.append_nil, List.append_nil] at hall

/-- Gentle directives leave to the ledger what is entered into it. -/
theorem ledger? (h : r.Performs limit scope bound xs bs st st₁)
    (hgentle : ∀ x ∈ xs, r.Gentle limit scope x.site.kind x.application) :
    st₁.world.ledger? scope.vm =
      (st.world.ledger? scope.vm).map fun l ↦ l.registerAll bs := by
  induction h with
  | nil h₁ =>
    rw [h₁.ledger?]
    exact (Option.map_id' ..).symm
  | @cons x xs b bs n st st₁ st₂ st' h₁ hn hbind hrest ih =>
    obtain ⟨b', st₂', hbind', -, hledger⟩ := hgentle x List.mem_cons_self n st₁ hn.lt hn.kind
    obtain ⟨-, rfl⟩ := hbind.unique hbind'
    rw [ih fun y hy ↦ hgentle y (List.mem_cons_of_mem x hy), State.ledger?_register, hledger,
      h₁.ledger?, Option.map_map]
    rfl

end Performs

/-! ## Code that performs errands -/

/-- Whether code ends without failing, has then performed errands, and has left the structure
outside of `X` alone. -/
def Fulfils (r : LiveRunner C H) (limit : Nat) (scope : Scope) (bound : Nat) (p : Linking C H Unit)
    (xs : List (Errand C)) (X : List NodeId) (st : LiveState C H) : Prop :=
  ∃ st' bs, r.Links limit p st () st' ∧ r.Performs limit scope bound xs bs st st' ∧
    st.world.nodes.Agrees Node.skeleton X st'.world.nodes

namespace Fulfils

variable {r : LiveRunner C H} {limit : Nat} {scope : Scope} {bound : Nat}
  {p q : Linking C H Unit} {xs ys : List (Errand C)} {X Y : List NodeId} {st : LiveState C H}

theorem done (X : List NodeId) (st : LiveState C H) :
    r.Fulfils limit scope bound (pure ()) [] X st :=
  ⟨st, [], Links.done () st, .nil (Tends.refl st), NodeStore.Agrees.refl _ X _⟩

theorem mono (h : r.Fulfils limit scope bound p xs X st) (hXY : X ⊆ Y) :
    r.Fulfils limit scope bound p xs Y st := by
  obtain ⟨st', bs, hlink, hperforms, hagrees⟩ := h
  exact ⟨st', bs, hlink, hperforms, hagrees.mono hXY⟩

theorem bind (h : r.Fulfils limit scope bound p xs X st)
    (h' : ∀ st₁, st.world.nodes.Agrees Node.skeleton X st₁.world.nodes →
      r.Fulfils limit scope bound q ys Y st₁) (hXY : X ⊆ Y) :
    r.Fulfils limit scope bound (p >>= fun _ ↦ q) (xs ++ ys) Y st := by
  obtain ⟨st₁, bs, hp, hxs, hagrees⟩ := h
  obtain ⟨st₂, cs, hq, hys, hagrees'⟩ := h' st₁ hagrees
  exact ⟨st₂, bs ++ cs, hp.bind hq, hxs.append hys, (hagrees.mono hXY).trans hagrees'⟩

/-- Between errands, code may do what tends to them. -/
theorem bind_live {α : Type} {f : Live C H α} {g : α → Linking C H Unit} {a : α}
    {st₁ : LiveState C H} (hf : r.Yields limit f st a st₁) (htends : Tends st st₁)
    (hagrees : st.world.nodes.Agrees Node.skeleton X st₁.world.nodes)
    (h : r.Fulfils limit scope bound (g a) xs X st₁) :
    r.Fulfils limit scope bound (Linking.live f >>= g) xs X st := by
  obtain ⟨st₂, bs, hg, hxs, hagrees'⟩ := h
  exact ⟨st₂, bs, Links.bind_live hf hg, hxs.of_tends htends, hagrees.trans hagrees'⟩

theorem holding {hs : List (Held C)}
    (h : r.Fulfils limit scope bound p xs X (st.withHoldings (hs :: st.world.holdings))) :
    r.Fulfils limit scope bound (Linking.holding hs p) xs X st := by
  obtain ⟨st₁, bs, hp, hxs, hagrees⟩ := h
  refine ⟨st₁.withHoldings st₁.world.holdings.tail, bs, Links.holding hp, ?_, hagrees⟩
  exact (hxs.tends (Tends.holdings st₁ _)).of_tends (Tends.holdings st _)

/-- Code is entitled to the node its target names. -/
theorem single {f : NodeId → Linking C H Unit} {n : NodeId}
    (h : r.Fulfils limit scope bound (f n) xs X st) :
    r.Fulfils limit scope bound (Linking.ofExcept (Target.node n).single >>= f) xs X st := by
  obtain ⟨st', bs, hp, hrest⟩ := h
  exact ⟨st', bs, (Links.ofExcept rfl st).bind hp, hrest⟩

/-! ### Directives -/

/-- A gentle directive is applied: its attribute goes, it is bound, and the binding is entered. -/
theorem apply {x : Errand C} {n : NodeId} (hx : r.Gentle limit scope x.site.kind x.application)
    (hn : x.site.Admits bound st.world.nodes n) :
    r.Fulfils limit scope bound (x.application.apply scope n) [x] [] st := by
  have henter (st₁ : LiveState C H) (hn₁ : x.site.Admits bound st₁.world.nodes n) :
      r.Fulfils limit scope bound (x.application.enter scope n) [x] [] st₁ := by
    obtain ⟨b, st₂, hb, hagrees, -⟩ := hx n st₁ hn₁.lt hn₁.kind
    refine ⟨st₂.register scope.vm b, [b], Links.bind_live hb (Links.live (Yields.change _ st₂)),
      .cons (Tends.refl st₁) hn₁ hb (.nil (Tends.refl _)), hagrees⟩
  cases hsource : x.application.descriptor.sourceAttr with
  | none =>
    rw [Application.apply_of_none scope n hsource]
    exact henter st hn
  | some attr =>
    cases hretain : x.application.directive.retain with
    | true =>
      rw [Application.apply_of_retain scope n hretain]
      exact henter st hn
    | false =>
      rw [Application.apply_of_some scope n hsource hretain]
      have hagrees : st.world.nodes.Agrees Node.skeleton []
          (st.world.nodes.removeAttribute n attr) :=
        st.world.nodes.agrees_modify_of n fun _ ↦ rfl
      exact bind_live (Yields.edit _ st) (Tends.nodes st _) hagrees
        (henter _ (hn.of_agrees hagrees))

/-- Gentle directives are applied to one node, one after the other. -/
theorem applyAll {as : List (Application C)} {site : Site} {n : NodeId}
    (has : ∀ a ∈ as, r.Gentle limit scope site.kind a)
    (hn : site.Admits bound st.world.nodes n) :
    r.Fulfils limit scope bound (Application.applyAll scope n as) (as.map (Errand.mk · site)) []
      st := by
  induction as generalizing st with
  | nil => exact done [] st
  | cons a as ih =>
    have hrest (st₁ : LiveState C H)
        (hagrees : st.world.nodes.Agrees Node.skeleton [] st₁.world.nodes) :=
      ih (fun a' ha' ↦ has a' (List.mem_cons_of_mem a ha')) (hn.of_agrees hagrees)
    exact (apply (x := ⟨a, site⟩) (has a List.mem_cons_self) hn).bind hrest (List.nil_subset _)

/-- The directives of slots are applied, each to its text. -/
theorem applyPieces {ps : List (Piece C)} {ns : List NodeId} {m : NodeId}
    (hps : ∀ a, .slot a ∈ ps → r.Gentle limit scope .text a) (hlength : ns.length = ps.length)
    (hns : ∀ n ∈ ns, (Site.slot m).Admits bound st.world.nodes n) :
    r.Fulfils limit scope bound (Piece.applyAll scope ps ns)
      (ps.filterMap fun
        | .literal _ => none
        | .slot a => some ⟨a, .slot m⟩) [] st := by
  induction ps generalizing ns st with
  | nil =>
    rw [Piece.applyAll]
    · exact done [] st
    · intro a ps n ns hc
      contradiction
    · intro text ps n ns hc
      contradiction
  | cons piece ps ih =>
    obtain ⟨n, ns, rfl⟩ := List.exists_cons_of_length_eq_add_one hlength
    have hrest : ns.length = ps.length := Nat.succ.inj hlength
    have hslots (a : Application C) (ha : .slot a ∈ ps) := hps a (List.mem_cons_of_mem piece ha)
    cases piece with
    | literal text =>
      rw [Piece.applyAll]
      exact ih hslots hrest fun n' hn' ↦ hns n' (List.mem_cons_of_mem n hn')
    | slot a =>
      rw [Piece.applyAll]
      refine (apply (x := ⟨a, .slot m⟩) (hps a List.mem_cons_self)
        (hns n List.mem_cons_self)).bind (fun st₁ hagrees ↦ ?_) (List.nil_subset _)
      exact ih hslots hrest fun n' hn' ↦
        (hns n' (List.mem_cons_of_mem n hn')).of_agrees hagrees

end Fulfils

end Runner

/-! ## Programs of single nodes -/

namespace Piece

/-- The texts for pieces, numbered from `k` on. -/
def texts (k : Nat) (ps : List (Piece C)) : List (Tree NodeId) := Tree.numberAll k (ps.map toTree)

theorem texts_cons (k : Nat) (piece : Piece C) (ps : List (Piece C)) :
    texts k (piece :: ps) =
      .text ⟨k⟩ (match piece with
        | .literal text => text
        | .slot _ => "") :: texts (k + 1) ps := by
  cases piece <;> rfl

theorem length_texts (k : Nat) (ps : List (Piece C)) : (texts k ps).length = ps.length := by
  induction ps generalizing k with
  | nil => rfl
  | cons piece ps ih => rw [texts_cons, List.length_cons, ih, List.length_cons]

theorem solidAll (ps : List (Piece C)) : Tree.SolidAll (ps.map toTree) := by
  induction ps with
  | nil => trivial
  | cons piece ps ih =>
    rw [List.map_cons, Tree.SolidAll]
    refine ⟨?_, ih⟩
    cases piece with
    | literal text => exact ⟨fun h ↦ NodeKind.noConfusion h, trivial⟩
    | slot a => exact ⟨fun h ↦ NodeKind.noConfusion h, trivial⟩

/-- The roots of the texts are new texts, wherever the texts are shown. -/
theorem root_of_shows {s : NodeStore} {p : Option NodeId} {k : Nat} {ps : List (Piece C)}
    (h : s.Shows id (Tree.asNodesAll p (texts k ps))) :
    ∀ n ∈ (texts k ps).map Tree.label,
      k ≤ n.index ∧ n.index < s.size ∧ (s.get n).kind = .text := by
  induction ps generalizing k with
  | nil => exact fun _ hn ↦ absurd hn List.not_mem_nil
  | cons piece ps ih =>
    rw [texts_cons, Tree.asNodesAll, NodeStore.shows_append] at h
    rw [texts_cons, List.map_cons, List.forall_mem_cons]
    obtain ⟨hroot, hrest⟩ := h
    obtain ⟨hlt, hget⟩ := hroot _ List.mem_cons_self
    refine ⟨⟨Nat.le_refl k, hlt, congrArg Node.kind hget⟩, fun n hn ↦ ?_⟩
    obtain ⟨hle, hn⟩ := ih hrest n hn
    exact ⟨Nat.le_of_succ_le hle, hn⟩

/-- Planting a fragment of texts for pieces puts the fragment first, and the texts after it. -/
theorem exists_plant (s : NodeStore) (ps : List (Piece C)) :
    ∃ s₁, s.plant (Tree.fragment () (ps.map toTree)) = (⟨s.size⟩, s₁) ∧ s.Agrees id [] s₁ ∧
      s.size < s₁.size ∧
      s₁.get ⟨s.size⟩ =
        { kind := .fragment, children := (texts (s.size + 1) ps).map Tree.label } ∧
      s₁.Shows id (Tree.asNodesAll (some ⟨s.size⟩) (texts (s.size + 1) ps)) := by
  obtain ⟨hroot, hplants⟩ := NodeStore.plants_plant s (Tree.fragment () (ps.map toTree))
    (solidAll ps)
  have hshows := hplants.shows
  rw [Tree.fragment, Tree.number, Tree.asNodes, NodeStore.shows_cons] at hshows
  obtain ⟨⟨hlt, hget⟩, hbelow⟩ := hshows
  exact ⟨_, Prod.ext hroot rfl, hplants.agrees, hlt, hget, hbelow⟩

end Piece

namespace Runner.Fulfils

variable {r : LiveRunner C H} {limit : Nat} {scope : Scope} {bound : Nat}
  {xs : List (Errand C)} {X Y : List NodeId} {st : LiveState C H}

/-- Nodes that did not exist may be changed at will. -/
theorem of_append {p : Linking C H Unit} (h : r.Fulfils limit scope bound p xs (X ++ Y) st)
    (hY : ∀ n ∈ Y, st.world.nodes.size ≤ n.index) : r.Fulfils limit scope bound p xs X st := by
  obtain ⟨st', bs, hp, hxs, hagrees⟩ := h
  exact ⟨st', bs, hp, hxs, hagrees.of_append hY⟩

/-- An interpolated text gives its place to new texts, and the directives of its expressions are
bound to these. -/
theorem text {ps : List (Piece C)} {n : NodeId} {p : Option NodeId}
    (hn : n.index < st.world.nodes.size) (hparent : (st.world.nodes.get n).parent = p)
    (hps : ∀ a, .slot a ∈ ps → r.Gentle limit scope .text a)
    (hbound : bound ≤ st.world.nodes.size) :
    r.Fulfils limit scope bound ((Program.text ps).link scope (.node n))
      (ps.filterMap fun
        | .literal _ => none
        | .slot a => some ⟨a, .slot n⟩) (p.toList ++ [n]) st := by
  obtain ⟨s₁, hplant, hagrees, hlt, hget, hbelow⟩ := Piece.exists_plant st.world.nodes ps
  have htexts := Piece.root_of_shows hbelow
  refine (of_append (Y := ⟨st.world.nodes.size⟩ ::
    (Piece.texts (st.world.nodes.size + 1) ps).map Tree.label) ?_ ?_)
  · rw [Program.link]
    refine single (bind_live (Yields.editWith _ st) (Tends.nodes st _) ?_ ?_)
    · rw [hplant]
      exact (hagrees.of_id _).mono (List.nil_subset _)
    rw [hplant]
    refine bind_live (Yields.ask _ _) (Tends.refl _) (NodeStore.Agrees.refl _ _ _) ?_
    have hchildren : (s₁.get ⟨st.world.nodes.size⟩).children =
      (Piece.texts (st.world.nodes.size + 1) ps).map Tree.label := congrArg Node.children hget
    rw [State.world_withWorld, hchildren, ← List.append_nil (List.filterMap _ ps)]
    refine bind (holding ?_) (fun st₂ hagrees₂ ↦ ?_) (List.nil_subset _)
    · refine applyPieces hps ?_ fun m hm ↦ ?_
      · rw [List.length_map, Piece.length_texts]
      · obtain ⟨hle, hlt, hkind⟩ := htexts m hm
        exact ⟨hlt, hkind, Nat.le_trans hbound (Nat.le_of_succ_le hle)⟩
    · -- Fragment and node are where they were, so that the texts go to the parent of the node.
      have hfragment := (hagrees₂.get ⟨st.world.nodes.size⟩ hlt List.not_mem_nil).trans
        (congrArg Node.skeleton hget)
      have hn₂ : (st₂.world.nodes.get n).skeleton = (st.world.nodes.get n).skeleton :=
        ((hagrees.of_id Node.skeleton).trans hagrees₂).get n hn List.not_mem_nil
      have hreplace := NodeStore.agrees_replace (congrArg Prod.fst hfragment) n
      have hparent₂ : (st₂.world.nodes.get n).parent = p :=
        (congrArg (fun k ↦ k.2.2) hn₂).trans hparent
      have htexts₂ : (st₂.world.nodes.get ⟨st.world.nodes.size⟩).children =
        (Piece.texts (st.world.nodes.size + 1) ps).map Tree.label :=
          congrArg (fun k ↦ k.2.1) hfragment
      rw [hparent₂, htexts₂, List.append_cons] at hreplace
      exact bind_live (Yields.editWith _ _) (Tends.nodes _ _) (hreplace.of_id _) (done _ _)
  · refine List.forall_mem_cons.mpr ⟨Nat.le_refl _, fun m hm ↦ ?_⟩
    exact Nat.le_of_succ_le (htexts m hm).1

/-- A text area gets its text, and then its directives. -/
theorem textarea {as : List (Application C)} {t : Tree NodeId} {tag : String} {p : Option NodeId}
    (hkind : t.kind = .element tag) (hst : st.world.nodes.Shows Node.skeleton (t.asNodes p))
    (ht : t.labels.Nodup) (has : ∀ a ∈ as, r.Gentle limit scope (.element tag) a) :
    r.Fulfils limit scope bound ((Program.textarea as).link scope (.node t.label))
      (as.map (Errand.mk · (.element t.label tag))) t.labels st := by
  have hparental := NodeStore.Parental.of_shows hst ht
  have hnode : (st.world.nodes.get t.label).kind = .element tag ∧
      (st.world.nodes.get t.label).children = t.children.map Tree.label := by
    obtain ⟨n, kind, attrs, data, children⟩ := t
    have hn := (hst _ List.mem_cons_self).2
    exact ⟨(congrArg Prod.fst hn).trans hkind, congrArg (fun k ↦ k.2.1) hn⟩
  have hcontainer : (st.world.nodes.get t.label).kind.isContainer = true := by
    rw [hnode.1]
    rfl
  have hX : t.label :: (st.world.nodes.get t.label).children ⊆ t.labels := by
    rw [hnode.2]
    obtain ⟨n, kind, attrs, data, children⟩ := t
    exact List.cons_subset_cons n (Tree.map_label_sublist_labelsAll children).subset
  rw [Program.link]
  refine single (bind_live (Yields.ask _ st) (Tends.refl st) (NodeStore.Agrees.refl _ _ _) ?_)
  refine bind_live (Yields.interpolate scope.vm _ st) (Tends.trackAll st _)
    (NodeStore.Agrees.refl _ _ _) ?_
  generalize String.ofList (Interpolation.textWith _ _) = text
  refine bind_live (Yields.edit _ _) (Tends.nodes _ _) ?_ (mono (applyAll has ?_)
    (List.nil_subset _))
  · exact ((hparental.agrees_setTextContent hcontainer text).mono hX).of_id _
  · refine ⟨?_, ?_, rfl⟩
    · change t.label.index < (st.world.nodes.setTextContent t.label text).size
      rw [NodeStore.size_setTextContent_of_container hcontainer]
      exact Nat.lt_succ_of_lt hparental.lt
    · change ((st.world.nodes.setTextContent t.label text).get t.label).kind = _
      rw [hparental.get_setTextContent hcontainer, if_pos rfl]
      exact hnode.1

end Runner.Fulfils

namespace Compiler

variable (c : Compiler C) {r : LiveRunner C H} {limit : Nat} {scope : Scope} {bound : Nat}

/-- The own program of the root of a tree performs what it contributes to the plan. -/
theorem fulfils_own {t : Tree NodeId} {q : Program C} (hq : (c.compileNode t).1 = some q)
    {p : Option NodeId} {st : LiveState C H}
    (hst : st.world.nodes.Shows Node.skeleton (t.asNodes p)) (ht : t.labels.Nodup)
    (hgentle : ∀ x ∈ q.errands t, r.Gentle limit scope x.site.kind x.application)
    (hbound : bound ≤ st.world.nodes.size) :
    ∃ X, r.Fulfils limit scope bound (q.link scope (.node t.label)) (q.errands t) X st ∧
      X ⊆ p.toList ++ t.labels ∧ (q.isTerminal = false → t.kind ≠ .text → X = []) := by
  obtain ⟨n, kind, attrs, data, children⟩ := t
  obtain ⟨hlt, hn⟩ := hst _ List.mem_cons_self
  cases kind with
  | element tag =>
    have hadmits : (Site.element n tag).Admits bound st.world.nodes n :=
      ⟨hlt, congrArg Prod.fst hn, rfl⟩
    cases howner : c.owner? attrs with
    | some a =>
      rw [compileNode_fst_of_owner?_some c howner] at hq
      obtain rfl := Option.some.inj hq
      refine ⟨[], ?_, List.nil_subset _, fun _ _ ↦ rfl⟩
      rw [Program.link]
      exact Runner.Fulfils.single (Runner.Fulfils.apply (hgentle _ List.mem_cons_self) hadmits)
    | none =>
      rw [compileNode_fst_of_owner?_none c howner] at hq
      split at hq
      · obtain rfl := Option.some.inj hq
        have has := fun a ha ↦ hgentle ⟨a, .element n tag⟩ (List.mem_map_of_mem ha)
        exact ⟨_, Runner.Fulfils.textarea rfl hst ht has, List.subset_append_right ..,
          fun h ↦ Bool.noConfusion h⟩
      · cases hsorted : byPriority (c.applications attrs) with
        | nil =>
          rw [hsorted] at hq
          exact absurd hq.symm (Option.some_ne_none q)
        | cons a as =>
          rw [hsorted] at hq
          obtain rfl := Option.some.inj hq
          have has := fun a' ha' ↦ hgentle ⟨a', .element n tag⟩ (List.mem_map_of_mem ha')
          refine ⟨[], ?_, List.nil_subset _, fun _ _ ↦ rfl⟩
          rw [Program.link]
          exact Runner.Fulfils.single (Runner.Fulfils.applyAll has hadmits)
  | text =>
    have hq : (c.compileText n data).1 = some q := hq
    rw [compileText_fst] at hq
    split at hq
    · obtain rfl := Option.some.inj hq
      refine ⟨p.toList ++ [n], Runner.Fulfils.text hlt (congrArg (fun k ↦ k.2.2) hn) ?_ hbound,
        ?_, fun _ h ↦ absurd rfl h⟩
      · intro a ha
        exact hgentle ⟨a, .slot n⟩ (List.mem_filterMap.mpr ⟨_, ha, rfl⟩)
      · refine List.append_subset.mpr ⟨List.subset_append_left .., ?_⟩
        exact List.cons_subset.mpr ⟨List.mem_append_right _ List.mem_cons_self, List.nil_subset _⟩
    · exact absurd hq.symm (Option.some_ne_none q)
  | comment => exact absurd hq.symm (Option.some_ne_none q)
  | fragment => exact absurd hq.symm (Option.some_ne_none q)

end Compiler

end LiveMarkup
