import LiveMarkup.Proofs.Binding.Fitting
import LiveMarkup.Proofs.Binding.Usage
import LiveMarkup.Proofs.Live.Performing
import LiveMarkup.Proofs.Live.Upkeep
import LiveMarkup.Proofs.Model.Ledger

/-!
# Programs that settle

`Runner.Settles` says of code that it ends, with success or a failure other than a mismatch, and how
it leaves the nodes if it succeeds. The programs of single nodes settle: the directives of this
library do not look at the shape of trees. That for attributes may refuse, for reasons of its own,
and that for texts, asked for by an element, puts a new text in the place of the children
(`NodeStore.Refilled`). The ledger gains nothing but effects meanwhile.

What a program does to the nodes is followed as a property that every directive spares
(`Application.Spares`), so that a row of directives spares it too.
-/

namespace LiveMarkup

variable {C H α : Type}

/-! ## Ledgers that gain effects -/

/-- Whether a ledger has gained entries for effects, and lost none. -/
def Ledger.GainsEffects (l l' : Ledger (Binding C)) : Prop :=
  ∃ new, l.Gains l' new [] ∧ ∀ x ∈ new, ∃ e, x.2 = .effect e

namespace Ledger.GainsEffects

variable {l l' l'' : Ledger (Binding C)}

theorem refl (l : Ledger (Binding C)) : l.GainsEffects l :=
  ⟨[], .refl l, fun _ hx ↦ absurd hx List.not_mem_nil⟩

theorem of_eq (h : l' = l) : l.GainsEffects l' := h ▸ refl l

theorem trans (h : l.GainsEffects l') (h' : l'.GainsEffects l'') : l.GainsEffects l'' := by
  obtain ⟨new, hgains, heffects⟩ := h
  obtain ⟨new', hgains', heffects'⟩ := h'
  exact ⟨new ++ new', hgains.trans hgains', List.forall_mem_append.mpr ⟨heffects, heffects'⟩⟩

/-- An effect is entered into the ledger of a view-model. -/
theorem register (st : LiveState C H) (vm : ViewModelId) (e : EffectId) :
    (st.world.ledgerOf vm).GainsEffects ((st.register vm (.effect e)).world.ledgerOf vm) := by
  have hledger : (st.register vm (.effect e)).world.ledgerOf vm =
      if (st.world.viewModel vm).ledger.index < st.world.ledgers.size then
        ((st.world.ledgerOf vm).register (.effect e)).2
      else st.world.ledgerOf vm := by
    change (st.world.ledgers.modify _ _).getD (st.world.viewModel vm).ledger.index default = _
    rw [Array.getD_eq_getD_getElem?, Array.getElem?_modify, if_pos rfl]
    split
    · rename_i hlt
      simp [World.ledgerOf, World.ledger, hlt]
    · rename_i hlt
      simp [World.ledgerOf, World.ledger, hlt]
  rw [hledger]
  split
  · refine ⟨_, .register _ _, fun x hx ↦ ?_⟩
    obtain rfl := List.mem_singleton.mp hx
    exact ⟨e, rfl⟩
  · exact refl _

end Ledger.GainsEffects

namespace Runner

/-! ## Code that settles -/

/-- Whether code ends otherwise than by a mismatch, has entered nothing but effects into the ledger
of a view-model, and, if it has not failed, leaves the nodes as `Q` says. -/
def Settles (r : LiveRunner C H) (limit : Nat) (vm : ViewModelId) (p : Linking C H Unit)
    (Q : NodeStore → Prop) (st : LiveState C H) : Prop :=
  ∃ result st', r.Yields limit p.run st result st' ∧
    (∀ expected found, result ≠ .error (.structuralMismatch expected found)) ∧
    (result = .ok () → Q st'.world.nodes) ∧
    (st.world.ledgerOf vm).GainsEffects (st'.world.ledgerOf vm)

namespace Settles

variable {r : LiveRunner C H} {limit : Nat} {vm : ViewModelId} {p q : Linking C H Unit}
  {P Q : NodeStore → Prop} {st st₁ : LiveState C H}

theorem done (h : Q st.world.nodes) : r.Settles limit vm (pure ()) Q st :=
  ⟨.ok (), st, Yields.done _ st, nofun, fun _ ↦ h, .refl _⟩

theorem fail {e : LinkError} (h : ∀ expected found, e ≠ .structuralMismatch expected found) :
    r.Settles limit vm (throw e) Q st :=
  ⟨.error e, st, Yields.done _ st, fun m k he ↦ h m k (Except.error.inj he), nofun,
    .refl _⟩

theorem mono (h : r.Settles limit vm p P st) (hPQ : ∀ s, P s → Q s) :
    r.Settles limit vm p Q st := by
  obtain ⟨result, st', hp, hresult, hnodes, hledger⟩ := h
  exact ⟨result, st', hp, hresult, fun hok ↦ hPQ _ (hnodes hok), hledger⟩

theorem bind (h : r.Settles limit vm p P st)
    (h' : ∀ st₁, P st₁.world.nodes → r.Settles limit vm q Q st₁) :
    r.Settles limit vm (p >>= fun _ ↦ q) Q st := by
  obtain ⟨result, st₁, hp, hresult, hnodes, hledger⟩ := h
  cases result with
  | error e =>
    refine ⟨.error e, st₁, ?_, hresult, nofun, hledger⟩
    rw [ExceptT.run_bind]
    exact Yields.bind hp (Yields.done _ st₁)
  | ok _ =>
    obtain ⟨result', st', hq, hrest, hnodes', hledger'⟩ := h' st₁ (hnodes rfl)
    refine ⟨result', st', ?_, hrest, hnodes', hledger.trans hledger'⟩
    rw [ExceptT.run_bind]
    exact Yields.bind hp hq

/-- A part of the code that cannot fail. -/
theorem bind_live {p : Live C H α} {f : α → Linking C H Unit} {a : α}
    (hp : r.Yields limit p st a st₁)
    (hledger : (st.world.ledgerOf vm).GainsEffects (st₁.world.ledgerOf vm))
    (h : r.Settles limit vm (f a) Q st₁) : r.Settles limit vm (Linking.live p >>= f) Q st := by
  obtain ⟨result, st', hf, hresult, hnodes, hledger'⟩ := h
  refine ⟨result, st', ?_, hresult, hnodes, hledger.trans hledger'⟩
  rw [ExceptT.run_bind]
  exact Yields.bind (Links.live hp) hf

theorem live {p : Live C H Unit} (hp : r.Yields limit p st () st₁)
    (hledger : (st.world.ledgerOf vm).GainsEffects (st₁.world.ledgerOf vm))
    (h : Q st₁.world.nodes) : r.Settles limit vm (Linking.live p) Q st :=
  ⟨.ok (), st₁, Links.live hp, nofun, fun _ ↦ h, hledger⟩

theorem holding {hs : List (Held C)}
    (h : r.Settles limit vm p Q (st.withHoldings (hs :: st.world.holdings))) :
    r.Settles limit vm (Linking.holding hs p) Q st := by
  obtain ⟨result, st', hp, hresult, hnodes, hledger⟩ := h
  exact ⟨result, _, Yields.holding hp, hresult, hnodes, hledger⟩

/-- Code is entitled to the node its target names. -/
theorem single {f : NodeId → Linking C H Unit} {n : NodeId} (h : r.Settles limit vm (f n) Q st) :
    r.Settles limit vm (Linking.ofExcept (Target.node n).single >>= f) Q st := h

end Settles

end Runner

/-! ## Directives -/

/-- Whether a property of the nodes survives a directive of this library on a given node: it has to
do with structure only, and if the directive is that for texts it survives a new text of the
node. -/
structure Application.Spares (a : Application C) (n : NodeId) (Q : NodeStore → Prop) : Prop where
  isBuiltin : a.directive.behaviour.IsBuiltin
  shape : ∀ s s', Q s → s.Agrees Node.skeleton [] s' → Q s'
  text : a.directive.behaviour = .text → ∀ s, Q s → ∀ text, Q (s.setTextContent n text)

namespace Runner.Settles

variable {client : Client C H} {fuel limit : Nat} {scope : Scope} {n : NodeId}
  {a : Application C} {Q : NodeStore → Prop} {st : LiveState C H}

/-- A directive makes the effect that keeps a node up to date, and the effect is entered into the
ledger. If the view-model is gone the effect does nothing. -/
theorem enter_of_keeps {u : Upkeep} (hu : a.Keeps scope.vm n u) (h : Q st.world.nodes)
    (hput : ∀ text, Q (u.put text st.world.nodes)) :
    (client.meaning.runner (fuel + 1)).Settles limit scope.vm (a.enter scope n) Q st := by
  have hworld := State.world_launch st u
  refine bind_live (client.yields_bind fuel limit hu st) (.of_eq ?_)
    (live (Yields.change _ _) (.register _ _ _) ?_)
  · rw [hworld]
    split <;> rfl
  · change Q (st.launch u).world.nodes
    rw [hworld]
    split
    · exact h
    · exact hput _

theorem enter (ha : a.Spares n Q) (h : Q st.world.nodes) :
    (client.meaning.runner (fuel + 1)).Settles limit scope.vm (a.enter scope n) Q st := by
  have hattribute (name text : String) : Q (st.world.nodes.setAttribute n name text) :=
    ha.shape _ _ h (st.world.nodes.agrees_modify_of n fun _ ↦ rfl)
  cases hbehaviour : a.directive.behaviour with
  | text =>
    have hu : a.Keeps scope.vm n (.text scope.vm n a.descriptor.expression) := by
      rw [Application.Keeps, hbehaviour]
    exact enter_of_keeps hu h (ha.text hbehaviour _ h)
  | attr =>
    cases hroutine : a.descriptor.attributeRoutine (C := C) scope.vm n with
    | ok routine =>
      obtain ⟨name, text, hname⟩ := Descriptor.attributeRoutine_eq_ok hroutine
      have hu (u : Upkeep) (hu : routine = u.routine) : a.Keeps scope.vm n u := by
        rw [Application.Keeps, hbehaviour]
        exact hu ▸ hroutine
      rcases hname with rfl | rfl
      · exact enter_of_keeps (hu (.interpolatedAttr scope.vm n name text) rfl) h (hattribute name)
      · exact enter_of_keeps (hu (.attr scope.vm n name text) rfl) h (hattribute name)
    | error reason =>
      -- The directive refuses, which is a failure of its own kind.
      have hbind : (client.meaning.runner (fuel + 1)).Yields limit (a.bind scope n) st
          (.error reason) st := by
        rw [Application.bind, hbehaviour]
        dsimp only
        rw [hroutine]
        exact Yields.done _ st
      exact bind_live hbind (.refl _) (fail fun _ _ h ↦ LinkError.noConfusion h)
  | client code =>
    have hbuiltin := ha.isBuiltin
    rw [hbehaviour] at hbuiltin
    exact hbuiltin.elim

theorem apply (ha : a.Spares n Q) (h : Q st.world.nodes) :
    (client.meaning.runner (fuel + 1)).Settles limit scope.vm (a.apply scope n) Q st := by
  cases hsource : a.descriptor.sourceAttr with
  | none =>
    rw [Application.apply_of_none scope n hsource]
    exact enter ha h
  | some attr =>
    cases hretain : a.directive.retain with
    | true =>
      rw [Application.apply_of_retain scope n hretain]
      exact enter ha h
    | false =>
      rw [Application.apply_of_some scope n hsource hretain]
      refine bind_live (Yields.edit _ st) (.of_eq rfl) (enter ha ?_)
      exact ha.shape _ _ h (st.world.nodes.agrees_modify_of n fun _ ↦ rfl)

theorem applyAll {as : List (Application C)} (has : ∀ a ∈ as, a.Spares n Q)
    (h : Q st.world.nodes) :
    (client.meaning.runner (fuel + 1)).Settles limit scope.vm (Application.applyAll scope n as) Q
      st := by
  induction as generalizing st with
  | nil => exact done h
  | cons a as ih =>
    obtain ⟨ha, has⟩ := List.forall_mem_cons.mp has
    exact (apply ha h).bind fun _ h₁ ↦ ih has h₁

/-- The directives of slots are applied, each to its text. -/
theorem applyPieces {ps : List (Piece C)} {ns : List NodeId}
    (hps : ∀ a, .slot a ∈ ps → ∀ n ∈ ns, a.Spares n Q) (h : Q st.world.nodes) :
    (client.meaning.runner (fuel + 1)).Settles limit scope.vm (Piece.applyAll scope ps ns) Q
      st := by
  induction ps, ns using Piece.applyAll.induct generalizing st with
  | case1 a ps n ns ih =>
    rw [Piece.applyAll]
    refine (apply (hps a List.mem_cons_self n List.mem_cons_self) h).bind fun _ h₁ ↦ ih ?_ h₁
    exact fun b hb m hm ↦ hps b (List.mem_cons_of_mem _ hb) m (List.mem_cons_of_mem _ hm)
  | case2 text ps n ns ih =>
    rw [Piece.applyAll]
    refine ih ?_ h
    exact fun b hb m hm ↦ hps b (List.mem_cons_of_mem _ hb) m (List.mem_cons_of_mem _ hm)
  | case3 ps ns hslot hliteral =>
    rw [Piece.applyAll]
    · exact done h
    · exact hslot
    · exact hliteral

end Runner.Settles

/-! ## Nodes that get a text -/

namespace NodeStore

/-- Whether a node's children are left alone, or a single new text has taken their place. -/
structure Refilled (s : NodeStore) (n : NodeId) (s' : NodeStore) : Prop where
  agrees : s.Agrees Node.skeleton (n :: (s.get n).children) s'
  parental : s'.Parental n
  content : s.Agrees Node.skeleton [] s' ∨
    ∃ m, s.size ≤ m.index ∧ (s'.get n).children = [m] ∧ (s'.get m).children = []

namespace Refilled

variable {s s' s'' : NodeStore} {n : NodeId}

theorem refl (h : s.Parental n) : s.Refilled n s :=
  ⟨.refl _ _ _, h, .inl (.refl _ _ _)⟩

theorem of_agrees (h : s.Refilled n s') (h' : s'.Agrees Node.skeleton [] s'') :
    s.Refilled n s'' where
  agrees := h.agrees.trans (h'.mono (List.nil_subset _))
  parental := h.parental.of_surrounds h'.surrounds List.not_mem_nil fun _ _ ↦ List.not_mem_nil
  content := by
    have hchildren {m : NodeId} (hm : m.index < s'.size) :
        (s''.get m).children = (s'.get m).children :=
      congrArg (fun k ↦ k.2.1) (h'.get m hm List.not_mem_nil)
    rcases h.content with hsame | ⟨m, hm, hn, hempty⟩
    · exact .inl (hsame.trans h')
    · have hmlt := h.parental.children_lt m (hn ▸ List.mem_singleton_self m)
      exact .inr ⟨m, hm, (hchildren h.parental.lt).trans hn, (hchildren hmlt).trans hempty⟩

theorem setTextContent (hn : n.index < s.size) (h : s.Refilled n s') (text : String) :
    s.Refilled n (s'.setTextContent n text) := by
  cases hk : (s'.get n).kind.isContainer with
  | false =>
    rw [setTextContent_of_text hk]
    exact h.of_agrees (s'.agrees_modify_of n fun _ ↦ rfl)
  | true =>
    have hset := (h.parental.agrees_setTextContent hk text).of_id Node.skeleton
    have hget := h.parental.get_setTextContent hk text
    refine ⟨?_, h.parental.setTextContent hk h.parental text,
      .inr ⟨⟨s'.size⟩, h.agrees.size, ?_, ?_⟩⟩
    · -- What goes are the children that were there at first, or a text that is new.
      rcases h.content with hsame | ⟨m, hm, hchildren, -⟩
      · have hchildren : (s'.get n).children = (s.get n).children :=
          congrArg (fun k ↦ k.2.1) (hsame.get n hn List.not_mem_nil)
        exact h.agrees.trans (hchildren ▸ hset)
      · rw [hchildren] at hset
        have hall := (h.agrees.mono (List.subset_append_left _ [m])).trans (hset.mono ?_)
        · exact hall.of_append fun k hk ↦ List.mem_singleton.mp hk ▸ hm
        · refine List.cons_subset.mpr ⟨List.mem_append_left _ List.mem_cons_self, ?_⟩
          exact List.subset_append_right _ _
    · rw [hget, if_pos rfl]
    · rw [hget, if_neg, if_pos rfl]
      exact fun he ↦ Nat.ne_of_lt h.parental.lt (congrArg NodeId.index he.symm)

/-- A single child is still single, if it is not the same, and what is changed at it and its
children is changed below the node. -/
theorem exists_child {u : Tree NodeId} (h : s.Refilled n s') (hn : n.index < s.size)
    (hchildren : (s.get n).children = [u.label]) (hu : s.Shows Node.skeleton (u.asNodes (some n)))
    (hnodup : u.labels.Nodup) :
    ∃ m, (s'.get n).children = [m] ∧ s'.Parental m ∧
      ∀ s'', s'.Agrees Node.skeleton (n :: m :: (s'.get m).children) s'' →
        s.Agrees Node.skeleton (n :: u.labels) s'' := by
  rcases h.content with hsame | ⟨m, hm, hchild, hempty⟩
  · have hparental := Parental.of_shows hu hnodup
    have hget (k : NodeId) (hk : k.index < s.size) : (s'.get k).children = (s.get k).children :=
      congrArg (fun k ↦ k.2.1) (hsame.get k hk List.not_mem_nil)
    refine ⟨u.label, (hget n hn).trans hchildren,
      hparental.of_surrounds hsame.surrounds List.not_mem_nil fun _ _ ↦ List.not_mem_nil,
      fun s'' h' ↦ (hsame.mono (List.nil_subset _)).trans (h'.mono (List.cons_subset_cons n ?_))⟩
    rw [hget _ hparental.lt]
    obtain ⟨k, kind, attrs, data, children⟩ := u
    have hk := (hu _ List.mem_cons_self).2
    have hbelow : (s.get k).children = children.map Tree.label := congrArg (fun k ↦ k.2.1) hk
    rw [Tree.label, hbelow]
    exact List.cons_subset_cons k (Tree.map_label_sublist_labelsAll children).subset
  · have hmlt := h.parental.children_lt m (hchild ▸ List.mem_singleton_self m)
    refine ⟨m, hchild, ⟨hmlt, ?_, ?_, ?_, ?_⟩, fun s'' h' ↦ ?_⟩
    · exact hempty ▸ fun _ hc ↦ absurd hc List.not_mem_nil
    · exact hempty ▸ fun _ hc ↦ absurd hc List.not_mem_nil
    · exact hempty ▸ List.not_mem_nil
    · exact hempty ▸ List.nodup_nil
    · rw [hempty] at h'
      have hX : n :: (s.get n).children ⊆ n :: u.labels := by
        rw [hchildren]
        refine List.cons_subset_cons n ?_
        exact List.cons_subset.mpr ⟨Tree.label_mem_labels u, List.nil_subset _⟩
      have hbefore := h.agrees.mono (List.Subset.trans hX (List.subset_append_left _ [m]))
      have hall := hbefore.trans (h'.mono ?_)
      · exact hall.of_append fun k hk ↦ List.mem_singleton.mp hk ▸ hm
      · refine List.cons_subset.mpr ⟨List.mem_append_left _ List.mem_cons_self, ?_⟩
        exact List.subset_append_right _ _

end Refilled

end NodeStore

/-! ## Programs of single nodes -/

namespace Application.Spares

variable {a : Application C} {s : NodeStore} {n : NodeId}

theorem refilled (hn : n.index < s.size)
    (ha : a.directive.behaviour.IsBuiltin) : a.Spares n (s.Refilled n) where
  isBuiltin := ha
  shape _ _ h h' := h.of_agrees h'
  text _ _ h text := h.setTextContent hn text

/-- A directive leaves the structure alone if it is that for attributes, or the node has no children
to lose. -/
theorem agrees (hn : n.index < s.size)
    (ha : a.directive.behaviour.IsBuiltin)
    (hkind : a.directive.behaviour = .text → (s.get n).kind.isContainer = false) :
    a.Spares n (s.Agrees Node.skeleton []) where
  isBuiltin := ha
  shape _ _ h h' := h.trans h'
  text ha s' h text := by
    have hkind' : (s'.get n).kind = (s.get n).kind :=
      congrArg Prod.fst (h.get n hn List.not_mem_nil)
    rw [NodeStore.setTextContent_of_text (hkind' ▸ hkind ha)]
    exact h.trans (s'.agrees_modify_of n fun _ ↦ rfl)

end Application.Spares

namespace Runner.Settles

variable {client : Client C H} {fuel limit : Nat} {scope : Scope} {n : NodeId}
  {a : Application C} {Q : NodeStore → Prop} {st : LiveState C H}

/-- A text area gets its text, and then its directives. -/
theorem textarea {as : List (Application C)} (has : ∀ a ∈ as, a.directive.behaviour.IsBuiltin)
    (hn : st.world.nodes.Parental n) :
    (client.meaning.runner (fuel + 1)).Settles limit scope.vm
      ((Program.textarea as).link scope (.node n)) (st.world.nodes.Refilled n) st := by
  rw [Program.link]
  refine single (bind_live (Yields.ask _ st) (.refl _) ?_)
  refine bind_live (Yields.interpolate scope.vm _ st) (.of_eq rfl) ?_
  refine bind_live (Yields.edit _ _) (.of_eq rfl) ?_
  exact applyAll (fun a ha ↦ .refilled hn.lt (has a ha))
    ((NodeStore.Refilled.refl hn).setTextContent hn.lt _)

/-- An interpolated text gives its place to new texts, and keeps what is below it. -/
theorem text {ps : List (Piece C)} (hps : ∀ a, .slot a ∈ ps → a.directive.behaviour.IsBuiltin)
    (hn : n.index < st.world.nodes.size) (hparent : (st.world.nodes.get n).parent ≠ some n) :
    (client.meaning.runner (fuel + 1)).Settles limit scope.vm
      ((Program.text ps).link scope (.node n))
      (fun s ↦ st.world.nodes.Agrees Node.skeleton ((st.world.nodes.get n).parent.toList ++ [n]) s ∧
        (s.get n).children = (st.world.nodes.get n).children) st := by
  obtain ⟨s₁, hplant, hagrees, hlt, hget, hbelow⟩ := Piece.exists_plant st.world.nodes ps
  have htexts := Piece.root_of_shows hbelow
  have hne : n ≠ ⟨st.world.nodes.size⟩ := fun he ↦ Nat.ne_of_lt hn (congrArg NodeId.index he)
  rw [Program.link]
  refine single (bind_live (Yields.editWith _ st) (.of_eq rfl) ?_)
  rw [hplant]
  refine bind_live (Yields.ask _ _) (.refl _) ?_
  have hchildren : (s₁.get ⟨st.world.nodes.size⟩).children =
    (Piece.texts (st.world.nodes.size + 1) ps).map Tree.label := congrArg Node.children hget
  rw [State.world_withWorld, hchildren]
  refine bind (holding (applyPieces (Q := s₁.Agrees Node.skeleton []) ?_ ?_)) fun st₂ hagrees₂ ↦ ?_
  · intro a ha m hm
    obtain ⟨-, hlt, hkind⟩ := htexts m hm
    exact .agrees hlt (hps a ha) fun _ ↦ hkind ▸ rfl
  · exact .refl _ _ _
  · -- Fragment and node are where they were, so that only the parent of the node is changed.
    have hfragment := (hagrees₂.get ⟨st.world.nodes.size⟩ hlt List.not_mem_nil).trans
      (congrArg Node.skeleton hget)
    have hn₂ : (st₂.world.nodes.get n).skeleton = (st.world.nodes.get n).skeleton :=
      ((hagrees.of_id Node.skeleton).trans hagrees₂).get n hn List.not_mem_nil
    have hkind₂ : (st₂.world.nodes.get ⟨st.world.nodes.size⟩).kind = .fragment :=
      congrArg Prod.fst hfragment
    have hparent₂ : (st₂.world.nodes.get n).parent = (st.world.nodes.get n).parent :=
      congrArg (fun k ↦ k.2.2) hn₂
    have htexts₂ : (st₂.world.nodes.get ⟨st.world.nodes.size⟩).children =
      (Piece.texts (st.world.nodes.size + 1) ps).map Tree.label :=
        congrArg (fun k ↦ k.2.1) hfragment
    refine bind_live (Yields.editWith _ _) (.of_eq rfl) (done ⟨?_, ?_⟩)
    · have hreplace := (NodeStore.agrees_replace hkind₂ n).of_id Node.skeleton
      rw [hparent₂, htexts₂, List.append_cons] at hreplace
      have hall := (((hagrees.of_id Node.skeleton).trans hagrees₂).mono (List.nil_subset _)).trans
        hreplace
      refine hall.of_append (List.forall_mem_cons.mpr ⟨Nat.le_refl _, fun m hm ↦ ?_⟩)
      exact Nat.le_of_succ_le (htexts m hm).1
    · refine (NodeStore.children_replace hkind₂ hne (hparent₂ ▸ hparent)).trans ?_
      exact congrArg (fun k ↦ k.2.1) hn₂

/-- A program that is about its node alone changes the node, its children and its parent at
most. -/
theorem ofLocal {q : Program C} (hlocal : q.isLocal = true)
    (hq : q.Uses (fun a ↦ a.directive.behaviour.IsBuiltin) fun _ ↦ False)
    (hn : st.world.nodes.Parental n) (hparent : (st.world.nodes.get n).parent ≠ some n) :
    (client.meaning.runner (fuel + 1)).Settles limit scope.vm (q.link scope (.node n))
      (st.world.nodes.Agrees Node.skeleton
        ((st.world.nodes.get n).parent.toList ++ n :: (st.world.nodes.get n).children)) st := by
  have hrefilled (s : NodeStore) (hs : st.world.nodes.Refilled n s) :
      st.world.nodes.Agrees Node.skeleton
        ((st.world.nodes.get n).parent.toList ++ n :: (st.world.nodes.get n).children) s :=
    hs.agrees.mono (List.subset_append_right _ _)
  have hrefl := NodeStore.Refilled.refl hn
  cases q with
  | terminal a =>
    rw [Program.link]
    exact (single (apply (.refilled hn.lt hq) hrefl)).mono hrefilled
  | directives a as =>
    rw [Program.link]
    have has : ∀ b ∈ a :: as, b.directive.behaviour.IsBuiltin := List.forall_mem_cons.mpr hq
    exact (single (applyAll (fun b hb ↦ .refilled hn.lt (has b hb)) hrefl)).mono hrefilled
  | text ps =>
    refine (text hq hn.lt hparent).mono fun s hs ↦ hs.1.mono ?_
    refine List.append_subset.mpr ⟨List.subset_append_left _ _, ?_⟩
    exact List.cons_subset.mpr
      ⟨List.mem_append_right _ List.mem_cons_self, List.nil_subset _⟩
  | textarea as => exact (textarea hq hn).mono hrefilled
  | both own below => contradiction
  | siblings programs => contradiction
  | client owns rank code => contradiction

end Runner.Settles

end LiveMarkup
