import Mathlib.Data.List.Nodup
import LiveMarkup.Proofs.Binding.Agenda
import LiveMarkup.Proofs.Live.Yields
import LiveMarkup.Proofs.Node.Agreement

/-!
# Carrying out an agenda

Carrying out the program of a tree carries out its agenda: each program on its own node, in order,
and nothing between but that running code takes hold of nodes and lets go of them
(`Compiler.completes_compile`). For this to succeed the programs of the agenda have to be tame: each
has to succeed where its tree stands as compiled, and to leave the structure of all other trees
alone.

What matters of the live tree is its skeleton. A row of siblings is read before any of them is
worked on, so that a text may well give its place to others; what is left of the row stands as it
stood, because the trees of siblings have no node in common.
-/

namespace LiveMarkup

variable {C H : Type}

/-- The state in which running code holds something else. -/
def State.withHoldings (st : LiveState C H) (hs : List (List (Held C))) : LiveState C H :=
  st.withWorld { st.world with holdings := hs }

@[simp] theorem State.nodes_withHoldings (st : LiveState C H) (hs : List (List (Held C))) :
    (st.withHoldings hs).world.nodes = st.world.nodes := rfl

@[simp] theorem State.withHoldings_withHoldings (st : LiveState C H)
    (hs hs' : List (List (Held C))) : (st.withHoldings hs).withHoldings hs' = st.withHoldings hs' :=
  rfl

/-- Carries out a program, if there is one, on a node. -/
def Program.linkAny (scope : Scope) (n : NodeId) : Option (Program C) → Linking C H Unit
  | some q => q.link scope (.node n)
  | none => pure ()

namespace Runner

/-- Whether an agenda is carried out between two states, each of its programs on the root of its
tree, while the tree stands. -/
inductive Carries (r : LiveRunner C H) (limit : Nat) (scope : Scope) :
    List (Tree NodeId × Program C) → LiveState C H → LiveState C H → Prop
  | nil (st : LiveState C H) (hs : List (List (Held C))) :
    Carries r limit scope [] st (st.withHoldings hs)
  | cons {t : Tree NodeId} {q : Program C} {xs : List (Tree NodeId × Program C)}
    {st st₁ st₂ : LiveState C H} {p : Option NodeId} (hs : List (List (Held C))) :
    st.world.nodes.Shows Node.skeleton (t.asNodes p) → t.labels.Nodup →
      r.Links limit (q.link scope (.node t.label)) (st.withHoldings hs) () st₁ →
        Carries r limit scope xs st₁ st₂ → Carries r limit scope ((t, q) :: xs) st st₂

namespace Carries

variable {r : LiveRunner C H} {limit : Nat} {scope : Scope}
  {xs ys : List (Tree NodeId × Program C)} {st st₁ st₂ : LiveState C H}

theorem refl (st : LiveState C H) : r.Carries limit scope [] st st := .nil st st.world.holdings

theorem withHoldings (h : r.Carries limit scope xs st st₁) (hs : List (List (Held C))) :
    r.Carries limit scope xs st (st₁.withHoldings hs) := by
  induction h with
  | nil st hs' => exact .nil st hs
  | cons hs' hst ht hlink _ ih => exact .cons hs' hst ht hlink ih

theorem of_withHoldings {hs : List (List (Held C))}
    (h : r.Carries limit scope xs (st.withHoldings hs) st₁) : r.Carries limit scope xs st st₁ := by
  cases h with
  | nil _ hs' => exact .nil st hs'
  | cons hs' hst ht hlink hrest => exact .cons hs' hst ht hlink hrest

theorem append (h : r.Carries limit scope xs st st₁) (h' : r.Carries limit scope ys st₁ st₂) :
    r.Carries limit scope (xs ++ ys) st st₂ := by
  induction h with
  | nil st hs => exact h'.of_withHoldings
  | cons hs hst ht hlink _ ih => exact .cons hs hst ht hlink (ih h')

theorem single {t : Tree NodeId} {q : Program C} {p : Option NodeId}
    (hst : st.world.nodes.Shows Node.skeleton (t.asNodes p)) (ht : t.labels.Nodup)
    (h : r.Links limit (q.link scope (.node t.label)) st () st₁) :
    r.Carries limit scope [(t, q)] st st₁ := .cons st.world.holdings hst ht h (refl st₁)

end Carries

/-- Whether code ends without failing, has then carried out an agenda, and has left the structure
outside of `X` alone. -/
def Completes (r : LiveRunner C H) (limit : Nat) (scope : Scope) (p : Linking C H Unit)
    (xs : List (Tree NodeId × Program C)) (X : List NodeId) (st : LiveState C H) : Prop :=
  ∃ st', r.Links limit p st () st' ∧ r.Carries limit scope xs st st' ∧
    st.world.nodes.Agrees Node.skeleton X st'.world.nodes

namespace Completes

variable {r : LiveRunner C H} {limit : Nat} {scope : Scope} {p q : Linking C H Unit}
  {xs ys : List (Tree NodeId × Program C)} {X Y : List NodeId} {st : LiveState C H}

theorem done (X : List NodeId) (st : LiveState C H) :
    r.Completes limit scope (pure ()) [] X st :=
  ⟨st, Links.done () st, Carries.refl st, NodeStore.Agrees.refl _ X _⟩

theorem mono (h : r.Completes limit scope p xs X st) (hXY : X ⊆ Y) :
    r.Completes limit scope p xs Y st := by
  obtain ⟨st', hlink, hcarries, hagrees⟩ := h
  exact ⟨st', hlink, hcarries, hagrees.mono hXY⟩

theorem bind (h : r.Completes limit scope p xs X st)
    (h' : ∀ st₁, st.world.nodes.Agrees Node.skeleton X st₁.world.nodes →
      r.Completes limit scope q ys Y st₁) (hXY : X ⊆ Y) :
    r.Completes limit scope (p >>= fun _ ↦ q) (xs ++ ys) Y st := by
  obtain ⟨st₁, hp, hxs, hagrees⟩ := h
  obtain ⟨st₂, hq, hys, hagrees'⟩ := h' st₁ hagrees
  exact ⟨st₂, hp.bind hq, hxs.append hys, (hagrees.mono hXY).trans hagrees'⟩

end Completes

/-- Whether the own program of the root of a tree succeeds wherever the tree stands, and leaves the
structure outside of the tree alone. If the trees below have programs of their own, theirs has to be
left alone as well. -/
def Tame (r : LiveRunner C H) (limit : Nat) (scope : Scope) (t : Tree NodeId) (q : Program C) :
    Prop :=
  ∀ (p : Option NodeId) (st : LiveState C H), st.world.nodes.Shows Node.skeleton (t.asNodes p) →
    (p.toList ++ t.labels).Nodup →
      ∃ st', r.Links limit (q.link scope (.node t.label)) st () st' ∧
        st.world.nodes.Agrees Node.skeleton (p.toList ++ t.labels) st'.world.nodes ∧
        (q.isTerminal = false → t.children ≠ [] →
          st.world.nodes.Agrees Node.skeleton [] st'.world.nodes)

end Runner

namespace Compiler

variable (c : Compiler C) {r : LiveRunner C H} {limit : Nat} {scope : Scope}

/-- The program of a node is its own program followed by that of the children. -/
theorem linkAny_combine? (n : NodeId) (own below : Option (Program C)) :
    (Program.linkAny scope n (Program.combine? own below) : Linking C H Unit) =
      Program.linkAny scope n own >>= fun _ ↦ Program.linkAny scope n below := by
  cases own with
  | none => rfl
  | some q =>
    cases below with
    | none => exact bind_pure_unit.symm
    | some q' =>
      rw [Program.combine?, Program.linkAny, Program.link]
      rfl

/-- The program of a node is carried out by carrying out its own program and that of the
children. -/
theorem links_combine? {n : NodeId} {own below : Option (Program C)} {st st₁ st₂ : LiveState C H}
    (hown : r.Links limit (Program.linkAny scope n own) st () st₁)
    (hbelow : r.Links limit (Program.linkAny scope n below) st₁ () st₂) :
    r.Links limit (Program.linkAny scope n (Program.combine? own below)) st () st₂ := by
  rw [linkAny_combine?]
  exact hown.bind hbelow

/-- The program of siblings is carried out on the node above them by holding them and carrying out
each on its sibling. -/
theorem links_siblings? {n : NodeId} {ns : List NodeId} {qs : List (Option (Program C))}
    {q : Program C} (hq : siblings? qs = some q) {st st₁ : LiveState C H}
    (hn : (st.world.nodes.get n).children = ns) (hlength : ns.length = qs.length)
    (h : r.Links limit (Program.linkEach scope ns qs)
      (st.withHoldings (ns.map Held.node :: st.world.holdings)) () st₁) :
    r.Links limit (q.link scope (.node n)) st () (st₁.withHoldings st₁.world.holdings.tail) := by
  rw [siblings?] at hq
  split at hq
  · obtain rfl := Option.some.inj hq
    have hrow : r.Yields limit (Live.ask fun w : World C H ↦ (Target.node n).row w.nodes) st ns
        st := by
      rw [← hn]
      exact Runner.Yields.ask _ st
    rw [Program.link]
    refine Runner.Links.bind_live hrow ?_
    rw [if_pos hlength]
    exact Runner.Links.holding h
  · contradiction

theorem completes_combine? {n : NodeId} {own below : Option (Program C)}
    {xs ys : List (Tree NodeId × Program C)} {X Y : List NodeId} {st : LiveState C H}
    (hown : r.Completes limit scope (Program.linkAny scope n own) xs X st)
    (hbelow : ∀ st₁, st.world.nodes.Agrees Node.skeleton X st₁.world.nodes →
      r.Completes limit scope (Program.linkAny scope n below) ys Y st₁) (hXY : X ⊆ Y) :
    r.Completes limit scope (Program.linkAny scope n (Program.combine? own below)) (xs ++ ys) Y
      st := by
  obtain ⟨st₁, hp, hxs, hagrees⟩ := hown
  obtain ⟨st₂, hq, hys, hagrees'⟩ := hbelow st₁ hagrees
  exact ⟨st₂, links_combine? hp hq, hxs.append hys, (hagrees.mono hXY).trans hagrees'⟩

/-- The program of siblings carries out their agenda, once it does on each of them. -/
theorem completes_siblings? {n : NodeId} {ts : List (Tree NodeId)} {X : List NodeId}
    {st : LiveState C H} (hn : (st.world.nodes.get n).children = ts.map Tree.label)
    (h : ∀ st' : LiveState C H, st'.world.nodes = st.world.nodes →
      r.Completes limit scope (Program.linkEach scope (ts.map Tree.label)
        (ts.map fun t ↦ (c.compile t).1)) (c.agendaAll ts) X st') :
    r.Completes limit scope
      (Program.linkAny scope n (siblings? (ts.map fun t ↦ (c.compile t).1))) (c.agendaAll ts) X
      st := by
  cases hs : siblings? (ts.map fun t ↦ (c.compile t).1) with
  | none =>
    rw [(c.compileEach_eq_none_iff ts).mp ((siblings?_eq_none_iff _).mp hs)]
    exact Runner.Completes.done X st
  | some q =>
    obtain ⟨st₁, hlink, hcarries, hagrees⟩ := h (st.withHoldings
      ((ts.map Tree.label).map Held.node :: st.world.holdings)) rfl
    refine ⟨_, links_siblings? hs hn ?_ hlink, hcarries.of_withHoldings.withHoldings _, hagrees⟩
    rw [List.length_map, List.length_map]

theorem linkEach_cons (n : NodeId) (ns : List NodeId) (q? : Option (Program C))
    (qs : List (Option (Program C))) :
    (Program.linkEach scope (n :: ns) (q? :: qs) : Linking C H Unit) =
      Program.linkAny scope n q? >>= fun _ ↦ Program.linkEach scope ns qs := by
  cases q? with
  | none => rw [Program.linkEach, Program.linkAny, pure_bind]
  | some q => rw [Program.linkEach, Program.linkAny]

/-- Where there are no programs, nothing is carried out. -/
theorem linkEach_of_none {ns : List NodeId} {qs : List (Option (Program C))}
    (hqs : ∀ q ∈ qs, q = none) (hlength : ns.length = qs.length) :
    (Program.linkEach scope ns qs : Linking C H Unit) = pure () := by
  induction qs generalizing ns with
  | nil =>
    obtain rfl := List.eq_nil_of_length_eq_zero hlength
    rw [Program.linkEach]
    all_goals intros; contradiction
  | cons q qs ih =>
    obtain ⟨n, ns, rfl⟩ := List.exists_cons_of_length_eq_add_one hlength
    obtain ⟨rfl, hrest⟩ := List.forall_mem_cons.mp hqs
    rw [Program.linkEach]
    exact ih hrest (Nat.succ.inj hlength)

variable {p : Option NodeId} {t : Tree NodeId} {own : Option (Program C)} {st : LiveState C H}

/-- A tame program of a node's own succeeds. -/
theorem completes_own (htame : ∀ x ∈ own.toList.map (Prod.mk t), r.Tame limit scope x.1 x.2)
    (hst : st.world.nodes.Shows Node.skeleton (t.asNodes p)) (ht : (p.toList ++ t.labels).Nodup) :
    r.Completes limit scope (Program.linkAny scope t.label own) (own.toList.map (Prod.mk t))
      (p.toList ++ t.labels) st := by
  cases own with
  | none => exact Runner.Completes.done _ st
  | some q =>
    obtain ⟨st', hlink, hagrees, -⟩ := htame (t, q) List.mem_cons_self p st hst ht
    exact ⟨st', hlink, Runner.Carries.single hst (List.Nodup.of_append_right ht) hlink, hagrees⟩

/-- If there are trees below that are not owned, theirs is left alone. -/
theorem completes_own_above
    (htame : ∀ x ∈ own.toList.map (Prod.mk t), r.Tame limit scope x.1 x.2)
    (hst : st.world.nodes.Shows Node.skeleton (t.asNodes p)) (ht : (p.toList ++ t.labels).Nodup)
    (hown : own.any Program.isTerminal = false) (hbelow : t.children ≠ []) :
    r.Completes limit scope (Program.linkAny scope t.label own) (own.toList.map (Prod.mk t)) []
      st := by
  cases own with
  | none => exact Runner.Completes.done _ st
  | some q =>
    obtain ⟨st', hlink, -, hagrees⟩ := htame (t, q) List.mem_cons_self p st hst ht
    exact ⟨st', hlink, Runner.Carries.single hst (List.Nodup.of_append_right ht) hlink,
      hagrees hown hbelow⟩

mutual

/-- **A program carries out its agenda.** Where a tree stands whose agenda has tame programs only,
the program of the tree succeeds and carries out the agenda, in order and on the nodes of the tree;
the structure outside of the tree is left alone, except that of the parent. -/
theorem completes_compile (t : Tree NodeId) (p : Option NodeId) (st : LiveState C H)
    (htame : ∀ x ∈ c.agenda t, r.Tame limit scope x.1 x.2)
    (hst : st.world.nodes.Shows Node.skeleton (t.asNodes p)) (ht : (p.toList ++ t.labels).Nodup) :
    r.Completes limit scope (Program.linkAny scope t.label (c.compile t).1) (c.agenda t)
      (p.toList ++ t.labels) st := by
  obtain ⟨n, kind, attrs, data, children⟩ := t
  rw [agenda] at htame ⊢
  rw [compile_fst]
  obtain ⟨hown, hrest⟩ := List.forall_mem_append.mp htame
  split
  · rw [List.append_nil, combine?_none]
    exact completes_own hown hst ht
  · rename_i hstop
    rw [if_neg hstop] at hrest
    have hterminal : (c.compileNode (.node n kind attrs data children)).1.any Program.isTerminal =
        false := by
      rw [Bool.or_eq_true, not_or] at hstop
      exact Bool.eq_false_iff.mpr hstop.1
    match children with
    | [] =>
      rw [agendaAll, List.append_nil]
      exact (combine?_none _).symm ▸ completes_own hown hst ht
    | u :: us =>
      -- The own program leaves the structure alone, so that the children are still found.
      refine completes_combine? (completes_own_above hown hst ht hterminal (List.cons_ne_nil u us))
        (fun st₁ hagrees ↦ ?_) (List.nil_subset _)
      have hst₁ := hst.of_agrees hagrees fun _ _ ↦ List.not_mem_nil
      rw [Tree.asNodes, NodeStore.shows_cons] at hst₁
      obtain ⟨⟨-, hn⟩, hbelow⟩ := hst₁
      refine Runner.Completes.mono (X := n :: Tree.labelsAll (u :: us)) ?_
        (List.subset_append_right ..)
      refine c.completes_siblings? (congrArg (fun k ↦ k.2.1) hn) fun st' hst' ↦ ?_
      exact completes_linkEach (u :: us) n st' hrest (hst' ▸ hbelow) (List.Nodup.of_append_right ht)

theorem completes_linkEach (ts : List (Tree NodeId)) (n : NodeId) (st : LiveState C H)
    (htame : ∀ x ∈ c.agendaAll ts, r.Tame limit scope x.1 x.2)
    (hst : st.world.nodes.Shows Node.skeleton (Tree.asNodesAll (some n) ts))
    (hts : (n :: Tree.labelsAll ts).Nodup) :
    r.Completes limit scope (Program.linkEach scope (ts.map Tree.label)
      (ts.map fun t ↦ (c.compile t).1)) (c.agendaAll ts) (n :: Tree.labelsAll ts) st := by
  match ts with
  | [] =>
    rw [agendaAll]
    exact Runner.Completes.done _ st
  | t :: ts =>
    rw [agendaAll] at htame ⊢
    rw [Tree.asNodesAll, NodeStore.shows_append] at hst
    obtain ⟨hn, ht, hts', hdisjoint⟩ : n ∉ Tree.labelsAll (t :: ts) ∧ t.labels.Nodup ∧
        (Tree.labelsAll ts).Nodup ∧ List.Disjoint t.labels (Tree.labelsAll ts) := by
      obtain ⟨hn, hall⟩ := List.nodup_cons.mp hts
      rw [Tree.labelsAll, List.nodup_append'] at hall
      exact ⟨hn, hall⟩
    rw [Tree.labelsAll, List.mem_append, not_or] at hn
    obtain ⟨htame₁, htame₂⟩ := List.forall_mem_append.mp htame
    rw [List.map_cons, List.map_cons, linkEach_cons]
    refine (completes_compile t (some n) st htame₁ hst.1 (List.nodup_cons.mpr ⟨hn.1, ht⟩)).bind
      (fun st₁ hagrees ↦ ?_) ?_
    · refine (completes_linkEach ts n st₁ htame₂ ?_ (List.nodup_cons.mpr ⟨hn.2, hts'⟩)).mono ?_
      · refine hst.2.of_agrees hagrees fun x hx hxt ↦ ?_
        have hx := Tree.mem_labelsAll_of_mem_asNodesAll hx
        rcases List.mem_cons.mp hxt with hxn | hxt
        · exact hn.2 (hxn ▸ hx)
        · exact hdisjoint hxt hx
      · rw [Tree.labelsAll]
        exact List.cons_subset_cons n (List.subset_append_right ..)
    · rw [Tree.labelsAll]
      exact List.cons_subset_cons n (List.subset_append_left ..)

end

end Compiler

end LiveMarkup
