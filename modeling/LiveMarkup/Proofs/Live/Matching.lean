import LiveMarkup.Proofs.Live.Settling
import LiveMarkup.Proofs.Live.Templates
import LiveMarkup.Proofs.Live.Tenures

/-!
# Fitting templates meet no mismatch

The program of a template, carried out on a live tree of its shape, counts the children of a node
when it comes to them, not before. By then the directives of the node itself have been bound. Where
the template fits its program (`Compiler.fits`), the count is right all the same: no node whose
children have programs has lost them, but for a single child in whose place a text has come, and the
program of that child is about the child alone. So the programs of trees settle, by induction on the
tree (`Compiler.settles_compile`), and executions never find a mismatch
(`Compiler.execute_ne_structuralMismatch`).

Without the condition they do: `Copied.unfitting_meets_mismatch`.
-/

namespace LiveMarkup

variable {C H : Type}

/-! ## Programs of trees -/

namespace Compiler

variable {c : Compiler C} {client : Client C H} {fuel limit : Nat} {scope : Scope}

/-- The program of siblings is carried out on as many nodes as it was made for. -/
theorem settles_siblings? {n : NodeId} {ns : List NodeId} {qs : List (Option (Program C))}
    {Q : NodeStore → Prop} {st : LiveState C H} {r : LiveRunner C H}
    (hn : (st.world.nodes.get n).children = ns) (hlength : ns.length = qs.length)
    (hQ : Q st.world.nodes)
    (h : ∀ st' : LiveState C H, st'.world.nodes = st.world.nodes →
      r.Settles limit scope.vm (Program.linkEach scope ns qs) Q st') :
    r.Settles limit scope.vm (Program.linkAny scope n (siblings? qs)) Q st := by
  rw [siblings?]
  split
  · have hrow : r.Yields limit (Live.ask fun w : World C H ↦ (Target.node n).row w.nodes) st ns
        st := by
      rw [← hn]
      exact Runner.Yields.ask _ st
    rw [Program.linkAny, Program.link]
    refine .bind_live hrow (.refl _) ?_
    rw [if_pos hlength]
    exact .holding (h _ rfl)
  · exact .done hQ

variable {p : Option NodeId} {st : LiveState C H}

theorem isBuiltin_of_resolve? (hc : c.registry = .builtin) (d : Descriptor) (a : Application C)
    (ha : c.registry.resolve? d = some a) : a.directive.behaviour.IsBuiltin := by
  rw [hc] at ha
  exact (Registry.all_builtin (P := fun d ↦ d.behaviour.IsBuiltin) trivial trivial).of_resolve? d a
    ha

/-- A tree whose program is about its root alone. -/
theorem settles_local {t : Tree NodeId} {q? : Option (Program C)}
    (hq : ∀ q, q? = some q → q.isLocal = true ∧
      q.Uses (fun a ↦ a.directive.behaviour.IsBuiltin) fun _ ↦ False)
    (hst : st.world.nodes.Shows Node.skeleton (t.asNodes p)) (ht : (p.toList ++ t.labels).Nodup) :
    (client.meaning.runner (fuel + 1)).Settles limit scope.vm (Program.linkAny scope t.label q?)
      (st.world.nodes.Agrees Node.skeleton (p.toList ++ t.labels)) st := by
  cases q? with
  | none => exact .done (.refl _ _ _)
  | some q =>
    obtain ⟨hlocal, huses⟩ := hq q rfl
    have hparental := NodeStore.Parental.of_shows hst (List.Nodup.of_append_right ht)
    obtain ⟨n, kind, attrs, data, children⟩ := t
    have hn := (hst _ List.mem_cons_self).2
    have hparent : (st.world.nodes.get n).parent = p := congrArg (fun k ↦ k.2.2) hn
    have hchildren : (st.world.nodes.get n).children = children.map Tree.label :=
      congrArg (fun k ↦ k.2.1) hn
    have hne : (st.world.nodes.get n).parent ≠ some n := by
      rw [hparent]
      rintro rfl
      exact (List.nodup_cons.mp ht).1 List.mem_cons_self
    refine (Runner.Settles.ofLocal hlocal huses hparental hne).mono fun s hs ↦ hs.mono ?_
    rw [Tree.label, hparent, hchildren]
    refine List.append_subset.mpr ⟨List.subset_append_left _ _, ?_⟩
    refine List.Subset.trans ?_ (List.subset_append_right _ _)
    exact List.cons_subset_cons n (Tree.map_label_sublist_labelsAll children).subset

/-- What an element has for itself may put a text in the place of the children. -/
theorem settles_refilled (hc : c.registry = .builtin) {t : Tree NodeId} {tag : String}
    (hkind : t.kind = .element tag)
    (hterminal : (c.compileNode t).1.any Program.isTerminal = false)
    (hn : st.world.nodes.Parental t.label) :
    (client.meaning.runner (fuel + 1)).Settles limit scope.vm
      (Program.linkAny scope t.label (c.compileNode t).1) (st.world.nodes.Refilled t.label) st := by
  have hrefl := NodeStore.Refilled.refl hn
  cases hq : (c.compileNode t).1 with
  | none => exact .done hrefl
  | some q =>
    rw [hq, Option.any_some] at hterminal
    have huses := uses_compileNode (isBuiltin_of_resolve? hc) hq
    obtain ⟨h, -⟩ | ⟨-, a, as, -, rfl, -⟩ | ⟨ps, htext, -⟩ := own_cases hq
    · exact absurd h (Bool.eq_false_iff.mp hterminal)
    · have has : ∀ b ∈ a :: as, b.directive.behaviour.IsBuiltin := List.forall_mem_cons.mpr huses
      rw [Program.linkAny, Program.link]
      exact .single (.applyAll (fun b hb ↦ .refilled hn.lt (has b hb)) hrefl)
    · rw [hkind] at htext
      contradiction

/-- What a node has for itself leaves it its children, unless it is terminal or asks for its text by
name. -/
theorem settles_above (hc : c.registry = .builtin) {t : Tree NodeId}
    (hrefills : c.refills t.kind t.attrs = false)
    (hterminal : (c.compileNode t).1.any Program.isTerminal = false)
    (hn : t.label.index < st.world.nodes.size)
    (hparent : (st.world.nodes.get t.label).parent ≠ some t.label) :
    (client.meaning.runner (fuel + 1)).Settles limit scope.vm
      (Program.linkAny scope t.label (c.compileNode t).1)
      (fun s ↦ st.world.nodes.Agrees Node.skeleton
          ((st.world.nodes.get t.label).parent.toList ++ [t.label]) s ∧
        (s.get t.label).children = (st.world.nodes.get t.label).children) st := by
  cases hq : (c.compileNode t).1 with
  | none => exact .done ⟨.refl _ _ _, rfl⟩
  | some q =>
    rw [hq, Option.any_some] at hterminal
    have huses := uses_compileNode (isBuiltin_of_resolve? hc) hq
    obtain ⟨h, -⟩ | ⟨tag, a, as, hkind, rfl, has⟩ | ⟨ps, -, rfl⟩ := own_cases hq
    · exact absurd h (Bool.eq_false_iff.mp hterminal)
    · have hrefills : t.attrs.has (c.config.mark ++ textDirective) = false := by
        rwa [refills.eq_def, hkind] at hrefills
      have hattr (b : Application C) (hb : b ∈ a :: as) : b.directive.behaviour = .attr :=
        behaviour_of_refills hc hrefills (List.mem_mergeSort.mp (has ▸ hb))
      rw [Program.linkAny, Program.link]
      refine .mono (.single (.applyAll (Q := st.world.nodes.Agrees Node.skeleton []) ?_
        (.refl _ _ _))) fun s hs ↦ ?_
      · intro b hb
        refine .agrees hn (hattr b hb ▸ trivial) fun htext ↦ ?_
        rw [hattr b hb] at htext
        contradiction
      · exact ⟨hs.mono (List.nil_subset _),
          congrArg (fun k ↦ k.2.1) (hs.get t.label hn List.not_mem_nil)⟩
    · exact .text huses hn hparent

/-- An element that may have got a text in the place of a single child: the program for the child is
carried out on whatever stands there. -/
theorem settles_child {n : NodeId} {u : Tree NodeId} {q? : Option (Program C)} {s : NodeStore}
    (hq : ∀ q, q? = some q → q.isLocal = true ∧
      q.Uses (fun a ↦ a.directive.behaviour.IsBuiltin) fun _ ↦ False)
    (h : s.Refilled n st.world.nodes) (hn : n.index < s.size)
    (hchildren : (s.get n).children = [u.label]) (hu : s.Shows Node.skeleton (u.asNodes (some n)))
    (hnodup : u.labels.Nodup) :
    (client.meaning.runner (fuel + 1)).Settles limit scope.vm
      (Program.linkAny scope n (siblings? [q?])) (s.Agrees Node.skeleton (n :: u.labels)) st := by
  obtain ⟨m, hm, hparental, hagrees⟩ := h.exists_child hn hchildren hu hnodup
  have hparent := h.parental.parent m (hm ▸ List.mem_singleton_self m)
  have hne : (st.world.nodes.get m).parent ≠ some m := by
    rw [hparent]
    intro he
    have hself := h.parental.not_self
    rw [hm, Option.some.inj he] at hself
    exact hself (List.mem_singleton_self m)
  have hrefl := hagrees _ (.refl _ _ _)
  refine settles_siblings? hm rfl hrefl fun st' hst' ↦ ?_
  rw [linkEach_cons]
  have hlink : (client.meaning.runner (fuel + 1)).Settles limit scope.vm
      (Program.linkAny scope m q?) (s.Agrees Node.skeleton (n :: u.labels)) st' := by
    cases q? with
    | none => exact .done (hst' ▸ hrefl)
    | some q =>
      obtain ⟨hlocal, huses⟩ := hq q rfl
      refine (Runner.Settles.ofLocal hlocal huses (hst' ▸ hparental) (hst' ▸ hne)).mono
        fun s' hs ↦ ?_
      rw [hst', hparent] at hs
      exact hagrees s' hs
  refine hlink.bind fun st₁ h₁ ↦ ?_
  rw [Program.linkEach]
  · exact .done h₁
  all_goals intros; contradiction

/-- The program of an element that asks for its text by name, above children that fit a text. -/
theorem settles_of_fitsText (hc : c.registry = .builtin) {n : NodeId} {tag : String}
    {attrs : Attributes} {data : String} {children : List (Tree NodeId)}
    (hterminal : (c.compileNode (.node n (.element tag) attrs data children)).1.any
      Program.isTerminal = false)
    (hfits : c.fitsText children = true)
    (hst : st.world.nodes.Shows Node.skeleton
      (Tree.asNodes p (.node n (.element tag) attrs data children)))
    (ht : (p.toList ++ n :: Tree.labelsAll children).Nodup) :
    (client.meaning.runner (fuel + 1)).Settles limit scope.vm
      (Program.linkAny scope n (Program.combine?
        (c.compileNode (.node n (.element tag) attrs data children)).1
        (siblings? (children.map fun t ↦ (c.compile t).1))))
      (st.world.nodes.Agrees Node.skeleton (p.toList ++ n :: Tree.labelsAll children)) st := by
  have hnodup := List.Nodup.of_append_right ht
  rw [fitsText, Bool.or_eq_true] at hfits
  rcases hfits with hnone | hsingle
  · -- Nothing below has a program.
    have hbelow : siblings? (children.map fun t ↦ (c.compile t).1) = none := by
      refine (siblings?_eq_none_iff _).mpr fun q? hq ↦ ?_
      obtain ⟨t, ht, rfl⟩ := List.mem_map.mp hq
      exact Option.isNone_iff_eq_none.mp (List.all_eq_true.mp hnone t ht)
    rw [hbelow, combine?_none]
    exact settles_local (fun q hq ↦ ⟨isLocal_of_compileNode hq,
      uses_compileNode (isBuiltin_of_resolve? hc) hq⟩) hst ht
  · obtain ⟨hlength, hlocal⟩ := Bool.and_eq_true_iff.mp hsingle
    obtain ⟨u, rfl⟩ := List.length_eq_one_iff.mp (beq_iff_eq.mp hlength)
    have hparental := NodeStore.Parental.of_shows hst hnodup
    obtain ⟨⟨hlt, hn⟩, hbelow⟩ := NodeStore.shows_cons.mp hst
    rw [Tree.asNodesAll_singleton] at hbelow
    rw [Tree.labelsAll_singleton] at hnodup ⊢
    rw [linkAny_combine?]
    refine (settles_refilled hc rfl hterminal hparental).bind fun st₁ h₁ ↦ ?_
    have hq (q : Program C) (hq : (c.compile u).1 = some q) : q.isLocal = true ∧
        q.Uses (fun a ↦ a.directive.behaviour.IsBuiltin) fun _ ↦ False := by
      have hall := List.all_eq_true.mp hlocal u (List.mem_singleton_self u)
      rw [hq] at hall
      exact ⟨hall, uses_compile (isBuiltin_of_resolve? hc) u q hq⟩
    exact (settles_child hq h₁ hlt (congrArg (fun k ↦ k.2.1) hn) hbelow
      (List.nodup_cons.mp hnodup).2).mono fun s hs ↦ hs.mono (List.subset_append_right _ _)

/-- The program of a node that keeps its children, once theirs settle. -/
theorem settles_of_linkEach (hc : c.registry = .builtin) {n : NodeId} {kind : NodeKind}
    {attrs : Attributes} {data : String} {children : List (Tree NodeId)}
    (hrefills : c.refills kind attrs = false)
    (hterminal : (c.compileNode (.node n kind attrs data children)).1.any
      Program.isTerminal = false)
    (hst : st.world.nodes.Shows Node.skeleton
      (Tree.asNodes p (.node n kind attrs data children)))
    (ht : (p.toList ++ n :: Tree.labelsAll children).Nodup)
    (h : ∀ st' : LiveState C H,
      st'.world.nodes.Shows Node.skeleton (Tree.asNodesAll (some n) children) →
        (client.meaning.runner (fuel + 1)).Settles limit scope.vm
          (Program.linkEach scope (children.map Tree.label) (children.map fun t ↦ (c.compile t).1))
          (st'.world.nodes.Agrees Node.skeleton (n :: Tree.labelsAll children)) st') :
    (client.meaning.runner (fuel + 1)).Settles limit scope.vm
      (Program.linkAny scope n (Program.combine?
        (c.compileNode (.node n kind attrs data children)).1
        (siblings? (children.map fun t ↦ (c.compile t).1))))
      (st.world.nodes.Agrees Node.skeleton (p.toList ++ n :: Tree.labelsAll children)) st := by
  obtain ⟨⟨hlt, hn⟩, hbelow⟩ := NodeStore.shows_cons.mp hst
  have hparent : (st.world.nodes.get n).parent = p := congrArg (fun k ↦ k.2.2) hn
  have hchildren : (st.world.nodes.get n).children = children.map Tree.label :=
    congrArg (fun k ↦ k.2.1) hn
  obtain ⟨-, hnodup, hdisjoint⟩ := List.nodup_append'.mp ht
  have hne : (st.world.nodes.get n).parent ≠ some n := by
    rw [hparent]
    rintro rfl
    exact hdisjoint List.mem_cons_self List.mem_cons_self
  rw [linkAny_combine?]
  refine (settles_above (t := .node n kind attrs data children) hc hrefills hterminal hlt hne).bind
    fun st₁ ⟨hagrees, hsame⟩ ↦ ?_
  rw [Tree.label, hparent] at hagrees
  -- The children are as they were, so that each is found where it was compiled.
  have hbelow₁ := hbelow.of_agrees hagrees fun x hx hmem ↦ by
    have hx := Tree.mem_labelsAll_of_mem_asNodesAll hx
    rcases List.mem_append.mp hmem with hp | hself
    · exact hdisjoint hp (List.mem_cons_of_mem n hx)
    · exact (List.nodup_cons.mp hnodup).1 (List.mem_singleton.mp hself ▸ hx)
  have hall := settles_siblings? (hsame.trans hchildren) (by rw [List.length_map, List.length_map])
    (.refl Node.skeleton (n :: Tree.labelsAll children) _)
    fun st' hst' ↦ hst' ▸ h st' (hst' ▸ hbelow₁)
  refine hall.mono fun s hs ↦ (hagrees.mono ?_).trans (hs.mono (List.subset_append_right _ _))
  refine List.append_subset.mpr ⟨List.subset_append_left _ _, ?_⟩
  exact List.cons_subset.mpr ⟨List.mem_append_right _ List.mem_cons_self, List.nil_subset _⟩

mutual

/-- **A fitting program settles.** Where a tree stands, its program ends without a mismatch, and if
it succeeds it has left the structure outside of the tree alone, except that of the parent. -/
theorem settles_compile (hc : c.registry = .builtin) (t : Tree NodeId) (p : Option NodeId)
    (st : LiveState C H) (hfits : c.fits t = true)
    (hst : st.world.nodes.Shows Node.skeleton (t.asNodes p)) (ht : (p.toList ++ t.labels).Nodup) :
    (client.meaning.runner (fuel + 1)).Settles limit scope.vm
      (Program.linkAny scope t.label (c.compile t).1)
      (st.world.nodes.Agrees Node.skeleton (p.toList ++ t.labels)) st := by
  have hown (q : Program C) (hq : (c.compileNode t).1 = some q) :=
    And.intro (isLocal_of_compileNode hq) (uses_compileNode (isBuiltin_of_resolve? hc) hq)
  obtain ⟨n, kind, attrs, data, children⟩ := t
  rw [compile_fst]
  rw [fits] at hfits
  split
  · rw [combine?_none]
    exact settles_local hown hst ht
  · rename_i hstop
    rw [if_neg hstop] at hfits
    have hterminal : (c.compileNode (.node n kind attrs data children)).1.any Program.isTerminal =
        false := by
      rw [Bool.or_eq_true, not_or] at hstop
      exact Bool.eq_false_iff.mpr hstop.1
    split at hfits
    · rename_i hrefills
      cases kind with
      | element tag => exact settles_of_fitsText hc hterminal hfits hst ht
      | text | comment | fragment => contradiction
    · rename_i hrefills
      refine settles_of_linkEach hc (Bool.eq_false_iff.mpr hrefills) hterminal hst ht
        fun st' hst' ↦ ?_
      exact settles_linkEach hc children n st' hfits hst' (List.Nodup.of_append_right ht)

theorem settles_linkEach (hc : c.registry = .builtin) (ts : List (Tree NodeId)) (n : NodeId)
    (st : LiveState C H) (hfits : c.fitsAll ts = true)
    (hst : st.world.nodes.Shows Node.skeleton (Tree.asNodesAll (some n) ts))
    (hts : (n :: Tree.labelsAll ts).Nodup) :
    (client.meaning.runner (fuel + 1)).Settles limit scope.vm
      (Program.linkEach scope (ts.map Tree.label) (ts.map fun t ↦ (c.compile t).1))
      (st.world.nodes.Agrees Node.skeleton (n :: Tree.labelsAll ts)) st := by
  match ts with
  | [] =>
    rw [List.map_nil, List.map_nil, Program.linkEach]
    · exact .done (.refl _ _ _)
    all_goals intros; contradiction
  | t :: ts =>
    rw [fitsAll, Bool.and_eq_true] at hfits
    rw [Tree.asNodesAll, NodeStore.shows_append] at hst
    obtain ⟨hn, ht, hts', hdisjoint⟩ : n ∉ Tree.labelsAll (t :: ts) ∧ t.labels.Nodup ∧
        (Tree.labelsAll ts).Nodup ∧ List.Disjoint t.labels (Tree.labelsAll ts) := by
      obtain ⟨hn, hall⟩ := List.nodup_cons.mp hts
      rw [Tree.labelsAll, List.nodup_append'] at hall
      exact ⟨hn, hall⟩
    rw [Tree.labelsAll, List.mem_append, not_or] at hn
    rw [List.map_cons, List.map_cons, linkEach_cons]
    refine (settles_compile hc t (some n) st hfits.1 hst.1
      (List.nodup_cons.mpr ⟨hn.1, ht⟩)).bind fun st₁ hagrees ↦ ?_
    have hst₁ := hst.2.of_agrees hagrees fun x hx hxt ↦ ?_
    · refine (settles_linkEach hc ts n st₁ hfits.2 hst₁
        (List.nodup_cons.mpr ⟨hn.2, hts'⟩)).mono fun s hs ↦ ?_
      rw [Tree.labelsAll]
      exact (hagrees.mono (List.cons_subset_cons n (List.subset_append_left ..))).trans
        (hs.mono (List.cons_subset_cons n (List.subset_append_right ..)))
    · have hx := Tree.mem_labelsAll_of_mem_asNodesAll hx
      rcases List.mem_cons.mp hxt with hxn | hxt
      · exact hn.2 (hxn ▸ hx)
      · exact hdisjoint hxt hx

end

end Compiler

/-! ## Executions -/

namespace Live

/-- Answers what has been installed since a mark, or undoes it if there was a failure. -/
def concluding (scope : Scope) (mark : BindingId) :
    Except LinkError Unit → Live C H (Except LinkError (Disposer C))
  | .ok () => do return .ok (← ownedSince scope.vm mark)
  | .error e => do
    (← ownedSince scope.vm mark).dispose
    return .error e

/-- An execution of whatever carries out a program. -/
def executing (scope : Scope) (link : Linking C H Unit) :
    Live C H (Except LinkError (Disposer C)) := do
  let mark ← ask fun w ↦ (w.ledgerOf scope.vm).watermark
  concluding scope mark (← link.run)

theorem execute_some (q : Program C) (scope : Scope) (target : Target) :
    (execute (some q) scope target : Live C H (Except LinkError (Disposer C))) =
      executing scope (q.link scope target) := rfl

theorem execute_node (q? : Option (Program C)) (scope : Scope) (n : NodeId) :
    (execute q? scope (.node n) : Live C H (Except LinkError (Disposer C))) =
      executing scope (Program.linkAny scope n q?) := by
  cases q? <;> rfl

end Live

theorem Client.run_executing {client : Client C H} {fuel : Nat} (scope : Scope)
    (l : Linking C H Unit) (st : LiveState C H) :
    client.run fuel (Live.executing scope l) st = (client.run fuel l.run st).bind fun x ↦
      client.run fuel (Live.concluding scope (st.world.ledgerOf scope.vm).watermark x.1) x.2 :=
  (client.meaning.runner fuel).run_bind fuel l.run
    (Live.concluding scope (st.world.ledgerOf scope.vm).watermark) st

/-- An execution of a program that settles. -/
theorem Client.execute_of_settles {client : Client C H} {fuel : Nat} {q? : Option (Program C)}
    {scope : Scope} {n : NodeId} {Q : NodeStore → Prop} {st : LiveState C H}
    (h : (client.meaning.runner fuel).Settles fuel scope.vm (Program.linkAny scope n q?) Q st) :
    (∀ answer st', client.run fuel (Live.execute q? scope (.node n)) st = some (answer, st') →
      ∀ expected found, answer ≠ .error (.structuralMismatch expected found)) ∧
    ((st.world.ledgerOf scope.vm).Sound →
      client.Returns fuel (Live.execute q? scope (.node n)) st) := by
  obtain ⟨result, st₁, hlink, hresult, -, new, hgains, heffects⟩ := h
  let mark := (st.world.ledgerOf scope.vm).watermark
  have hlinked : client.run fuel (Program.linkAny scope n q?).run st = some (result, st₁) := hlink
  have hrun : client.run fuel (Live.execute q? scope (.node n)) st =
      client.run fuel (Live.concluding scope mark result) st₁ := by
    rw [Live.execute_node, run_executing, hlinked, Option.bind_some]
  rw [Client.Returns, hrun]
  cases result with
  | ok _ =>
    refine ⟨fun answer st' hanswer expected found he ↦ ?_, fun _ ↦ ⟨_, st₁, rfl⟩⟩
    obtain ⟨rfl, -⟩ := Prod.mk.inj (Option.some.inj hanswer)
    contradiction
  | error e =>
    let owned : Disposer C := ⟨scope.vm, (st₁.world.ledgerOf scope.vm).since mark⟩
    have hundo : client.run fuel (Live.concluding scope mark (.error e)) st₁ =
        client.run fuel (owned.dispose.bind fun _ ↦ pure (.error e)) st₁ := rfl
    rw [hundo]
    refine ⟨fun answer st' hanswer expected found he ↦ ?_, fun hsound ↦ ?_⟩
    · obtain ⟨⟨⟩, st₂, -, hdone⟩ := Meaning.exists_of_run_bind hanswer
      obtain ⟨rfl, -⟩ := Prod.mk.inj (Option.some.inj hdone)
      exact hresult expected found (congrArg _ (Except.error.inj he))
    · -- Only effects are undone, and that comes to an end.
      have howned : owned.owned = new := hgains.since_eq hsound
      have hall (st₂ : LiveState C H) :
          client.Returns fuel (Disposer.disposeAll owned.owned) st₂ :=
        returns_disposeAll_effects (howned ▸ heffects) st₂
      have hdispose : client.Returns fuel owned.dispose st₁ :=
        Returns.bind (returns_holding (hall _)) fun _ _ _ ↦ ⟨_, _, rfl⟩
      exact Returns.bind hdispose fun _ st₂ _ ↦ ⟨_, st₂, rfl⟩

/-- **A fitting template meets no mismatch.** Take a template that fits, compiled for any mark with
the directives of this library, and a live tree of its structure. Whatever the view-model, an
execution of the template on the tree never answers that the structure does not match. It does
answer, if the ledger numbers its entries in order. -/
theorem Compiler.execute_ne_structuralMismatch (c : Compiler C) (hc : c.registry = .builtin)
    (client : Client C H) (fuel : Nat) {template live : Tree NodeId}
    (hfits : c.fits template = true) (hlive : live.plain = template.plain) (scope : Scope)
    {p : Option NodeId} {st : LiveState C H}
    (hst : st.world.nodes.Shows Node.skeleton (live.asNodes p))
    (hnodup : (p.toList ++ live.labels).Nodup) :
    (∀ answer st', client.run (fuel + 1)
        (Live.execute (c.compile template).1 scope (.node live.label)) st = some (answer, st') →
      ∀ expected found, answer ≠ .error (.structuralMismatch expected found)) ∧
    ((st.world.ledgerOf scope.vm).Sound →
      client.Returns (fuel + 1) (Live.execute (c.compile template).1 scope (.node live.label))
        st) := by
  rw [← c.compile_fst_of_plain live template hlive]
  refine Client.execute_of_settles (settles_compile hc live p st ?_ hst hnodup)
  rw [c.fits_of_plain live template hlive, hfits]

/-! ### Copies of templates -/

namespace Copied

def compiler : Compiler Empty := { registry := .builtin }

/-- A template and a copy of it, and a view-model without fields. -/
def state (template : Tree NodeId) : LiveState Empty Unit where
  graph := .empty
  world := {
    nodes := ((NodeStore.empty.plant template).2.deepClone ⟨0⟩).2
    viewModels := #[⟨[], ⟨0⟩, ⟨0⟩, false, false⟩]
    ledgers := #[.empty]
    host := () }

/-- An element that asks for its text above a single element, and a text. -/
def fitting : Tree NodeId :=
  .element ⟨0⟩ "div" []
    [.element ⟨1⟩ "p" [("v-bind", "n")] [.element ⟨2⟩ "b" [("title", "{{ n }}")] []],
      .text ⟨3⟩ "{{ n }}"]

/-- The copy stands as the template does, on nodes of its own. -/
theorem shows_fitting :
    (state fitting).world.nodes.Shows Node.skeleton ((fitting.number 4).asNodes none) := by
  have hsolid : Tree.SolidAll fitting.children := by
    simp [fitting, Tree.element, Tree.text, Tree.children, Tree.SolidAll, Tree.Solid]
  obtain ⟨-, hplants⟩ := NodeStore.plants_plant .empty fitting hsolid
  have htree : (NodeStore.empty.plant fitting).2.tree ⟨0⟩ = fitting :=
    NodeStore.tree_of_shows hplants.shows (by decide)
  obtain ⟨-, hcopy⟩ := NodeStore.plants_plant (NodeStore.empty.plant fitting).2 fitting hsolid
  have hnodes : (state fitting).world.nodes =
      ((NodeStore.empty.plant fitting).2.plant fitting).2 := by
    rw [state, NodeStore.deepClone, htree]
  rw [hnodes]
  exact hcopy.shows.of_id _

/-- The template is executed on its copy, where the text takes the place of the element. -/
theorem fitting_meets_no_mismatch : compiler.fits fitting = true ∧
    (∀ answer st', Client.none.run 2
        (Live.execute (compiler.compile fitting).1 ⟨⟨0⟩, none, none⟩ (.node ⟨4⟩)) (state fitting) =
          some (answer, st') →
      ∀ expected found, answer ≠ .error (.structuralMismatch expected found)) ∧
    Client.none.Returns 2
      (Live.execute (compiler.compile fitting).1 ⟨⟨0⟩, none, none⟩ (.node ⟨4⟩))
      (state fitting) := by
  have hfits : compiler.fits fitting = true := by decide +kernel
  obtain ⟨hanswers, hreturns⟩ := compiler.execute_ne_structuralMismatch rfl Client.none 1 hfits
    (Tree.plain_number 4 fitting) ⟨⟨0⟩, none, none⟩ shows_fitting (by decide)
  exact ⟨hfits, hanswers, hreturns Ledger.sound_empty⟩

/-- An element that asks for its text above a text and an element. -/
def unfitting : Tree NodeId :=
  .element ⟨0⟩ "p" [("v-bind", "n")] [.text ⟨1⟩ "{{ n }}", .element ⟨2⟩ "b" [] [.text ⟨3⟩ "x"]]

/-- The failure of an execution. -/
def failure? : Except LinkError (Disposer Empty) → Option LinkError
  | .error e => some e
  | .ok _ => none

/-- The text takes the place of both children before they are counted, so that a mismatch is found
on a copy of the very template that was compiled. -/
theorem unfitting_meets_mismatch : compiler.fits unfitting = false ∧
    (Client.none.run 2 (Live.execute (compiler.compile unfitting).1 ⟨⟨0⟩, none, none⟩ (.node ⟨4⟩))
      (state unfitting)).map (failure? ·.1) = some (some (.structuralMismatch 2 1)) := by
  decide +kernel

end Copied

end LiveMarkup
