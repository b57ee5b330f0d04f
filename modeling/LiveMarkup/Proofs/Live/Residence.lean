import LiveMarkup.Proofs.Live.Tenures

/-!
# Residence

Whatever components are mounted and unmounted, in any order and with any answers, if one mount table
is used for nothing else: who is mounted where stays in accord (`World.Accords`), and it can be read
off the moves that were run (`World.Recalls`). One move preserves both
(`Move.Ends.preserves`), so any number of them does, and what is asked of a mount table follows
(`Succession.orderly`).

A component is mounted at most once, as its view-model is disposed when it is unmounted. That this
is for good needs no argument about the component: nothing takes back that a view-model is disposed
(`World.Persists`), and a mount asks for it first.
-/

namespace LiveMarkup

variable {C H : Type}

/-! ## Succession -/

/-- What is asked of a component with regard to a mount table, and what is answered. -/
inductive Move where
  | mount (c : ComponentId) (node : NodeId) (owner : Option ViewModelId)
    (answer : Except MountError Unit)
  | unmount (c : ComponentId) (answer : Bool)

/-- Whether a move that is begun in one state can end in another. Components are mounted on nodes
that there are. -/
def Move.Ends (client : Client C H) (t : TableId) (st st' : LiveState C H) : Move → Prop
  | .mount c node owner answer => node.index < st.world.nodes.size ∧
    ∃ fuel, client.run fuel (c.mount t node owner) st = some (answer, st')
  | .unmount c answer => ∃ fuel, client.run fuel (c.unmount t) st = some (answer, st')

/-- A move that was run, with the world before it and the world after it. -/
structure Turn (C H : Type) where
  move : Move
  before : World C H
  after : World C H

/-- The states that can be reached by moves, one after the other. -/
inductive Succession (client : Client C H) (t : TableId) (st₀ : LiveState C H) :
    List (Turn C H) → LiveState C H → Prop where
  | start : Succession client t st₀ [] st₀
  | turn {turns : List (Turn C H)} {st st' : LiveState C H} {move : Move}
    (earlier : Succession client t st₀ turns st) (last : move.Ends client t st st') :
    Succession client t st₀ (turns ++ [⟨move, st.world, st'.world⟩]) st'

/-- Whether a turn was one in which a component was mounted: new nodes came to the end of the node,
and what was recorded has been entered at the end of a ledger. -/
structure Turn.Settles (T : Turn C H) (c : ComponentId) (n : NodeId) (d : Disposer C)
    (roots : List NodeId) : Prop where
  move : ∃ owner, T.move = .mount c n owner (.ok ())
  children : (T.after.nodes.get n).children = (T.before.nodes.get n).children ++ roots
  new : ∀ r ∈ roots, T.before.nodes.size ≤ r.index
  gained : (T.after.ledgerOf d.vm).entries = (T.before.ledgerOf d.vm).entries ++ d.owned

namespace World

/-- Whether a component is mounted on a node. -/
def MountedOn (w : World C H) (c : ComponentId) (n : NodeId) : Prop :=
  ∃ roots, (w.component c).mounted = some (n, roots)

/-- Whether a component is not mounted and cannot be mounted. -/
def Departed (w : World C H) (c : ComponentId) : Prop :=
  (w.component c).mounted = none ∧ (w.viewModel (w.component c).vm).disposed = true

/-- What can be told from the turns that there have been. -/
structure Recalls (t : TableId) (turns : List (Turn C H)) (w : World C H) : Prop where
  /-- Who is mounted was mounted in some turn. -/
  settled : ∀ c n roots, (w.component c).mounted = some (n, roots) →
    ∃ d, (w.table t).find? n = some d ∧ ∃ T ∈ turns, T.Settles c n d roots
  /-- Who was mounted still is, or is gone. -/
  stays : ∀ T ∈ turns, ∀ c n owner, T.move = .mount c n owner (.ok ()) →
    w.MountedOn c n ∨ w.Departed c
  left : ∀ T ∈ turns, ∀ c, T.move = .unmount c true → w.Departed c

variable {K : C → Prop} {V : ViewModelId → Prop} {w w' : World C H} {t : TableId}
  {c : ComponentId} {n : NodeId} {d : Disposer C} {roots : List NodeId} {turns : List (Turn C H)}
  {T : Turn C H}

/-- A component is gone for good, if it is not mounted anew. -/
theorem Departed.of_persists (h : w.Departed c) (h' : w.Persists w')
    (hc : (w'.component c).mounted = (w.component c).mounted) : w'.Departed c :=
  ⟨hc.trans h.1, h'.disposed _ (h'.vm c ▸ h.2)⟩

namespace Recalls

variable (h : w.Recalls t turns)

include h

theorem idles (hw : w.Prepared K V t) (h' : w.Idles t w')
    (hmount : ∀ c n owner, T.move ≠ .mount c n owner (.ok ()))
    (hunmount : ∀ c, T.move ≠ .unmount c true) : w'.Recalls t (turns ++ [T]) := by
  have htable := h'.table_eq hw
  have hgone {c : ComponentId} (hc : w.Departed c) : w'.Departed c :=
    hc.of_persists h'.persists (h'.mounted c)
  constructor
  case settled =>
    intro c n roots hc
    rw [h'.mounted] at hc
    obtain ⟨d, hd, T', hT', hsettles⟩ := h.settled c n roots hc
    exact ⟨d, htable ▸ hd, T', List.mem_append_left _ hT', hsettles⟩
  case stays =>
    intro T' hT' c n owner hmove
    rcases List.mem_append.mp hT' with hT' | hT'
    · refine (h.stays T' hT' c n owner hmove).imp (fun hon ↦ ?_) hgone
      exact hon.imp fun roots hc ↦ (h'.mounted c).trans hc
    · obtain rfl := List.mem_singleton.mp hT'
      exact absurd hmove (hmount c n owner)
  case left =>
    intro T' hT' c hmove
    rcases List.mem_append.mp hT' with hT' | hT'
    · exact hgone (h.left T' hT' c hmove)
    · obtain rfl := List.mem_singleton.mp hT'
      exact absurd hmove (hunmount c)

theorem receives (hw : w.Prepared K V t)
    (h' : w.Receives t c n d roots w') (hfree : (w.table t).find? n = none)
    (hc : (w.component c).mounted = none)
    (hvm : (w.viewModel (w.component c).vm).disposed = false) (owner : Option ViewModelId) :
    w'.Recalls t (turns ++ [⟨.mount c n owner (.ok ()), w, w'⟩]) := by
  have htable := h'.table_eq hw
  have hgone {c' : ComponentId} (hc' : w.Departed c') : w'.Departed c' := by
    refine hc'.of_persists h'.persists (h'.others c' ?_)
    rintro rfl
    exact Bool.false_ne_true (hvm.symm.trans hc'.2)
  constructor
  case settled =>
    intro c' n' roots' hc'
    rw [htable]
    by_cases hne : c' = c
    · subst hne
      obtain ⟨rfl, rfl⟩ := Prod.mk.inj (Option.some.inj (h'.mounted.symm.trans hc'))
      exact ⟨d, MountTable.find?_insert_self _ n d, _,
        List.mem_append_right _ (List.mem_singleton_self _), ⟨owner, rfl⟩, h'.children, h'.new,
        h'.gained⟩
    · rw [h'.others c' hne] at hc'
      obtain ⟨d', hd', T', hT', hsettles⟩ := h.settled c' n' roots' hc'
      -- Who was mounted before has a record, so it is on another node.
      have hn : n' ≠ n := by
        rintro rfl
        rw [hfree] at hd'
        contradiction
      exact ⟨d', (MountTable.find?_insert_of_ne _ hn d).trans hd', T',
        List.mem_append_left _ hT', hsettles⟩
  case stays =>
    intro T' hT' c' n' owner' hmove
    rcases List.mem_append.mp hT' with hT' | hT'
    · refine (h.stays T' hT' c' n' owner' hmove).imp (fun hon ↦ ?_) hgone
      obtain ⟨roots', hc'⟩ := hon
      have hne : c' ≠ c := by
        rintro rfl
        rw [hc] at hc'
        contradiction
      exact ⟨roots', (h'.others c' hne).trans hc'⟩
    · obtain rfl := List.mem_singleton.mp hT'
      injection hmove with hc' hn' _ _
      subst hc' hn'
      exact .inl ⟨roots, h'.mounted⟩
  case left =>
    intro T' hT' c' hmove
    rcases List.mem_append.mp hT' with hT' | hT'
    · exact hgone (h.left T' hT' c' hmove)
    · obtain rfl := List.mem_singleton.mp hT'
      contradiction

theorem releases (hw : w.Prepared K V t) (haccords : w.Accords V t)
    (h' : w.Releases t c n d roots w') (hvm : d.vm = (w.component c).vm)
    (hc : (w.component c).mounted = some (n, roots)) :
    w'.Recalls t (turns ++ [⟨.unmount c true, w, w'⟩]) := by
  have htable := h'.table_eq hw
  have hself : w'.Departed c := ⟨h'.mounted, (h'.persists.vm c).trans hvm.symm ▸ h'.disposed⟩
  have hgone {c' : ComponentId} (hc' : w.Departed c') : w'.Departed c' := by
    by_cases hne : c' = c
    · exact hne ▸ hself
    · exact hc'.of_persists h'.persists (h'.others c' hne)
  constructor
  case settled =>
    intro c' n' roots' hc'
    have hne : c' ≠ c := by
      rintro rfl
      rw [h'.mounted] at hc'
      contradiction
    rw [h'.others c' hne] at hc'
    -- Nobody else is mounted on the node, so no record of others is taken out.
    have hn : n' ≠ n := fun heq ↦ hne (haccords.alone c' c n roots' roots (heq ▸ hc') hc)
    obtain ⟨d', hd', T', hT', hsettles⟩ := h.settled c' n' roots' hc'
    rw [htable]
    exact ⟨d', (MountTable.find?_erase_of_ne _ hn).trans hd', T', List.mem_append_left _ hT',
      hsettles⟩
  case stays =>
    intro T' hT' c' n' owner hmove
    rcases List.mem_append.mp hT' with hT' | hT'
    · by_cases hne : c' = c
      · exact .inr (hne ▸ hself)
      · refine (h.stays T' hT' c' n' owner hmove).imp (fun hon ↦ ?_) hgone
        exact hon.imp fun roots' hc' ↦ (h'.others c' hne).trans hc'
    · obtain rfl := List.mem_singleton.mp hT'
      contradiction
  case left =>
    intro T' hT' c' hmove
    rcases List.mem_append.mp hT' with hT' | hT'
    · exact hgone (h.left T' hT' c' hmove)
    · obtain rfl := List.mem_singleton.mp hT'
      injection hmove with hc' _
      exact hc' ▸ hself

end Recalls

/-- What holds between two moves. -/
structure Orderly (K : C → Prop) (V : ViewModelId → Prop) (t : TableId) (turns : List (Turn C H))
    (w : World C H) : Prop where
  prepared : w.Prepared K V t
  accords : w.Accords V t
  recalls : w.Recalls t turns

theorem Orderly.idles (h : w.Orderly K V t turns) (h' : w.Idles t w') (hawaits : w'.Awaits K)
    (hmount : ∀ c n owner, T.move ≠ .mount c n owner (.ok ()))
    (hunmount : ∀ c, T.move ≠ .unmount c true) : w'.Orderly K V t (turns ++ [T]) where
  prepared := by
    obtain ⟨T, hT⟩ := h.prepared.table
    exact h.prepared.of_persists h'.persists h'.linked ⟨T, h'.table.trans hT⟩ hawaits
  accords := h.accords.idles h.prepared h'
  recalls := h.recalls.idles h.prepared h' hmount hunmount

end World

section Order

variable {client : Client C H} {K : C → Prop} {V : ViewModelId → Prop} {t : TableId}
  {st₀ st st' : LiveState C H} {turns : List (Turn C H)}

/-- One move leaves everything in order. -/
theorem Move.Ends.preserves (hclient : client.Harmless K) {move : Move}
    (h : st.world.Orderly K V t turns) (hends : move.Ends client t st st') :
    st'.world.Orderly K V t (turns ++ [⟨move, st.world, st'.world⟩]) := by
  have hprepared := h.prepared
  obtain ⟨T, hT⟩ := hprepared.table
  cases move with
  | mount c n owner answer =>
    obtain ⟨hn, fuel, hrun⟩ := hends
    obtain ⟨hawaits, hcases⟩ := Client.run_mount_cases hclient hprepared hn hrun
    rcases hcases with
      ⟨⟨e, rfl⟩, hidles⟩ | ⟨rfl, hmounted, hdisposed, hfree, d, roots, hreceives⟩
    · exact h.idles hidles hawaits (fun c n owner ↦ nofun) fun c ↦ nofun
    · constructor
      · exact hprepared.of_persists hreceives.persists hreceives.linked ⟨_, hreceives.table T hT⟩
          hawaits
      · exact h.accords.receives hprepared hreceives hfree hmounted
      · exact h.recalls.receives hprepared hreceives hfree hmounted hdisposed owner
  | unmount c answer =>
    obtain ⟨fuel, hrun⟩ := hends
    obtain ⟨hawaits, hcases⟩ := Client.run_unmount_cases hclient hprepared h.accords hrun
    rcases hcases with ⟨rfl, -, hidles⟩ | ⟨rfl, n, d, roots, hmounted, hd, hvm, hreleases⟩
    · exact h.idles hidles hawaits (fun c n owner ↦ nofun) fun c ↦ nofun
    · constructor
      · exact hprepared.of_persists hreleases.persists hreleases.linked ⟨_, hreleases.table T hT⟩
          hawaits
      · exact h.accords.releases hprepared hreleases hd hvm hmounted
      · exact h.recalls.releases hprepared h.accords hreleases hvm hmounted

/-- Whatever moves are run, everything stays in order. -/
theorem Succession.orderly (hclient : client.Harmless K) (hprepared : st₀.world.Prepared K V t)
    (hvacant : st₀.world.Vacant V t) (h : Succession client t st₀ turns st) :
    st.world.Orderly K V t turns := by
  induction h with
  | start =>
    refine ⟨hprepared, hvacant.accords, fun c n roots hc ↦ ?_, nofun, nofun⟩
    rw [hvacant.mounted] at hc
    contradiction
  | turn _ hlast ih => exact hlast.preserves hclient ih

end Order

/-! ## Residence -/

/-- What is so after any moves. -/
structure Residence (client : Client C H) (K : C → Prop) (V : ViewModelId → Prop) (t : TableId)
    (turns : List (Turn C H)) (st : LiveState C H) : Prop where
  /-- A node has an entry iff exactly one component is mounted on it. -/
  entry : ∀ n, (st.world.table t).isMounted n = true ↔ ∃! c, st.world.MountedOn c n
  /-- No component is mounted on two nodes. -/
  single : ∀ c n n', st.world.MountedOn c n → st.world.MountedOn c n' → n = n'
  /-- Who was mounted on a node is mounted there, or is gone. -/
  stays : ∀ T ∈ turns, ∀ c n owner, T.move = .mount c n owner (.ok ()) →
    st.world.MountedOn c n ∨ st.world.Departed c
  /-- What is recorded is what came when the component was mounted. -/
  record : ∀ c n roots, (st.world.component c).mounted = some (n, roots) →
    ∃ d, (st.world.table t).find? n = some d ∧ d.vm = (st.world.component c).vm ∧
      ∃ T ∈ turns, T.Settles c n d roots
  /-- A ledger is the table, as far as it is for the view-model. -/
  ledger : ∀ vm, V vm → (st.world.ledgerOf vm).entries = (st.world.table t).bindingsOf vm
  /-- So it holds the bindings of the components that are mounted, and no others. -/
  bindings : ∀ vm, V vm → ∀ e, e ∈ (st.world.ledgerOf vm).entries ↔
    ∃ c n roots d, (st.world.component c).mounted = some (n, roots) ∧
      (st.world.component c).vm = vm ∧ (st.world.table t).find? n = some d ∧ e ∈ d.owned
  /-- Unmounting answers whether the component was mounted. -/
  answer : ∀ (c : ComponentId) fuel answer st',
    client.run fuel (c.unmount t) st = some (answer, st') →
    (answer = true ↔ ∃ n, st.world.MountedOn c n)
  /-- If it was, the nodes that came then are taken out, and nothing else. -/
  removal : ∀ (c : ComponentId) fuel answer st' n roots,
    client.run fuel (c.unmount t) st = some (answer, st') →
    (st.world.component c).mounted = some (n, roots) →
      roots ⊆ (st.world.nodes.get n).children ∧
      (st'.world.nodes.get n).children = (st.world.nodes.get n).children.filter (· ∉ roots) ∧
      ∀ m ≠ n, (st'.world.nodes.get m).children = (st.world.nodes.get m).children
  /-- Unmounting comes to an end if hooks do. -/
  returns : client.Answers K → ∀ c : ComponentId, ∃ fuel, client.Returns fuel (c.unmount t) st
  /-- A component that was unmounted is gone, and every mount with its view-model is refused. -/
  gone : ∀ T ∈ turns, ∀ c, T.move = .unmount c true → st.world.Departed c ∧
    ∀ (c' : ComponentId) template, (st.world.component c').vm = (st.world.component c).vm →
      (st.world.component c').template = some template → ∀ fuel n owner,
        ∃ e, client.run fuel (c'.mount t n owner) st = some (.error e, st)

namespace World.Orderly

variable {client : Client C H} {K : C → Prop} {V : ViewModelId → Prop} {t : TableId}
  {st : LiveState C H} {turns : List (Turn C H)} (h : st.world.Orderly K V t turns)

include h

theorem isMounted_iff (n : NodeId) :
    (st.world.table t).isMounted n = true ↔ ∃! c, st.world.MountedOn c n := by
  constructor
  · intro hmounted
    cases hd : (st.world.table t).find? n with
    | none =>
      rw [MountTable.isMounted_eq_false.mpr hd] at hmounted
      contradiction
    | some d =>
      obtain ⟨c, roots, hc⟩ := h.accords.owner n d hd
      exact ⟨c, ⟨roots, hc⟩, fun c' ⟨roots', hc'⟩ ↦ h.accords.alone c' c n roots' roots hc' hc⟩
  · rintro ⟨c, ⟨roots, hc⟩, -⟩
    obtain ⟨d, hd, -⟩ := h.accords.record c n roots hc
    by_contra hnot
    rw [MountTable.isMounted_eq_false.mp (Bool.eq_false_iff.mpr hnot)] at hd
    contradiction

theorem mem_ledger_iff {vm : ViewModelId} (hvm : V vm) (e : BindingId × Binding C) :
    e ∈ (st.world.ledgerOf vm).entries ↔
      ∃ c n roots d, (st.world.component c).mounted = some (n, roots) ∧
        (st.world.component c).vm = vm ∧ (st.world.table t).find? n = some d ∧ e ∈ d.owned := by
  rw [h.accords.ledger vm hvm, h.accords.distinct.mem_bindingsOf]
  constructor
  · rintro ⟨n, d, hd, rfl, he⟩
    obtain ⟨c, roots, hc⟩ := h.accords.owner n d hd
    obtain ⟨d', hd', hvm', -⟩ := h.accords.record c n roots hc
    obtain rfl : d = d' := Option.some.inj (hd.symm.trans hd')
    exact ⟨c, n, roots, d, hc, hvm'.symm, hd, he⟩
  · rintro ⟨c, n, roots, d, hc, rfl, hd, he⟩
    obtain ⟨d', hd', hvm', -⟩ := h.accords.record c n roots hc
    obtain rfl : d = d' := Option.some.inj (hd.symm.trans hd')
    exact ⟨n, d, hd, hvm', he⟩

theorem removal (hclient : client.Harmless K) {c : ComponentId} {fuel : Nat} {answer : Bool}
    {st' : LiveState C H} {n : NodeId} {roots : List NodeId}
    (hrun : client.run fuel (c.unmount t) st = some (answer, st'))
    (hc : (st.world.component c).mounted = some (n, roots)) :
    roots ⊆ (st.world.nodes.get n).children ∧
      (st'.world.nodes.get n).children = (st.world.nodes.get n).children.filter (· ∉ roots) ∧
      ∀ m ≠ n, (st'.world.nodes.get m).children = (st.world.nodes.get m).children := by
  have hparent := h.accords.parent c n roots hc
  obtain ⟨-, hcases⟩ := Client.run_unmount_cases hclient h.prepared h.accords hrun
  rcases hcases with ⟨-, hnone, -⟩ | ⟨-, n', d, roots', hc', -, -, hreleases⟩
  · rw [hc] at hnone
    contradiction
  · obtain ⟨rfl, rfl⟩ := Prod.mk.inj (Option.some.inj (hc.symm.trans hc'))
    refine ⟨fun r hr ↦ (h.prepared.linked.mem_children n r).mpr (hparent r hr),
      hreleases.children n, fun m hm ↦ ?_⟩
    -- What is taken out has another parent.
    rw [hreleases.children m]
    refine List.filter_eq_self.mpr fun r hr ↦ decide_eq_true fun hmem ↦ hm ?_
    have hother := (h.prepared.linked.mem_children m r).mp hr
    exact Option.some.inj (hother.symm.trans (hparent r hmem))

end World.Orderly

/-- Who is gone is refused, and so is everyone who has the same view-model. -/
theorem World.Departed.refused {client : Client C H} {t : TableId} {st : LiveState C H}
    {c c' : ComponentId} (hgone : st.world.Departed c) {template : NodeId}
    (hvm : (st.world.component c').vm = (st.world.component c).vm)
    (htemplate : (st.world.component c').template = some template) (fuel : Nat) (n : NodeId)
    (owner : Option ViewModelId) :
    ∃ e, client.run fuel (c'.mount t n owner) st = some (.error e, st) := by
  cases hrefusal : st.world.refusal? c' t n with
  | none =>
    obtain ⟨-, hdisposed, -⟩ := (World.refusal?_eq_none htemplate).mp hrefusal
    rw [hvm, hgone.2] at hdisposed
    contradiction
  | some e => exact ⟨e, Client.run_mount_of_refusal hrefusal⟩

/-- **Components come and go in order.** Take any components whose templates were compiled with the
directives of this library, whether they share view-models or not, and one mount table. Let hooks
leave alone nodes, ledgers, tables and components, and begin with nothing mounted. Then whatever is
mounted and unmounted, and whatever is answered, components, mount table and ledgers tell the same
about who is mounted where, unmounting undoes what mounting has done, and who was unmounted is
gone. -/
theorem Succession.residence {client : Client C H} {K : C → Prop} {V : ViewModelId → Prop}
    {t : TableId} {st₀ st : LiveState C H} {turns : List (Turn C H)} (hclient : client.Harmless K)
    (hprepared : st₀.world.Prepared K V t) (hvacant : st₀.world.Vacant V t)
    (hturns : Succession client t st₀ turns st) : Residence client K V t turns st := by
  have h := hturns.orderly hclient hprepared hvacant
  constructor
  case entry => exact h.isMounted_iff
  case single =>
    rintro c n n' ⟨roots, hc⟩ ⟨roots', hc'⟩
    exact (Prod.mk.inj (Option.some.inj (hc.symm.trans hc'))).1
  case stays => exact h.recalls.stays
  case record =>
    intro c n roots hc
    obtain ⟨d, hd, hvm, -⟩ := h.accords.record c n roots hc
    obtain ⟨d', hd', hsettles⟩ := h.recalls.settled c n roots hc
    obtain rfl : d = d' := Option.some.inj (hd.symm.trans hd')
    exact ⟨d, hd, hvm, hsettles⟩
  case ledger => exact h.accords.ledger
  case bindings => exact fun vm hvm ↦ h.mem_ledger_iff hvm
  case answer =>
    intro c fuel answer st' hrun
    obtain ⟨-, hcases⟩ := Client.run_unmount_cases hclient h.prepared h.accords hrun
    rcases hcases with ⟨rfl, hnone, -⟩ | ⟨rfl, n, d, roots, hc, -⟩
    · refine iff_of_false Bool.false_ne_true ?_
      rintro ⟨n, roots, hc⟩
      rw [hnone] at hc
      contradiction
    · exact iff_of_true rfl ⟨n, roots, hc⟩
  case removal => exact fun c fuel answer st' n roots ↦ h.removal hclient
  case returns =>
    rintro ⟨fuel, hanswers⟩ c
    exact ⟨fuel + 1, Client.returns_unmount hclient hanswers h.prepared h.accords⟩
  case gone =>
    intro T hT c hmove
    have hgone := h.recalls.left T hT c hmove
    exact ⟨hgone, fun c' template hvm htemplate fuel n owner ↦
      hgone.refused hvm htemplate fuel n owner⟩

/-! ### Lodgers -/

namespace Lodger

/-- Its hooks count, and nothing else. -/
def client : Client Unit Nat where
  perform _ := Live.change fun w ↦ { w with host := w.host + 1 }
  bind _ _ _ _ := pure (.error "never")
  link _ _ _ := pure (.ok ())

def compiler : Compiler Unit := { registry := .builtin }

def template : Tree NodeId := .fragment ⟨0⟩ [.element ⟨1⟩ "p" [("v-text", "name")] []]

def room (n : Nat) : Tree NodeId := .element ⟨n⟩ "div" [] []

/-- The template and two rooms, and two components that share a view-model. -/
def state : LiveState Unit Nat where
  graph := .empty
  world := {
    nodes := (((NodeStore.empty.plant template).2.plant (room 2)).2.plant (room 3)).2
    viewModels := #[⟨[], ⟨0⟩, ⟨0⟩, false, false⟩]
    ledgers := #[.empty]
    lifecycles := #[{ mounted := [()], destroy := [()] }]
    tables := #[.empty]
    components := #[⟨"front", ⟨0⟩, some ⟨0⟩, (compiler.compile template).1, none⟩,
      ⟨"back", ⟨0⟩, some ⟨0⟩, (compiler.compile template).1, none⟩]
    host := 0 }

/-- Both move in, and one moves out. -/
def script : Live Unit Nat (Except MountError Unit × Nat × Except MountError Unit × Bool) := do
  let front ← ComponentId.mount ⟨0⟩ ⟨0⟩ ⟨2⟩ none
  let size ← Live.ask fun w ↦ w.nodes.size
  let back ← ComponentId.mount ⟨1⟩ ⟨0⟩ ⟨3⟩ none
  let left ← ComponentId.unmount ⟨0⟩ ⟨0⟩
  return (front, size, back, left)

theorem harmless : client.Harmless fun _ ↦ True := by
  intro code fuel st st' _ hst hrun
  obtain ⟨-, rfl⟩ := Prod.mk.inj (Option.some.inj hrun)
  exact ⟨.of_eq rfl rfl rfl rfl rfl, hst.of_eq rfl⟩

theorem run_script : (client.run 3 script state).map (·.1) = some (.ok (), 6, .ok (), true) := by
  decide +kernel

theorem prepared : state.world.Prepared (fun _ ↦ True) (· = ⟨0⟩) ⟨0⟩ := by
  have hempty := NodeStore.Extends.refl NodeStore.Linked.empty
  have htemplate := (hempty.plant template).2.2.linked
  have hroom := ((NodeStore.Extends.refl htemplate).plant (room 2)).2.2.linked
  constructor
  · exact ((NodeStore.Extends.refl hroom).plant (room 3)).2.2.linked
  · exact ⟨.empty, rfl⟩
  · rintro vm rfl
    exact ⟨by decide, .empty, rfl, Ledger.sound_empty⟩
  · rintro vm vm' rfl rfl -
    rfl
  · rintro ⟨_ | _ | c⟩ hc
    · rfl
    · rfl
    · exact absurd hc (Nat.not_lt.mpr (Nat.le_add_left 2 c))
  · rintro ⟨_ | _ | c⟩ n hn
    · obtain rfl := Option.some.inj hn
      decide +kernel
    · obtain rfl := Option.some.inj hn
      decide +kernel
    · contradiction
  · rintro ⟨_ | _ | c⟩ hc
    · exact ⟨compiler, template, rfl, rfl⟩
    · exact ⟨compiler, template, rfl, rfl⟩
    · exact absurd hc (Nat.not_lt.mpr (Nat.le_add_left 2 c))
  · exact fun _ _ _ _ _ ↦ trivial

theorem vacant : state.world.Vacant (· = ⟨0⟩) ⟨0⟩ := by
  refine ⟨rfl, ?_, ?_⟩
  · rintro ⟨_ | _ | c⟩
    · rfl
    · rfl
    · rfl
  · rintro vm rfl
    rfl

/-- Two move in, and one of them moves out again. -/
theorem residence_of_two : ∃ (turns : List (Turn Unit Nat)) (st : LiveState Unit Nat),
    Succession client ⟨0⟩ state turns st ∧
    turns.map Turn.move = [.mount ⟨0⟩ ⟨2⟩ none (.ok ()), .mount ⟨1⟩ ⟨3⟩ none (.ok ()),
      .unmount ⟨0⟩ true] ∧
    Residence client (fun _ ↦ True) (· = ⟨0⟩) ⟨0⟩ turns st := by
  obtain ⟨⟨answers, st⟩, hrun, hanswers⟩ := Option.map_eq_some_iff.mp run_script
  obtain ⟨front, st₁, hfront, hrun⟩ := Meaning.exists_of_run_bind hrun
  obtain ⟨size, st₂, hsize, hrun⟩ := Meaning.exists_of_run_bind hrun
  obtain ⟨rfl, rfl⟩ := Prod.mk.inj (Option.some.inj hsize)
  obtain ⟨back, st₃, hback, hrun⟩ := Meaning.exists_of_run_bind hrun
  obtain ⟨left, st₄, hleft, hdone⟩ := Meaning.exists_of_run_bind hrun
  obtain ⟨rfl, rfl⟩ := Prod.mk.inj (Option.some.inj hdone)
  obtain ⟨rfl, hsize, rfl, rfl⟩ : front = .ok () ∧ st₁.world.nodes.size = 6 ∧ back = .ok () ∧
    left = true := by simpa using hanswers
  have hroom : (⟨3⟩ : NodeId).index < st₁.world.nodes.size := hsize ▸ by decide
  have hfirst : Move.Ends client ⟨0⟩ state st₁ (.mount ⟨0⟩ ⟨2⟩ none (.ok ())) :=
    ⟨by decide +kernel, 3, hfront⟩
  have hsecond : Move.Ends client ⟨0⟩ st₁ st₃ (.mount ⟨1⟩ ⟨3⟩ none (.ok ())) :=
    ⟨hroom, 3, hback⟩
  have hthird : Move.Ends client ⟨0⟩ st₃ st₄ (.unmount ⟨0⟩ true) := ⟨3, hleft⟩
  have hturns := ((Succession.start.turn hfirst).turn hsecond).turn hthird
  exact ⟨_, _, hturns, rfl, hturns.residence harmless prepared vacant⟩

end Lodger

end LiveMarkup
