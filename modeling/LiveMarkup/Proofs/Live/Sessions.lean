import LiveMarkup.Proofs.Live.Books
import LiveMarkup.Proofs.Live.Rollback

/-!
# Sessions

Whatever is executed, entered, removed and disposed for one view-model, in any order: if the code
involved is disciplined, the books are right between any two operations, and a disposer that is
consumed disposes exactly what it owns (`Practice.Abides.books_kept`). What is gained by an
operation has identities from the mark on, and what is removed was owned by one disposer or made
directly, so each operation is one of the two changes that the books allow.

It follows that nothing is disposed twice (`Practice.Abides.disposed_once`). Here it matters that
code drops the disposers of its own executions, or consumes them before it ends: what an execution
owns includes what was executed while its program was carried out, so a nested disposer that is kept
and the outer one are two for the same binding (`Keeping.disposed_twice`).
-/

namespace LiveMarkup

variable {C H : Type}

/-- What holds between two operations of a session: `l` is the ledger of the view-model, and its
books are right. What was disposed is not in it, and nothing was disposed twice. -/
structure Books.Upright (client : Client C H) (vm : ViewModelId) (bk : Books C)
    (x : World C H × Minutes) (l : Ledger (Binding C)) : Prop where
  hosts : x.1.Hosts vm
  ledger? : x.1.ledger? vm = some l
  kept : bk.Kept vm l
  gentle : ∀ d ∈ bk.held, ∀ e ∈ d.owned, e.2.Gentle client vm x.1
  once : x.2.Nodup
  gone : ∀ b ∈ x.2, b.index < l.next ∧ b ∉ l.ids

namespace Books.Upright

variable {client : Client C H} {vm : ViewModelId} {bk bk' : Books C} {x y : World C H × Minutes}
  {l l' : Ledger (Binding C)} {new part : List (BindingId × Binding C)} {gone : List BindingId}

theorem gain (h : bk.Upright client vm x l) (hcontinues : x.1.Continues y.1)
    (hledger : y.1.ledger? vm = some l') (hg : l.Gains l' new gone) (hminutes : y.2 = x.2 ++ gone)
    (hentries : bk'.entries.Perm (bk.entries ++ new))
    (hheld : ∀ d ∈ bk'.held,
      d ∈ bk.held ∨ d = ⟨vm, new⟩ ∧ ∀ e ∈ new, e.2.Gentle client vm y.1)
    (hmade : bk'.made = bk.made ++ new.map Prod.fst) : bk'.Upright client vm y l' where
  hosts := h.hosts.of_continues hcontinues
  ledger? := hledger
  kept := h.kept.gain hg hentries (fun d hd ↦ (hheld d hd).imp_right And.left) hmade
  gentle d hd e he := by
    rcases hheld d hd with hd | ⟨rfl, hnew⟩
    · exact (h.gentle d hd e he).of_continues hcontinues
    · exact hnew e he
  once := by
    rw [hminutes]
    refine List.nodup_append.mpr ⟨h.once, hg.nodup.of_append_left, fun a ha b hb hab ↦ ?_⟩
    exact Nat.not_lt.mpr (hg.gone_issued hb).1 (hab ▸ (h.gone a ha).1)
  gone b hb := by
    rw [hminutes] at hb
    rw [Ledger.ids, hg.entries, List.map_append, List.mem_append, not_or]
    rcases List.mem_append.mp hb with hb | hb
    · obtain ⟨hlt, hnot⟩ := h.gone b hb
      refine ⟨Nat.lt_of_lt_of_le hlt hg.next, hnot, fun hnew ↦ ?_⟩
      exact Nat.not_lt.mpr (hg.mem_issued hnew).1 hlt
    · -- What is gone was issued meanwhile, and is not what was kept.
      obtain ⟨hle, hlt⟩ := hg.gone_issued hb
      refine ⟨hlt, fun hold ↦ ?_, fun hnew ↦ List.disjoint_of_nodup_append hg.nodup hb hnew⟩
      exact Nat.not_lt.mpr hle (h.kept.sound.lt b hold)

theorem lose (h : bk.Upright client vm x l) (hcontinues : x.1.Continues y.1)
    (hledger : y.1.ledger? vm = some (l.remove (part.map Prod.fst)))
    (hminutes : y.2 = x.2 ++ gone) (hgone : gone.Sublist (part.map Prod.fst))
    (hentries : bk.entries.Perm (part ++ bk'.entries)) (hheld : bk'.held.Sublist bk.held)
    (hmade : bk'.made = bk.made) :
    bk'.Upright client vm y (l.remove (part.map Prod.fst)) := by
  have hall := (h.kept.entries.trans hentries).map Prod.fst
  rw [List.map_append] at hall
  have hpart : (part.map Prod.fst).Nodup :=
    (hall.nodup_iff.mp h.kept.sound.nodup).of_append_left
  have hin (b : BindingId) (hb : b ∈ gone) : b ∈ l.ids :=
    hall.symm.subset (List.mem_append_left _ (hgone.subset hb))
  constructor
  · exact h.hosts.of_continues hcontinues
  · exact hledger
  · exact h.kept.lose hentries hheld hmade
  · exact fun d hd e he ↦ (h.gentle d (hheld.subset hd) e he).of_continues hcontinues
  · rw [hminutes]
    refine List.nodup_append.mpr ⟨h.once, hpart.sublist hgone, fun a ha b hb hab ↦ ?_⟩
    exact (h.gone a ha).2 (hab ▸ hin b hb)
  · intro b hb
    rw [Ledger.mem_ids_remove]
    rw [hminutes] at hb
    rcases List.mem_append.mp hb with hb | hb
    · exact ⟨(h.gone b hb).1, fun hleft ↦ (h.gone b hb).2 hleft.1⟩
    · exact ⟨h.kept.sound.lt b (hin b hb), fun hleft ↦ hleft.2 (hgone.subset hb)⟩

end Books.Upright

section Runs

variable {π : Practice C H} {vm : ViewModelId} {fuel : Nat}
  {st st' : State Value (Routine C) (World C H × Minutes)} {bk bk' : Books C}
  {l : Ledger (Binding C)}
  (hup : ((π.minuted vm).runner fuel).Upholds
    (.around (π.client vm) vm (World.Enters (π.client vm) vm)) (Accounts (π.client vm) vm))

include hup

/-- A disposer is consumed: what it owns is disposed, in order, and its entries go. -/
theorem run_dispose_held {i : Nat} {d : Disposer C}
    (hrun : (π.minuted vm).run fuel ((Operation.dispose i).carry .minuted vm bk) st =
      some (bk', st')) (h : bk.Upright (π.client vm) vm st.world l) (hd : bk.held[i]? = some d) :
    bk' = { bk with held := bk.held.eraseIdx i } ∧ st.world.1.Continues st'.world.1 ∧
      st'.world.1.ledger? vm = some (l.remove d.ids) ∧ st'.world.2 = st.world.2 ++ d.ids := by
  have hmem : d ∈ bk.held := List.mem_of_getElem? hd
  rw [Operation.carry, hd] at hrun
  obtain ⟨⟨⟩, st₁, hdispose, hdone⟩ := Meaning.exists_of_run_bind hrun
  obtain ⟨rfl, rfl⟩ := Prod.mk.inj (Option.some.inj hdone)
  exact ⟨rfl, run_dispose hup (h.kept.vm d hmem) hdispose h.hosts h.ledger? (h.gentle d hmem)⟩

/-- One operation leaves the books right. -/
theorem run_operation {op : Operation C}
    (hrun : (π.minuted vm).run fuel (op.carry .minuted vm bk) st = some (bk', st'))
    (h : bk.Upright (π.client vm) vm st.world l) :
    ∃ l', bk'.Upright (π.client vm) vm st'.world l' := by
  cases op with
  | execute program owner placeholder target =>
    obtain ⟨result, st₁, hexecute, hdone⟩ := Meaning.exists_of_run_bind hrun
    obtain ⟨rfl, rfl⟩ := Prod.mk.inj (Option.some.inj hdone)
    obtain ⟨l₁, new, gone, linked, st₂, -, htally, hresult⟩ :=
      run_execute hup rfl hexecute h.hosts h.ledger?
    rcases hresult with ⟨-, rfl, rfl⟩ | ⟨e, -, rfl, hfailed⟩
    · -- All that is new belongs to the new disposer.
      refine ⟨l₁, h.gain htally.continues htally.after htally.gains htally.minutes ?_ ?_ rfl⟩
      · rw [bk.entries_execute_ok]
      · intro d hd
        rcases List.mem_append.mp hd with hd | hd
        · exact .inl hd
        · exact .inr ⟨List.mem_singleton.mp hd, htally.gentle⟩
    · -- Nothing is new, and the books stay as they are.
      refine ⟨_, h.gain hfailed.continues hfailed.after hfailed.gains hfailed.minutes ?_ ?_ ?_⟩
      · rw [List.append_nil]
        exact List.Perm.refl _
      · intro d hd
        exact .inl hd
      · exact (List.append_nil _).symm
  | register b =>
    obtain ⟨i, st₁, hact, hdone⟩ := Meaning.exists_of_run_bind hrun
    obtain ⟨rfl, rfl⟩ := Prod.mk.inj (Option.some.inj hdone)
    obtain ⟨hmark, rfl⟩ := Prod.mk.inj (Option.some.inj hact)
    have hledger := World.ledgerOf_of_ledger? h.ledger?
    obtain rfl : l.watermark = i :=
      (congrArg (fun l ↦ (l.register b).1) hledger.symm).trans hmark
    exact ⟨(l.register b).2, h.gain (World.continues_register _ vm b)
      (World.ledger?_modifyLedger_self h.ledger? _) (.register l b) (List.append_nil _).symm
      (bk.entries_register _ b) (fun d hd ↦ .inl hd) rfl⟩
  | remove i =>
    rw [Operation.carry] at hrun
    cases he : bk.direct[i]? with
    | none =>
      rw [he] at hrun
      obtain ⟨rfl, rfl⟩ := Prod.mk.inj (Option.some.inj hrun)
      exact ⟨l, h⟩
    | some e =>
      rw [he] at hrun
      obtain ⟨⟨⟩, st₁, hchange, hdone⟩ := Meaning.exists_of_run_bind hrun
      obtain ⟨rfl, rfl⟩ := Prod.mk.inj (Option.some.inj hdone)
      obtain ⟨-, rfl⟩ := Prod.mk.inj (Option.some.inj hchange)
      have hledger : (st.world.1.modifyLedger (st.world.1.viewModel vm).ledger
          fun l ↦ l.remove [e.1]).ledger? vm = some (l.remove ([e].map Prod.fst)) :=
        World.ledger?_modifyLedger_self h.ledger? _
      exact ⟨_, h.lose (.modifyLedger _ _ fun l hl ↦ hl.remove _) hledger
        (List.append_nil _).symm (List.nil_sublist _) (Books.entries_of_direct he)
        (List.Sublist.refl _) rfl⟩
  | dispose i =>
    cases hd : bk.held[i]? with
    | none =>
      rw [Operation.carry, hd] at hrun
      obtain ⟨rfl, rfl⟩ := Prod.mk.inj (Option.some.inj hrun)
      exact ⟨l, h⟩
    | some d =>
      obtain ⟨rfl, hcontinues, hledger, hminutes⟩ := run_dispose_held hup hrun h hd
      exact ⟨_, h.lose hcontinues hledger hminutes (List.Sublist.refl _)
        (Books.entries_of_held hd) (List.eraseIdx_sublist ..) rfl⟩

/-- A session leaves the books right. -/
theorem run_operations {ops : List (Operation C)}
    (hrun : (π.minuted vm).run fuel (Operation.carryAll .minuted vm ops bk) st = some (bk', st'))
    (h : bk.Upright (π.client vm) vm st.world l) :
    ∃ l', bk'.Upright (π.client vm) vm st'.world l' := by
  induction ops generalizing bk st l with
  | nil =>
    obtain ⟨rfl, rfl⟩ := Prod.mk.inj (Option.some.inj hrun)
    exact ⟨l, h⟩
  | cons op ops ih =>
    obtain ⟨bk₁, st₁, hop, hops⟩ := Meaning.exists_of_run_bind hrun
    obtain ⟨l₁, h₁⟩ := run_operation hup hop h
    exact ih hops h₁

end Runs

/-! ## Between two operations -/

/-- What there is to say after a session that began with the ledger `l₀`: `l` is the ledger at its
end, and `m` are the minutes. The operations up to any point of a session are a session. -/
structure Practice.KeepsBooks (π : Practice C H) (vm : ViewModelId) (fuel : Nat)
    (ops : List (Operation C)) (l₀ : Ledger (Binding C)) (bk : Books C) (st st' : LiveState C H)
    (l : Ledger (Binding C)) (m : Minutes) : Prop where
  ledger? : st'.world.ledger? vm = some l
  minutes : (π.minuted vm).run fuel (Operation.carryAll .minuted vm ops (.start l₀))
    (st.beside []) = some (bk, st'.beside m)
  kept : bk.Kept vm l
  /-- Different disposers own different bindings. -/
  apart : bk.held.Pairwise fun d d' ↦ d.ids.Disjoint d'.ids
  /-- If one of the disposers is consumed next, then just the bindings it owns are disposed, in
  order of creation, and all entries but theirs stay as they are. -/
  consume : ∀ i d bk' st'', bk.held[i]? = some d →
    (π.client vm).run fuel ((Operation.dispose i).carry .plain vm bk) st' = some (bk', st'') →
    (π.minuted vm).run fuel ((Operation.dispose i).carry .minuted vm bk) (st'.beside m) =
        some (bk', st''.beside (m ++ d.ids)) ∧
      BindingId.Ascending d.ids ∧ l.entries.filter (fun e ↦ d.ids.contains e.1) = d.owned ∧
      st''.world.ledger? vm = some (l.remove d.ids)

section Sessions

variable {π : Practice C H} {vm : ViewModelId} {fuel : Nat} {ops : List (Operation C)}
  {bk : Books C} {st st' : LiveState C H} {l₀ : Ledger (Binding C)}

/-- A session is carried out with minutes, and ends upright. -/
theorem Practice.Abides.exists_upright (hπ : π.Abides vm) (hst : st.world.Hosts vm)
    (hl₀ : st.world.ledger? vm = some l₀)
    (hrun : (π.client vm).run fuel (Operation.carryAll .plain vm ops (.start l₀)) st =
      some (bk, st')) :
    ∃ l m, (π.minuted vm).run fuel (Operation.carryAll .minuted vm ops (.start l₀))
        (st.beside []) = some (bk, st'.beside m) ∧
      bk.Upright (π.client vm) vm (st'.world, m) l := by
  obtain ⟨m, hminuted⟩ := π.exists_minuted vm
    ((π.mirrors_runner vm fuel).operations vm ops (.start l₀)) hrun []
  have hstart : (Books.start l₀).Upright (π.client vm) vm (st.world, []) l₀ :=
    ⟨hst, hl₀, .start vm (hst.sound hl₀), fun _ hd ↦ absurd hd List.not_mem_nil, List.nodup_nil,
      fun _ hb ↦ absurd hb List.not_mem_nil⟩
  obtain ⟨l, h⟩ := run_operations (hπ.upholds fuel) hminuted hstart
  exact ⟨l, m, hminuted, h⟩

/-- **The books are right.** Whatever is executed, entered, removed and consumed for one view-model,
in any order, the identities in its ledger ascend, they are those of the bindings that were entered
and not removed and of those owned by disposers that were not consumed, no identity is handed out
twice, and who consumes a disposer disposes what it owns, and nothing else. -/
theorem Practice.Abides.books_kept (hπ : π.Abides vm) (hst : st.world.Hosts vm)
    (hl₀ : st.world.ledger? vm = some l₀)
    (hrun : (π.client vm).run fuel (Operation.carryAll .plain vm ops (.start l₀)) st =
      some (bk, st')) :
    ∃ l m, π.KeepsBooks vm fuel ops l₀ bk st st' l m := by
  obtain ⟨l, m, hminuted, h⟩ := hπ.exists_upright hst hl₀ hrun
  refine ⟨l, m, h.ledger?, hminuted, h.kept, h.kept.apart, fun i d bk' st'' hd hdispose ↦ ?_⟩
  obtain ⟨m', hminuted'⟩ := π.exists_minuted vm
    ((π.mirrors_runner vm fuel).operation vm (.dispose i) bk) hdispose m
  obtain ⟨-, -, hledger, hminutes⟩ := run_dispose_held (hπ.upholds fuel) hminuted' h hd
  have hm' : m' = m ++ d.ids := hminutes
  have howned := h.kept.owned d (List.mem_of_getElem? hd)
  refine ⟨hm' ▸ hminuted', ?_, ?_, hledger⟩
  · exact h.kept.sound.ascending.sublist (howned.map Prod.fst)
  · exact Ledger.filter_contains_of_sublist howned h.kept.sound.nodup

/-- Two executions and a binding between them: the first disposer is consumed, then the binding is
removed, and something is executed again. -/
theorem Deed.books_kept_interleaved :
    ∃ bk st' l m, Deed.practice.KeepsBooks ⟨0⟩ 3
      [.execute (compiler.compile inner).1 none none (.node ⟨1⟩), .register (.client log),
        .execute (compiler.compile inner).1 none none (.node ⟨1⟩), .dispose 0, .remove 0,
        .execute (compiler.compile inner).1 none none (.node ⟨1⟩)]
      .empty bk state st' l m := by
  have hends : ((practice.client ⟨0⟩).run 3 (Operation.carryAll .plain ⟨0⟩
      [.execute (compiler.compile inner).1 none none (.node ⟨1⟩), .register (.client log),
        .execute (compiler.compile inner).1 none none (.node ⟨1⟩), .dispose 0, .remove 0,
        .execute (compiler.compile inner).1 none none (.node ⟨1⟩)]
      (.start .empty)) state).map (fun x ↦ (x.1.held.map Disposer.ids, x.1.made)) =
        some ([[⟨2⟩], [⟨3⟩]], [⟨0⟩, ⟨1⟩, ⟨2⟩, ⟨3⟩]) := by decide +kernel
  obtain ⟨⟨bk, st'⟩, hrun, -⟩ := Option.map_eq_some_iff.mp hends
  exact ⟨bk, st', (practice_abides ⟨0⟩).books_kept ⟨by decide, .empty, rfl, Ledger.sound_empty⟩
    rfl hrun⟩

/-! ## At most once -/

/-- **No binding is disposed twice**, as long as a disposer of a nested execution is not kept: the
code that got it drops it, or consumes it before it ends. What was disposed during a session was
disposed once, and is not in the ledger any more. -/
theorem Practice.Abides.disposed_once (hπ : π.Abides vm) (hst : st.world.Hosts vm)
    (hl₀ : st.world.ledger? vm = some l₀)
    (hrun : (π.client vm).run fuel (Operation.carryAll .plain vm ops (.start l₀)) st =
      some (bk, st')) :
    ∃ l m, st'.world.ledger? vm = some l ∧
      (π.minuted vm).run fuel (Operation.carryAll .minuted vm ops (.start l₀)) (st.beside []) =
        some (bk, st'.beside m) ∧
      m.Nodup ∧ ∀ b ∈ m, b.index < l.next ∧ b ∉ l.ids := by
  obtain ⟨l, m, hminuted, h⟩ := hπ.exists_upright hst hl₀ hrun
  exact ⟨l, m, h.ledger?, hminuted, h.once, h.gone⟩

/-- A directive executes something twice and consumes one of the disposers; then the outer disposer
is consumed. -/
theorem Deed.nested_disposed_once :
    ∃ (bk : Books Deed) (st' : LiveState Deed Unit) (l : Ledger (Binding Deed)) (m : Minutes),
      st'.world.ledger? ⟨0⟩ = some l ∧
      (practice.minuted ⟨0⟩).run 3 (Operation.carryAll .minuted ⟨0⟩
        [.execute (compiler.compile nesting).1 none none (.node ⟨2⟩), .dispose 0]
        (.start .empty)) (state.beside []) = some (bk, st'.beside m) ∧
      m.Nodup ∧ ∀ b ∈ m, b.index < l.next ∧ b ∉ l.ids := by
  have hends : ((practice.client ⟨0⟩).run 3 (Operation.carryAll .plain ⟨0⟩
      [.execute (compiler.compile nesting).1 none none (.node ⟨2⟩), .dispose 0]
      (.start .empty)) state).map (fun x ↦ x.1.made) = some [⟨1⟩, ⟨2⟩] := by decide +kernel
  obtain ⟨⟨bk, st'⟩, hrun, -⟩ := Option.map_eq_some_iff.mp hends
  exact ⟨bk, st', (practice_abides ⟨0⟩).disposed_once
    ⟨by decide, .empty, rfl, Ledger.sound_empty⟩ rfl hrun⟩

end Sessions

/-! ### A nested disposer that is kept

The outer execution owns what the nested one has installed. So whoever keeps the nested disposer,
and consumes both, disposes that twice. -/

/-- The code of a client that keeps disposers: a directive, and a program that executes it. -/
inductive Keeping where
  | item
  | outer

/-- The disposers that the client keeps, and how often its binding was disposed. -/
structure Shelf where
  kept : List (Disposer Keeping) := []
  disposals : Nat := 0

namespace Keeping

/-- The program of a template with nothing but the directive. -/
def inner : Option (Program Keeping) :=
  some (.terminal ⟨.ofDirective "item" "" "v-item",
    { terminal := true, behaviour := .client item }⟩)

def client : Client Keeping Shelf where
  perform _ := Live.change fun w ↦
    { w with host := { w.host with disposals := w.host.disposals + 1 } }
  bind _ _ _ _ := pure (.ok (.client item))
  link _ scope target := do
    match ← Live.execute inner scope target with
    | .ok d =>
      Live.change fun w ↦ { w with host := { w.host with kept := d :: w.host.kept } }
      return .ok ()
    | .error e => return .error e

/-- Consumes disposers, one after the other. -/
def disposeAll : List (Disposer Keeping) → Live Keeping Shelf Unit
  | [] => return ()
  | d :: ds => do
    d.dispose
    disposeAll ds

/-- Executes the outer program and consumes its disposer, and then the one that was kept. -/
def consumeBoth : Live Keeping Shelf Unit := do
  match ← Live.execute (some (.client false 0 outer)) ⟨⟨0⟩, none, none⟩ (.node ⟨0⟩) with
  | .ok d => disposeAll (d :: (← Live.ask fun w ↦ w.host.kept))
  | .error _ => return ()

/-- A single node, and a view-model without fields. -/
def state : LiveState Keeping Shelf where
  graph := .empty
  world := {
    nodes := (NodeStore.empty.plant (Tree.element (⟨0⟩ : NodeId) "p" [("v-item", "")] [])).2
    viewModels := #[⟨[], ⟨0⟩, ⟨0⟩, false, false⟩]
    ledgers := #[.empty]
    host := {} }

/-- One binding is entered, and it is disposed twice. -/
theorem disposed_twice :
    ∃ st', client.run 3 consumeBoth state = some ((), st') ∧
      st'.world.ledger? ⟨0⟩ = some ⟨[], 1⟩ ∧ st'.world.host.disposals = 2 := by
  have hends : (client.run 3 consumeBoth state).map (fun x ↦
      ((x.2.world.ledger? ⟨0⟩).map fun l ↦ (l.ids, l.next), x.2.world.host.disposals)) =
        some (some ([], 1), 2) := by decide +kernel
  obtain ⟨⟨⟨⟩, st'⟩, hrun, hst'⟩ := Option.map_eq_some_iff.mp hends
  obtain ⟨hledger, hdisposals⟩ := Prod.mk.inj hst'
  obtain ⟨⟨entries, next⟩, hl, hl'⟩ := Option.map_eq_some_iff.mp hledger
  obtain ⟨hids, rfl⟩ := Prod.mk.inj hl'
  obtain rfl := List.map_eq_nil_iff.mp hids
  exact ⟨st', hrun, hl, hdisposals⟩

end Keeping

end LiveMarkup
