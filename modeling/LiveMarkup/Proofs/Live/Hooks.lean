import LiveMarkup.Proofs.Live.Occupancy
import LiveMarkup.Proofs.Live.Turns

/-!
# Hooks

A hook is a client's code, so it can do anything. What is said about components that come and go
holds if hooks leave alone what it is about (`Client.Harmless`). They may write fields, make further
hooks wait and work on a client's own data, and they may dispose view-models: that a view-model is
disposed only ever matters for who can be mounted next.

Code is known to come to an end or not in a state (`Client.Returns`), with some fuel.
-/

namespace LiveMarkup

variable {C H : Type}

/-! ## Runs that come to an end -/

/-- Whether a script comes to an end in a state. -/
def Client.Returns {α : Type} (client : Client C H) (fuel : Nat) (p : Live C H α)
    (st : LiveState C H) : Prop := ∃ a st', client.run fuel p st = some (a, st')

namespace Client

variable {α β : Type} {client : Client C H} {fuel : Nat} {st : LiveState C H}

theorem Returns.bind {p : Live C H α} {f : α → Live C H β} (h : client.Returns fuel p st)
    (hf : ∀ a st', client.run fuel p st = some (a, st') → client.Returns fuel (f a) st') :
    client.Returns fuel (p.bind f) st := by
  obtain ⟨a, st₁, hp⟩ := h
  obtain ⟨b, st', hb⟩ := hf a st₁ hp
  exact ⟨b, st', (run_bind_of_run hp).trans hb⟩

theorem returns_holding {hs : List (Held C)} {p : Live C H α}
    (h : client.Returns fuel p (st.withHoldings (hs :: st.world.holdings))) :
    client.Returns fuel (Live.holding hs p) st := by
  refine Returns.bind ⟨_, _, rfl⟩ fun _ st₁ hpush ↦ ?_
  obtain ⟨-, rfl⟩ := Prod.mk.inj (Option.some.inj hpush)
  exact Returns.bind h fun _ _ _ ↦ ⟨_, _, rfl⟩

end Client

/-! ## What hooks leave alone -/

namespace World

variable {K : C → Prop} {w w' w'' : World C H} {vm : ViewModelId}

/-- Whether nodes, ledgers, mount tables and components are as they were, and view-models are, but
for their fields; one may have been disposed. -/
structure Stands (w w' : World C H) : Prop where
  nodes : w'.nodes = w.nodes
  ledgers : w'.ledgers = w.ledgers
  tables : w'.tables = w.tables
  components : w'.components = w.components
  viewModels : w.viewModels.size ≤ w'.viewModels.size
  ledger : ∀ vm, vm.index < w.viewModels.size → (w'.viewModel vm).ledger = (w.viewModel vm).ledger
  disposed : ∀ vm, (w.viewModel vm).disposed = true → (w'.viewModel vm).disposed = true

namespace Stands

theorem refl (w : World C H) : w.Stands w :=
  ⟨rfl, rfl, rfl, rfl, Nat.le_refl _, fun _ _ ↦ rfl, fun _ h ↦ h⟩

theorem trans (h : w.Stands w') (h' : w'.Stands w'') : w.Stands w'' where
  nodes := h'.nodes.trans h.nodes
  ledgers := h'.ledgers.trans h.ledgers
  tables := h'.tables.trans h.tables
  components := h'.components.trans h.components
  viewModels := Nat.le_trans h.viewModels h'.viewModels
  ledger vm hvm := (h'.ledger vm (Nat.lt_of_lt_of_le hvm h.viewModels)).trans (h.ledger vm hvm)
  disposed vm hvm := h'.disposed vm (h.disposed vm hvm)

/-- What code holds, and which hooks wait, does not matter. -/
theorem of_eq (hnodes : w'.nodes = w.nodes) (hledgers : w'.ledgers = w.ledgers)
    (htables : w'.tables = w.tables) (hcomponents : w'.components = w.components)
    (hvm : w'.viewModels = w.viewModels) : w.Stands w' := by
  have hviewModel (vm : ViewModelId) : w'.viewModel vm = w.viewModel vm := by
    rw [viewModel, viewModel, hvm]
  refine ⟨hnodes, hledgers, htables, hcomponents, Nat.le_of_eq (congrArg Array.size hvm.symm),
    fun vm _ ↦ ?_, fun vm h ↦ ?_⟩
  · rw [hviewModel]
  · rwa [hviewModel]

theorem component (h : w.Stands w') (c : ComponentId) : w'.component c = w.component c := by
  rw [World.component, World.component, h.components]

theorem table? (h : w.Stands w') (t : TableId) : w'.table? t = w.table? t := by
  rw [World.table?, World.table?, h.tables]

theorem table (h : w.Stands w') (t : TableId) : w'.table t = w.table t := by
  rw [World.table, World.table, h.tables]

theorem ledgerOf (h : w.Stands w') (hvm : vm.index < w.viewModels.size) :
    w'.ledgerOf vm = w.ledgerOf vm := by
  rw [World.ledgerOf, World.ledgerOf, World.ledger, World.ledger, h.ledger vm hvm, h.ledgers]

theorem persists (h : w.Stands w') : w.Persists w' where
  continues := ⟨h.viewModels, h.ledger, fun _ l hl hsound ↦ ⟨l, h.ledgers ▸ hl, hsound⟩⟩
  disposed := h.disposed
  kinds := h.nodes ▸ .refl _ _ _
  size := congrArg Array.size h.components
  components c := ⟨(w.component c).mounted, h.component c⟩

end Stands

theorem Awaits.of_eq (h : w.Awaits K) (heq : w'.lifecycles = w.lifecycles) : w'.Awaits K := by
  rw [Awaits, heq]
  exact h

/-- The hooks that are taken out are of the kind, and so are those that are left. -/
theorem Awaits.drain (h : w.Awaits K) (i : LifecycleId) (moment : Moment) :
    (∀ code ∈ ((w.lifecycle i).drain moment).1, K code) ∧
      (w.modifyLifecycle i fun _ ↦ ((w.lifecycle i).drain moment).2).Awaits K := by
  have hpending (moment : Moment) : ∀ code ∈ (w.lifecycle i).pending moment, K code := by
    rw [lifecycle, Array.getD_eq_getD_getElem?]
    cases hi : w.lifecycles[i.index]? with
    | none =>
      cases moment with
      | mounted => exact fun _ hcode ↦ absurd hcode List.not_mem_nil
      | destroy => exact fun _ hcode ↦ absurd hcode List.not_mem_nil
    | some l => exact h l (Array.mem_of_getElem? hi) moment
  refine ⟨fun code hcode ↦ hpending moment code ?_, fun l hl moment' code hcode ↦ ?_⟩
  · cases moment with
    | mounted => exact hcode
    | destroy => exact hcode
  · obtain ⟨j, hj⟩ := Array.mem_iff_getElem?.mp hl
    have hget : (w.modifyLifecycle i fun _ ↦ ((w.lifecycle i).drain moment).2).lifecycles[j]? =
        if i.index = j then w.lifecycles[j]?.map fun _ ↦ ((w.lifecycle i).drain moment).2
        else w.lifecycles[j]? := Array.getElem?_modify ..
    rw [hj] at hget
    split at hget
    · obtain ⟨_, -, rfl⟩ := Option.map_eq_some_iff.mp hget.symm
      refine hpending moment' code ?_
      cases moment with
      | mounted =>
        cases moment' with
        | mounted => exact absurd hcode List.not_mem_nil
        | destroy => exact hcode
      | destroy =>
        cases moment' with
        | mounted => exact hcode
        | destroy => exact absurd hcode List.not_mem_nil
    · exact h l (Array.mem_of_getElem? hget.symm) moment' code hcode

end World

/-! ## Running hooks -/

/-- Whether a client's hooks, which are its code of one kind, leave alone nodes, ledgers, mount
tables and components, and view-models but for their fields; they may dispose view-models, and make
further hooks wait. -/
def Client.Harmless (client : Client C H) (K : C → Prop) : Prop :=
  ∀ code fuel (st st' : LiveState C H), K code → st.world.Awaits K →
    client.run fuel (client.perform code) st = some ((), st') →
      st.world.Stands st'.world ∧ st'.world.Awaits K

/-- Whether a client's code of one kind comes to an end wherever it is performed. -/
def Client.Answers (client : Client C H) (K : C → Prop) : Prop :=
  ∃ fuel, ∀ code, K code → ∀ st, client.Returns fuel (client.perform code) st

namespace Client

variable {client : Client C H} {K : C → Prop} {fuel : Nat} {st st' : LiveState C H}

theorem run_performAll (hclient : client.Harmless K) {codes : List C}
    (hcodes : ∀ code ∈ codes, K code) (hst : st.world.Awaits K)
    (hrun : client.run fuel (LifecycleId.performAll codes) st = some ((), st')) :
    st.world.Stands st'.world ∧ st'.world.Awaits K := by
  induction codes generalizing st with
  | nil =>
    obtain ⟨-, rfl⟩ := Prod.mk.inj (Option.some.inj hrun)
    exact ⟨.refl _, hst⟩
  | cons code codes ih =>
    obtain ⟨hcode, hcodes⟩ := List.forall_mem_cons.mp hcodes
    obtain ⟨⟨⟩, st₁, hperform, hrest⟩ := Meaning.exists_of_run_bind hrun
    obtain ⟨fuel', hcodeRun⟩ := run_perform hperform
    obtain ⟨hstands, hawaits⟩ := hclient code fuel' st st₁ hcode hst hcodeRun
    obtain ⟨hstands', hawaits'⟩ := ih hcodes hawaits hrest
    exact ⟨hstands.trans hstands', hawaits'⟩

/-- Hooks are taken out before they are performed. -/
theorem run_hooks (hclient : client.Harmless K) {i : LifecycleId} {moment : Moment}
    (hst : st.world.Awaits K) (hrun : client.run fuel (i.run moment) st = some ((), st')) :
    st.world.Stands st'.world ∧ st'.world.Awaits K := by
  obtain ⟨codes, st₁, hdrain, hperform⟩ := Meaning.exists_of_run_bind hrun
  obtain ⟨rfl, rfl⟩ := Prod.mk.inj (Option.some.inj hdrain)
  obtain ⟨hcodes, hrest⟩ := hst.drain i moment
  obtain ⟨hstands, hawaits⟩ := run_performAll hclient hcodes hrest hperform
  have hdrained : st.world.Stands (st.world.modifyLifecycle i fun _ ↦
      ((st.world.lifecycle i).drain moment).2) := .of_eq rfl rfl rfl rfl rfl
  exact ⟨hdrained.trans hstands, hawaits⟩

theorem returns_performAll {codes : List C} (hcodes : ∀ code ∈ codes, K code)
    (hanswers : ∀ code, K code → ∀ st, client.Returns fuel (client.perform code) st)
    (st : LiveState C H) : client.Returns (fuel + 1) (LifecycleId.performAll codes) st := by
  induction codes generalizing st with
  | nil => exact ⟨(), st, rfl⟩
  | cons code codes ih =>
    obtain ⟨hcode, hcodes⟩ := List.forall_mem_cons.mp hcodes
    refine Returns.bind ?_ fun _ st₁ _ ↦ ih hcodes st₁
    obtain ⟨⟨⟩, st₁, hperform⟩ := hanswers code hcode st
    exact ⟨(), st₁, Option.bind_eq_some_iff.mpr ⟨((), st₁), hperform, rfl⟩⟩

theorem returns_hooks
    (hanswers : ∀ code, K code → ∀ st, client.Returns fuel (client.perform code) st)
    (hst : st.world.Awaits K) (i : LifecycleId) (moment : Moment) :
    client.Returns (fuel + 1) (i.run moment) st := by
  refine Returns.bind ⟨_, _, rfl⟩ fun codes st₁ hdrain ↦ ?_
  obtain ⟨rfl, rfl⟩ := Prod.mk.inj (Option.some.inj hdrain)
  exact returns_performAll (hst.drain i moment).1 hanswers _

end Client

end LiveMarkup
