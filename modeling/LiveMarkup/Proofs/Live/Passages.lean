import Mathlib.Logic.Relation
import LiveMarkup.Proofs.Live.Allowances
import LiveMarkup.Proofs.Live.Chores
import LiveMarkup.Proofs.Live.Occupancy
import LiveMarkup.Proofs.Live.Turns

/-!
# What can happen while components come and go

A run in which components are mounted and unmounted from anywhere is a sequence of few steps
(`Journal.Step`): a mount begins, fails or has succeeded; an unmount begins, has run its hooks, or
has come to its end; and between these all kinds of code run, which do not touch what mounting and
unmounting is about (`World.Rests`). That a run is such a sequence is shown by induction on fuel
(`Household.Rests.upholds`): what a hook does is done within a call.

Along all steps worlds grow (`World.Grows`): no view-model that was disposed becomes alive again,
and no identity of a binding that was handed out and has gone comes back to its ledger.
-/

namespace LiveMarkup

variable {C H α : Type}

/-! ## Worlds that grow -/

/-- Whether a ledger goes on from another one: what was handed out and is not there stays away. -/
structure Ledger.Outlives {β : Type} (l l' : Ledger β) : Prop where
  next : l.next ≤ l'.next
  old : ∀ i ∈ l'.ids, i.index < l.next → i ∈ l.ids

namespace Ledger.Outlives

variable {β : Type} {l l' l'' : Ledger β}

theorem refl (l : Ledger β) : l.Outlives l := ⟨Nat.le_refl _, fun _ hi _ ↦ hi⟩

theorem trans (h : l.Outlives l') (h' : l'.Outlives l'') : l.Outlives l'' :=
  ⟨Nat.le_trans h.next h'.next,
    fun i hi hlt ↦ h.old i (h'.old i hi (Nat.lt_of_lt_of_le hlt h.next)) hlt⟩

theorem register (l : Ledger β) (b : β) : l.Outlives (l.register b).2 where
  next := Nat.le_succ _
  old i hi hlt := by
    rw [ids, entries_register, List.map_append] at hi
    rcases List.mem_append.mp hi with hi | hi
    · exact hi
    · obtain rfl := List.mem_singleton.mp hi
      exact absurd hlt (Nat.lt_irrefl _)

theorem remove (l : Ledger β) (ids : List BindingId) : l.Outlives (l.remove ids) :=
  ⟨Nat.le_refl _, fun _ hi _ ↦ (mem_ids_remove.mp hi).1⟩

end Ledger.Outlives

namespace World

variable {w w' w'' : World C H} {vm : ViewModelId} {c : ComponentId} {t : TableId}

/-- Whether the view-models of all components exist, with their ledgers. -/
def Housed (w : World C H) : Prop :=
  ∀ c : ComponentId, c.index < w.components.size → w.Hosts (w.component c).vm

/-- What a world has for good. -/
structure Grows (w w' : World C H) : Prop where
  continues : w.Continues w'
  outlives : ∀ (i : Nat) (l : Ledger (Binding C)), w.ledgers[i]? = some l →
    ∃ l' : Ledger (Binding C), w'.ledgers[i]? = some l' ∧ l.Outlives l'
  disposed : ∀ vm, (w.viewModel vm).disposed = true → (w'.viewModel vm).disposed = true
  tables : w.tables.size ≤ w'.tables.size
  components : w.components.size ≤ w'.components.size
  vm : ∀ c, c.index < w.components.size → (w'.component c).vm = (w.component c).vm
  housed : w.Housed → w'.Housed

/-- What code may do while components come and go: it makes no component come or go. -/
structure Rests (w w' : World C H) : Prop where
  grows : w.Grows w'
  mounted : ∀ c, (w'.component c).mounted = (w.component c).mounted
  table : ∀ t, w'.table t = w.table t

namespace Grows

theorem refl (w : World C H) : w.Grows w :=
  ⟨.refl w, fun _ l hl ↦ ⟨l, hl, .refl l⟩, fun _ h ↦ h, Nat.le_refl _, Nat.le_refl _,
    fun _ _ ↦ rfl, fun h ↦ h⟩

theorem trans (h : w.Grows w') (h' : w'.Grows w'') : w.Grows w'' where
  continues := h.continues.trans h'.continues
  outlives i l hl := by
    obtain ⟨l', hl', hout⟩ := h.outlives i l hl
    obtain ⟨l'', hl'', hout'⟩ := h'.outlives i l' hl'
    exact ⟨l'', hl'', hout.trans hout'⟩
  disposed vm hvm := h'.disposed vm (h.disposed vm hvm)
  tables := Nat.le_trans h.tables h'.tables
  components := Nat.le_trans h.components h'.components
  vm c hc := (h'.vm c (Nat.lt_of_lt_of_le hc h.components)).trans (h.vm c hc)
  housed hw := h'.housed (h.housed hw)

/-- A change that makes neither components nor mount tables. -/
theorem of_step (hcontinues : w.Continues w')
    (houtlives : ∀ (i : Nat) (l : Ledger (Binding C)), w.ledgers[i]? = some l →
      ∃ l' : Ledger (Binding C), w'.ledgers[i]? = some l' ∧ l.Outlives l')
    (hdisposed : ∀ vm, (w.viewModel vm).disposed = true → (w'.viewModel vm).disposed = true)
    (htables : w'.tables.size = w.tables.size)
    (hcomponents : w'.components.size = w.components.size)
    (hvm : ∀ c, (w'.component c).vm = (w.component c).vm) : w.Grows w' :=
  ⟨hcontinues, houtlives, hdisposed, Nat.le_of_eq htables.symm, Nat.le_of_eq hcomponents.symm,
    fun c _ ↦ hvm c, fun hw c hc ↦ hvm c ▸ (hw c (hcomponents ▸ hc)).of_continues hcontinues⟩

theorem of_eq (hvm : w'.viewModels = w.viewModels) (hledgers : w'.ledgers = w.ledgers)
    (htables : w'.tables.size = w.tables.size) (hcomponents : w'.components = w.components) :
    w.Grows w' := by
  refine of_step (Spares.of_eq default hvm hledgers).continues
    (fun i l hl ↦ ⟨l, hledgers ▸ hl, .refl l⟩) (fun vm h ↦ ?_) htables
    (congrArg Array.size hcomponents) fun c ↦ ?_
  · rwa [viewModel, hvm]
  · rw [component, component, hcomponents]

theorem modifyComponent (w : World C H) (c : ComponentId)
    (mounted : Option (NodeId × List NodeId)) :
    w.Grows (w.modifyComponent c fun component ↦ { component with mounted }) := by
  refine of_step (Persists.modifyComponent w c mounted).continues (fun i l hl ↦ ⟨l, hl, .refl l⟩)
    (fun _ h ↦ h) rfl (Array.size_modify ..) fun c' ↦ ?_
  rw [component_modifyComponent]
  split
  · rfl
  · rfl

theorem modifyTable (w : World C H) (t : TableId) (f : MountTable C → MountTable C) :
    w.Grows (w.modifyTable t f) := of_eq rfl rfl (Array.size_modify ..) rfl

theorem modifyViewModel (w : World C H) (vm : ViewModelId) {f : ViewModel → ViewModel}
    (hledger : ∀ m, (f m).ledger = m.ledger)
    (hdisposed : ∀ m, m.disposed = true → (f m).disposed = true) :
    w.Grows (w.modifyViewModel vm f) := by
  refine of_step (Spares.modifyViewModel vm vm hledger w).continues
    (fun i l hl ↦ ⟨l, hl, .refl l⟩) (fun vm' h ↦ ?_) rfl rfl fun _ ↦ rfl
  rw [viewModel_modifyViewModel]
  split
  case isTrue heq => exact hdisposed _ (heq.1 ▸ h)
  case isFalse => exact h

theorem modifyLedger (w : World C H) (i : LedgerId) {f : Ledger (Binding C) → Ledger (Binding C)}
    (hsound : ∀ l, l.Sound → (f l).Sound) (houtlives : ∀ l : Ledger (Binding C), l.Outlives (f l)) :
    w.Grows (w.modifyLedger i f) := by
  refine of_step (.modifyLedger w i hsound) (fun j l hl ↦ ?_) (fun _ h ↦ h) rfl rfl fun _ ↦ rfl
  have hget : (w.modifyLedger i f).ledgers[j]? =
    if i.index = j then w.ledgers[j]?.map f else w.ledgers[j]? := Array.getElem?_modify ..
  by_cases hij : i.index = j
  · rw [if_pos hij, hl] at hget
    exact ⟨f l, hget, houtlives l⟩
  · rw [if_neg hij, hl] at hget
    exact ⟨l, hget, .refl l⟩

/-- The ledger of a view-model goes on. -/
theorem ledgerOf (h : w.Grows w') (hvm : w.Hosts vm) :
    (w.ledgerOf vm).Outlives (w'.ledgerOf vm) := by
  obtain ⟨l, hl, -⟩ := hvm.ledger
  obtain ⟨l', hl', hout⟩ := h.outlives _ l hl
  have hl' : w'.ledger? vm = some l' := by rw [ledger?, h.continues.ledger vm hvm.viewModel, hl']
  rwa [ledgerOf_of_ledger? hl, ledgerOf_of_ledger? hl']

end Grows

namespace Rests

theorem of_eq (hvm : w'.viewModels = w.viewModels) (hledgers : w'.ledgers = w.ledgers)
    (htables : w'.tables = w.tables) (hcomponents : w'.components = w.components) :
    w.Rests w' where
  grows := .of_eq hvm hledgers (congrArg Array.size htables) hcomponents
  mounted c := by rw [component, component, hcomponents]
  table t := by rw [World.table, World.table, htables]

end Rests

theorem table_modifyTable (w : World C H) (t t' : TableId) (f : MountTable C → MountTable C) :
    (w.modifyTable t f).table t' =
      if t' = t ∧ t.index < w.tables.size then f (w.table t') else w.table t' := by
  rw [table, table, modifyTable, Array.getD_eq_getD_getElem?, Array.getD_eq_getD_getElem?,
    Array.getElem?_modify]
  by_cases hne : t' = t
  · subst hne
    by_cases hlt : t'.index < w.tables.size
    · simp [hlt]
    · simp [hlt]
  · have hindex : t.index ≠ t'.index := fun heq ↦ hne (congrArg TableId.mk heq).symm
    rw [if_neg hindex, if_neg fun h ↦ hne h.1]

end World

/-- The rules for code that makes no component come or go. What calls and the bodies of effects do
is not its business. -/
def Rules.resting : Rules (World C H) (Call C) Call.Answer where
  own := World.Rests
  bodies _ _ := True
  asks _ _ := True
  answers _ _ _ _ := True

/-- Code of this library makes no component come or go. -/
theorem Rules.lenient_resting : (Rules.resting (C := C) (H := H)).Lenient where
  asks _ _ := trivial
  idle _ _ := .of_eq
  fields w _ _ := ⟨.modifyViewModel w _ (fun _ ↦ rfl) fun _ h ↦ h, fun _ ↦ rfl, fun _ ↦ rfl⟩
  register w _ b := ⟨.modifyLedger w _ (fun l ↦ (Ledger.Gains.register l b).sound)
    fun l ↦ .register l b, fun _ ↦ rfl, fun _ ↦ rfl⟩
  remove w i ids := ⟨.modifyLedger w i (fun _ hl ↦ hl.remove ids) fun l ↦ .remove l ids,
    fun _ ↦ rfl, fun _ ↦ rfl⟩

/-! ## Steps -/

namespace Journal

/-- What can happen to a world and its journal at once. -/
inductive Step : World C H × Journal C H → World C H × Journal C H → Prop where
  | rest {w w' : World C H} {j : Journal C H} (rests : w.Rests w') : Step (w, j) (w', j)
  | enter {w : World C H} {j : Journal C H} {c : ComponentId} {t : TableId} {n : NodeId}
    (free : w.refusal? c t n = none) : Step (w, j) (w, j.enter c t n)
  | fail {w : World C H} {j : Journal C H} {c : ComponentId} {t : TableId} {n : NodeId}
    {phases : List (Phase C)} (innermost : j.underWay = .carrying c t n :: phases) :
    Step (w, j) (w, j.fail)
  | settle {w : World C H} {j : Journal C H} {c : ComponentId} {t : TableId} {n copy : NodeId}
    {d : Disposer C} {phases : List (Phase C)} (innermost : j.underWay = .carrying c t n :: phases)
    (known : c.index < w.components.size) (scope : d.vm = (w.component c).vm)
    (recorded : d.ids ⊆ (w.ledgerOf d.vm).ids) :
    Step (w, j) (w.settled c t n copy d, j.settle c t n d (w.modifyTable t fun T ↦ T.insert n d))
  | leave {w : World C H} {j : Journal C H} {c : ComponentId} {t : TableId} {n : NodeId}
    {roots : List NodeId} (mounted : (w.component c).mounted = some (n, roots)) :
    Step (w, j) (w.modifyComponent c fun k ↦ { k with mounted := none }, j.leave c t n)
  | clear {w : World C H} {j : Journal C H} {c : ComponentId} {t : TableId} {n : NodeId}
    {phases : List (Phase C)} (innermost : j.underWay = .leaving c t n :: phases) :
    Step (w, j) (w.modifyTable t fun T ↦ T.erase n, j.clear c t n ((w.table t).find? n))
  | finish {w : World C H} {j : Journal C H} {c : ComponentId} {t : TableId} {n : NodeId}
    {found : Option (Disposer C)} {roots : List NodeId} {phases : List (Phase C)}
    (innermost : j.underWay = .clearing c t n found :: phases)
    (known : c.index < w.components.size)
    (removed : ∀ d, found = some d → w.Lacks d) :
    Step (w, j) (w.cleared (w.component c).vm roots,
      j.finish c t (w.cleared (w.component c).vm roots))

/-- What can happen one after the other. -/
abbrev Steps : World C H × Journal C H → World C H × Journal C H → Prop :=
  Relation.ReflTransGen Step

variable {x y z : World C H × Journal C H}

/-- With every step the world grows. -/
theorem Step.grows (h : Step x y) : x.1.Grows y.1 := by
  cases h with
  | rest h => exact h.grows
  | enter _ => exact .refl _
  | fail _ => exact .refl _
  | @settle w j c t n copy d _ _ _ _ _ =>
    have hrecorded := World.Grows.modifyTable w t fun T ↦ T.insert n d
    have hmoved : (w.modifyTable t fun T ↦ T.insert n d).Grows
        ((w.modifyTable t fun T ↦ T.insert n d).modifyNodes fun nodes ↦ nodes.append n copy) :=
      .of_eq rfl rfl rfl rfl
    exact hrecorded.trans (hmoved.trans (.modifyComponent _ c _))
  | leave _ => exact .modifyComponent _ _ _
  | clear _ => exact .modifyTable _ _ _
  | @finish w _ _ _ _ _ roots _ _ _ _ =>
    have hdetached : w.Grows (w.modifyNodes fun nodes ↦ roots.foldl NodeStore.detach nodes) :=
      .of_eq rfl rfl rfl rfl
    exact hdetached.trans (.modifyViewModel _ _ (fun _ ↦ by rfl) fun _ _ ↦ by rfl)

theorem Steps.grows (h : Steps x y) : x.1.Grows y.1 := by
  induction h with
  | refl => exact .refl _
  | tail _ hstep ih => exact ih.trans hstep.grows

/-- What has happened has happened. -/
theorem Step.passages_prefix (h : Step x y) : x.2.passages <+: y.2.passages := by
  cases h with
  | rest _ => exact List.prefix_rfl
  | enter _ => exact List.prefix_append _ _
  | fail _ => exact List.prefix_rfl
  | settle _ _ _ _ => exact List.prefix_append _ _
  | leave _ => exact List.prefix_append _ _
  | clear _ => exact List.prefix_rfl
  | finish _ _ _ => exact List.prefix_append _ _

/-- What code does that ends all that it begins. -/
structure Comes (x y : World C H × Journal C H) : Prop where
  steps : Steps x y
  underWay : y.2.underWay = x.2.underWay

namespace Comes

theorem refl (x : World C H × Journal C H) : Comes x x := ⟨.refl, rfl⟩

theorem trans (h : Comes x y) (h' : Comes y z) : Comes x z :=
  ⟨h.steps.trans h'.steps, h'.underWay.trans h.underWay⟩

/-- What is begun is ended, with the same innermost phase. -/
theorem of_phase {f : Phase C} (hbegin : Steps x y) (hphase : y.2.underWay = f :: x.2.underWay)
    (hend : Steps y z) (htail : z.2.underWay = y.2.underWay.tail) : Comes x z :=
  ⟨hbegin.trans hend, by rw [htail, hphase, List.tail_cons]⟩

theorem of_rests {w w' : World C H} (h : w.Rests w') (j : Journal C H) : Comes (w, j) (w', j) :=
  ⟨.single (.rest h), rfl⟩

theorem within : (Rules.resting (C := C) (H := H)).Within Comes where
  refl := refl
  trans _ _ _ := trans
  own _ _ j h := of_rests h j
  bodies _ _ _ := trivial

end Comes

end Journal

/-! ## Runs -/

/-- Whether the live code in code that mounts and unmounts makes no component come or go. -/
def Chore.Rests : Chore C H α → World C H → Prop
  | .done _, _ => True
  | .live p k, w => p.Obeys .resting (fun b ↦ (k b).Rests) w
  | .mount _ _ _ _ k, _ => ∀ answer w', (k answer).Rests w'
  | .unmount _ _ k, _ => ∀ answer w', (k answer).Rests w'

/-- Whether a client's code makes components come and go only by mounting and unmounting them. -/
structure Household.Rests (η : Household C H) : Prop where
  perform : ∀ code w, (η.perform code).Rests w
  bind : ∀ code scope node descriptor w, (η.bind code scope node descriptor).Rests w
  link : ∀ code scope target w, (η.link code scope target).Rests w

namespace Household

open Journal

section Runs

variable {η : Household C H} {fuel : Nat}
  {st st' : State Value (Routine C) (World C H × Journal C H)}

theorem run_note {f : World C H → Journal C H → Journal C H} {u : Unit}
    (hrun : η.journaled.run fuel (Journaled.note f) st = some (u, st')) :
    st' = st.bare.beside (f st.world.1 st.world.2) :=
  (Prod.mk.inj (Option.some.inj hrun)).2.symm

variable (hup : (η.journaled.runner fuel).Upholds .resting Comes)

include hup

theorem comes_live {p : Live C H α} {post : α → World C H → Prop} {a : α}
    (hp : (Live.Triples.obeys .resting).holds (fun _ ↦ True) p post)
    (hrun : η.journaled.run fuel (Journaled.live p) st = some (a, st')) :
    Comes st.world st'.world ∧ post a st'.world.1 :=
  hup.run Comes.within hrun (hp st.world.1 trivial)

theorem comes_of_heeds {p : Live C H α} {a : α} (hp : Live.Triples.Heeds .resting p)
    (hrun : η.journaled.run fuel (Journaled.live p) st = some (a, st')) :
    Comes st.world st'.world := (comes_live hup hp hrun).1

/-- What code holds is not what mounting and unmounting is about. -/
theorem run_holding {hs : List (Held C)} {p : Journaled C H α} {a : α}
    (hrun : η.journaled.run fuel (Journaled.holding hs p) st = some (a, st')) :
    ∃ st₁ st₂, Comes st.world st₁.world ∧ η.journaled.run fuel p st₁ = some (a, st₂) ∧
      Comes st₂.world st'.world ∧ ∀ vm, st'.world.1.ledgerOf vm = st₂.world.1.ledgerOf vm := by
  obtain ⟨⟨⟩, st₁, hpush, hrun⟩ := Meaning.exists_of_run_bind hrun
  obtain ⟨b, st₂, hp, hrun⟩ := Meaning.exists_of_run_bind hrun
  obtain ⟨⟨⟩, st₃, hpop, hdone⟩ := Meaning.exists_of_run_bind hrun
  obtain ⟨rfl, rfl⟩ := Prod.mk.inj (Option.some.inj hdone)
  refine ⟨st₁, st₂, comes_of_heeds hup (.holdings Rules.lenient_resting (hs :: ·)) hpush, hp,
    comes_of_heeds hup (.holdings Rules.lenient_resting List.tail) hpop, fun vm ↦ ?_⟩
  obtain ⟨-, rfl⟩ := Prod.mk.inj (Option.some.inj hpop)
  rfl

/-- A mount fails; or what an execution has installed is recorded. -/
theorem run_carry {c : ComponentId} {t : TableId} {n : NodeId} {program : Option (Program C)}
    {scope : Scope} {target : Target} {answer : Except MountError Unit}
    (hrun : η.journaled.run fuel (Journaled.carry c t n program scope target) st =
      some (answer, st')) :
    ∃ w j, Comes st.world (w, j) ∧
      ((∃ e, answer = .error e) ∧ st'.world = (w, j.fail) ∨
        ∃ d : Disposer C, answer = .ok () ∧ d.vm = scope.vm ∧ d.ids ⊆ (w.ledgerOf d.vm).ids ∧
          st'.world = (w.modifyTable t fun T ↦ T.insert n d,
            j.settle c t n d (w.modifyTable t fun T ↦ T.insert n d))) := by
  obtain ⟨mounted, st₁, hask, hrun⟩ := Meaning.exists_of_run_bind hrun
  obtain ⟨-, rfl⟩ := Prod.mk.inj (Option.some.inj hask)
  cases mounted with
  | true =>
    obtain ⟨⟨⟩, st₂, hnote, hdone⟩ := Meaning.exists_of_run_bind hrun
    obtain rfl := run_note hnote
    obtain ⟨rfl, rfl⟩ := Prod.mk.inj (Option.some.inj hdone)
    exact ⟨_, _, .refl _, .inl ⟨⟨_, rfl⟩, rfl⟩⟩
  | false =>
    obtain ⟨result, st₂, hexecute, hrun⟩ := Meaning.exists_of_run_bind hrun
    obtain ⟨hcomes, hpost⟩ := comes_live hup
      (Live.Triples.execute_recorded Rules.lenient_resting program scope target) hexecute
    refine ⟨_, _, hcomes, ?_⟩
    cases result with
    | error e =>
      obtain ⟨⟨⟩, st₃, hnote, hdone⟩ := Meaning.exists_of_run_bind hrun
      obtain rfl := run_note hnote
      obtain ⟨rfl, rfl⟩ := Prod.mk.inj (Option.some.inj hdone)
      exact .inl ⟨⟨_, rfl⟩, rfl⟩
    | ok d =>
      obtain ⟨hvm, hrecorded⟩ := hpost d rfl
      obtain ⟨⟨⟩, st₃, hinsert, hrun⟩ := Meaning.exists_of_run_bind hrun
      obtain ⟨-, rfl⟩ := Prod.mk.inj (Option.some.inj hinsert)
      obtain ⟨⟨⟩, st₄, hnote, hdone⟩ := Meaning.exists_of_run_bind hrun
      obtain rfl := run_note hnote
      obtain ⟨rfl, rfl⟩ := Prod.mk.inj (Option.some.inj hdone)
      exact .inr ⟨d, rfl, hvm, hrecorded, rfl⟩

/-- Once it has begun, a mount fails or settles, and then its hooks run. -/
theorem comes_install {x : World C H × Journal C H} {c : ComponentId} {t : TableId}
    {n template : NodeId} {owner : Option ViewModelId} {answer : Except MountError Unit}
    (hfree : x.1.refusal? c t n = none) (hknown : c.index < x.1.components.size)
    (hst : st.world = (x.1, x.2.enter c t n))
    (hrun : η.journaled.run fuel (Journaled.install c t n owner (x.1.component c) template) st =
      some (answer, st')) : Comes x st'.world := by
  obtain ⟨copy, st₁, hclone, hrun⟩ := Meaning.exists_of_run_bind hrun
  obtain ⟨st₂, st₃, hpush, hrun, hpop, -⟩ := run_holding hup hrun
  obtain ⟨result, st₄, hcarry, hrun⟩ := Meaning.exists_of_run_bind hrun
  obtain ⟨w, j, hcomes, hcases⟩ := run_carry hup hcarry
  have hbefore : Comes (x.1, x.2.enter c t n) (w, j) := by
    have hcloned := comes_of_heeds hup (.editWith Rules.lenient_resting _) hclone
    rw [hst] at hcloned
    exact hcloned.trans (hpush.trans hcomes)
  have hbegin : Steps x (w, j) := .head (.enter hfree) hbefore.steps
  have hphase : j.underWay = .carrying c t n :: x.2.underWay := hbefore.underWay
  refine Comes.trans ?_ hpop
  rcases hcases with ⟨⟨e, rfl⟩, hst₄⟩ | ⟨d, rfl, hvm, hrecorded, hst₄⟩
  · obtain ⟨-, rfl⟩ := Prod.mk.inj (Option.some.inj hrun)
    rw [hst₄]
    exact .of_phase hbegin hphase (.single (.fail hphase)) rfl
  · obtain ⟨g, w₄, j₄⟩ := st₄
    obtain ⟨rfl, rfl⟩ := Prod.mk.inj hst₄
    obtain ⟨roots, st₅, hroots, hrun⟩ := Meaning.exists_of_run_bind hrun
    obtain ⟨rfl, rfl⟩ := Prod.mk.inj (Option.some.inj hroots)
    obtain ⟨⟨⟩, st₆, happend, hrun⟩ := Meaning.exists_of_run_bind hrun
    obtain ⟨-, rfl⟩ := Prod.mk.inj (Option.some.inj happend)
    obtain ⟨⟨⟩, st₇, hcomponent, hrun⟩ := Meaning.exists_of_run_bind hrun
    obtain ⟨-, rfl⟩ := Prod.mk.inj (Option.some.inj hcomponent)
    obtain ⟨lifecycle, st₈, hlifecycle, hrun⟩ := Meaning.exists_of_run_bind hrun
    obtain ⟨-, rfl⟩ := Prod.mk.inj (Option.some.inj hlifecycle)
    obtain ⟨⟨⟩, st₉, hhooks, hdone⟩ := Meaning.exists_of_run_bind hrun
    obtain ⟨-, rfl⟩ := Prod.mk.inj (Option.some.inj hdone)
    have hgrows : x.1.Grows w := hbegin.grows
    have hsettle : Step (w, j) (w.settled c t n copy d, _) :=
      .settle hphase (Nat.lt_of_lt_of_le hknown hgrows.components)
        (hvm.trans (hgrows.vm c hknown).symm) hrecorded
    have hafter := comes_of_heeds hup (.hooks Rules.lenient_resting lifecycle .mounted) hhooks
    exact .of_phase hbegin hphase (.head hsettle hafter.steps) hafter.underWay

theorem comes_mount {c : ComponentId} {t : TableId} {n : NodeId} {owner : Option ViewModelId}
    {answer : Except MountError Unit}
    (hrun : η.journaled.run fuel (Journaled.mount c t n owner) st = some (answer, st')) :
    Comes st.world st'.world := by
  obtain ⟨component, st₁, hask, hrun⟩ := Meaning.exists_of_run_bind hrun
  obtain ⟨rfl, rfl⟩ := Prod.mk.inj (Option.some.inj hask)
  cases htemplate : (st.world.1.component c).template with
  | none =>
    rw [htemplate] at hrun
    obtain ⟨-, rfl⟩ := Prod.mk.inj (Option.some.inj hrun)
    exact .refl _
  | some template =>
    rw [htemplate] at hrun
    cases hmounted : (st.world.1.component c).mounted.isSome with
    | true =>
      rw [hmounted] at hrun
      obtain ⟨-, rfl⟩ := Prod.mk.inj (Option.some.inj hrun)
      exact .refl _
    | false =>
      rw [hmounted] at hrun
      obtain ⟨disposed, st₁, hask, hrun⟩ := Meaning.exists_of_run_bind hrun
      obtain ⟨hdisposed, rfl⟩ := Prod.mk.inj (Option.some.inj hask)
      cases disposed with
      | true =>
        obtain ⟨-, rfl⟩ := Prod.mk.inj (Option.some.inj hrun)
        exact .refl _
      | false =>
        obtain ⟨taken, st₂, hask, hrun⟩ := Meaning.exists_of_run_bind hrun
        obtain ⟨htaken, rfl⟩ := Prod.mk.inj (Option.some.inj hask)
        cases taken with
        | true =>
          obtain ⟨-, rfl⟩ := Prod.mk.inj (Option.some.inj hrun)
          exact .refl _
        | false =>
          have hfree : st.world.1.refusal? c t n = none := (World.refusal?_eq_none htemplate).mpr
            ⟨Option.not_isSome_iff_eq_none.mp (Bool.eq_false_iff.mp hmounted), hdisposed, htaken⟩
          obtain ⟨⟨⟩, st₃, hnote, hrun⟩ := Meaning.exists_of_run_bind hrun
          obtain rfl := run_note hnote
          exact comes_install hup (x := st.world) hfree (World.lt_of_template htemplate) rfl hrun

/-- When destroy hooks have run, what is found is taken out and disposed. -/
theorem run_takeDown {c : ComponentId} {t : TableId} {n : NodeId} {answer : Bool}
    {phases : List (Phase C)} (hphase : st.world.2.underWay = .leaving c t n :: phases)
    (hrun : η.journaled.run fuel (Journaled.takeDown c t n) st = some (answer, st')) :
    ∃ found, Steps st.world st'.world ∧
      st'.world.2.underWay = .clearing c t n found :: phases ∧
      ∀ d, found = some d → st'.world.1.Lacks d := by
  obtain ⟨found, st₁, htake, hrun⟩ := Meaning.exists_of_run_bind hrun
  obtain ⟨hfound, rfl⟩ := Prod.mk.inj (Option.some.inj htake)
  have hclear : Step st.world
      (st.world.1.modifyTable t fun T ↦ T.erase n, st.world.2.clear c t n found) := by
    rw [← show (st.world.1.table t).find? n = found from hfound]
    exact .clear hphase
  have hclearing : (st.world.2.clear c t n found).underWay = .clearing c t n found :: phases := by
    rw [clear, hphase, List.tail_cons]
  obtain ⟨⟨⟩, st₂, hnote, hrun⟩ := Meaning.exists_of_run_bind hrun
  obtain rfl := run_note hnote
  refine ⟨found, ?_⟩
  cases found with
  | none =>
    obtain ⟨-, rfl⟩ := Prod.mk.inj (Option.some.inj hrun)
    exact ⟨.single hclear, hclearing, fun d hd ↦ nomatch hd⟩
  | some d =>
    obtain ⟨⟨⟩, st₃, hdispose, hdone⟩ := Meaning.exists_of_run_bind hrun
    obtain ⟨-, rfl⟩ := Prod.mk.inj (Option.some.inj hdone)
    obtain ⟨hcomes, hremoved⟩ := comes_live hup
      (Live.Triples.dispose_removed Rules.lenient_resting d) hdispose
    refine ⟨.head hclear hcomes.steps, hcomes.underWay.trans hclearing, ?_⟩
    rintro _ ⟨⟩
    exact hremoved

theorem comes_unmount {c : ComponentId} {t : TableId} {answer : Bool}
    (hrun : η.journaled.run fuel (Journaled.unmount c t) st = some (answer, st')) :
    Comes st.world st'.world := by
  obtain ⟨component, st₁, htake, hrun⟩ := Meaning.exists_of_run_bind hrun
  obtain ⟨rfl, rfl⟩ := Prod.mk.inj (Option.some.inj htake)
  cases hmounted : (st.world.1.component c).mounted with
  | none =>
    rw [hmounted] at hrun
    obtain ⟨-, rfl⟩ := Prod.mk.inj (Option.some.inj hrun)
    refine .of_rests ⟨.modifyComponent _ c _, fun c' ↦ ?_, fun _ ↦ rfl⟩ _
    rw [World.component_modifyComponent]
    split
    case isTrue heq => rw [heq.1, hmounted]
    case isFalse => rfl
  | some x =>
    obtain ⟨n, roots⟩ := x
    rw [hmounted] at hrun
    obtain ⟨⟨⟩, st₂, hnote, hrun⟩ := Meaning.exists_of_run_bind hrun
    obtain rfl := run_note hnote
    obtain ⟨⟨⟩, st₃, hholding, hrun⟩ := Meaning.exists_of_run_bind hrun
    obtain ⟨st₄, st₅, hpush, hheld, hpop, hledger⟩ := run_holding hup hholding
    obtain ⟨lifecycle, st₆, hlifecycle, hheld⟩ := Meaning.exists_of_run_bind hheld
    obtain ⟨-, rfl⟩ := Prod.mk.inj (Option.some.inj hlifecycle)
    obtain ⟨⟨⟩, st₇, hhooks, hheld⟩ := Meaning.exists_of_run_bind hheld
    obtain ⟨found, st₈, hdown, hdone⟩ := Meaning.exists_of_run_bind hheld
    obtain ⟨-, rfl⟩ := Prod.mk.inj (Option.some.inj hdone)
    obtain ⟨⟨⟩, st₉, hdetach, hrun⟩ := Meaning.exists_of_run_bind hrun
    obtain ⟨-, rfl⟩ := Prod.mk.inj (Option.some.inj hdetach)
    obtain ⟨⟨⟩, st₁₀, hdisposed, hrun⟩ := Meaning.exists_of_run_bind hrun
    obtain ⟨-, rfl⟩ := Prod.mk.inj (Option.some.inj hdisposed)
    obtain ⟨⟨⟩, st₁₁, hnote, hdone⟩ := Meaning.exists_of_run_bind hrun
    obtain rfl := run_note hnote
    obtain ⟨-, rfl⟩ := Prod.mk.inj (Option.some.inj hdone)
    have hbefore :=
      hpush.trans (comes_of_heeds hup (.hooks Rules.lenient_resting _ .destroy) hhooks)
    obtain ⟨found, hdown, hclearing, hremoved⟩ := run_takeDown hup hbefore.underWay hdown
    have hphase : st₃.world.2.underWay = .clearing c t n found :: st.world.2.underWay :=
      hpop.underWay.trans hclearing
    have hbegin : Steps st.world st₇.world := .head (.leave hmounted) hbefore.steps
    have hsteps : Steps st.world st₃.world := hbegin.trans (hdown.trans hpop.steps)
    have hknown : c.index < st.world.1.components.size := World.lt_of_mounted hmounted
    have hvm : (st₃.world.1.component c).vm = (st.world.1.component c).vm :=
      hsteps.grows.vm c hknown
    have hfinish : Step st₃.world (st₃.world.1.cleared (st.world.1.component c).vm roots,
        st₃.world.2.finish c t (st₃.world.1.cleared (st.world.1.component c).vm roots)) := by
      rw [← hvm]
      refine .finish hphase
        (Nat.lt_of_lt_of_le hknown hsteps.grows.components) fun d hd i hi ↦ ?_
      rw [hledger]
      exact hremoved d hd i hi
    refine .of_phase hbegin hbefore.underWay ((hdown.trans hpop.steps).tail hfinish) ?_
    exact (congrArg List.tail hphase).trans (congrArg List.tail hbefore.underWay).symm

theorem comes_chore {code : Chore C H α} {a : α}
    (hrun : η.journaled.run fuel code.journaled st = some (a, st'))
    (hcode : code.Rests st.world.1) : Comes st.world st'.world := by
  induction code generalizing st with
  | done _ =>
    obtain ⟨-, rfl⟩ := Prod.mk.inj (Option.some.inj hrun)
    exact .refl _
  | live p k ih =>
    obtain ⟨b, st₁, hp, hk⟩ := Meaning.exists_of_run_bind hrun
    obtain ⟨hcomes, hb⟩ := hup.run Comes.within hp hcode
    exact hcomes.trans (ih b hk hb)
  | mount c t n owner k ih =>
    obtain ⟨answer, st₁, hmount, hk⟩ := Meaning.exists_of_run_bind hrun
    exact (comes_mount hup hmount).trans (ih answer hk (hcode answer _))
  | unmount c t k ih =>
    obtain ⟨answer, st₁, hunmount, hk⟩ := Meaning.exists_of_run_bind hrun
    exact (comes_unmount hup hunmount).trans (ih answer hk (hcode answer _))

end Runs

theorem Rests.upholds {η : Household C H} (h : η.Rests) (fuel : Nat) :
    (η.journaled.runner fuel).Upholds .resting Comes := by
  -- What a hook does runs within a call, so on less fuel than the mount or unmount around it.
  induction fuel with
  | zero =>
    constructor
    · intro b st st' hrun
      cases hrun
    · intro q st a st' _ hrun
      cases hrun
  | succ fuel ih =>
    constructor
    · intro b st st' hrun
      rw [Meaning.runner_succ_body] at hrun
      obtain ⟨⟨⟨⟩, st₁⟩, hbody, rfl⟩ := Option.map_eq_some_iff.mp hrun
      exact comes_of_heeds ih (.script Rules.lenient_resting b) hbody
    · intro q st a st' _ hrun
      rw [Meaning.runner_succ_call] at hrun
      refine ⟨?_, trivial⟩
      cases q with
      | perform code => exact comes_chore ih hrun (h.perform code _)
      | bind code scope node descriptor =>
        exact comes_chore ih hrun (h.bind code scope node descriptor _)
      | link code scope target => exact comes_chore ih hrun (h.link code scope target _)
      | resume => exact comes_of_heeds ih (.resume Rules.lenient_resting) hrun

/-- **A run is a sequence of steps**, whatever hooks do. -/
theorem Rests.steps {η : Household C H} (h : η.Rests) {fuel : Nat} {code : Chore C H α}
    {st st' : LiveState C H} {a : α} (hcode : code.Rests st.world)
    (hrun : η.client.run fuel code.plain st = some (a, st')) :
    ∃ j, η.journaled.run fuel code.journaled (st.beside {}) = some (a, st'.beside j) ∧
      Steps (st.world, {}) (st'.world, j) := by
  obtain ⟨j, hjournaled⟩ := η.exists_journal hrun
  have hcomes := comes_chore (h.upholds fuel) hjournaled hcode
  exact ⟨j, hjournaled, hcomes.steps⟩

end Household

end LiveMarkup
