import LiveMarkup.Live.Client
import LiveMarkup.Proofs.Reactive.Run

/-!
# How code ends

`Runner.Yields` says that code ends, with which answer, and in which state; `Runner.Links` says of
code that can fail that it ends and does not fail. For every way in which code is put together there
is one lemma, so that the run of a longer piece of code is found step by step.
-/

namespace LiveMarkup

variable {C H α β : Type}

/-- What live code works on: the reactive graph and the world. -/
abbrev LiveState (C H : Type) : Type := State Value (Routine C) (World C H)

/-- What carries out the bodies and calls of live code. -/
abbrev LiveRunner (C H : Type) : Type :=
  Runner Value (Routine C) (World C H) (Call C) Call.Answer

/-- The state with another world. -/
def State.withWorld {V R W : Type} (st : State V R W) (w : W) : State V R W :=
  { st with world := w }

@[simp] theorem State.world_withWorld {V R W : Type} (st : State V R W) (w : W) :
    (st.withWorld w).world = w := rfl

@[simp] theorem State.graph_withWorld {V R W : Type} (st : State V R W) (w : W) :
    (st.withWorld w).graph = st.graph := rfl

/-- The ledger of a view-model, if there is one. -/
def World.ledger? (w : World C H) (vm : ViewModelId) : Option (Ledger (Binding C)) :=
  w.ledgers[(w.viewModel vm).ledger.index]?

/-- The ledger of a view-model, where there is one, is the one that the model looks up. -/
theorem World.ledgerOf_of_ledger? {w : World C H} {vm : ViewModelId} {l : Ledger (Binding C)}
    (h : w.ledger? vm = some l) : w.ledgerOf vm = l := by
  rw [World.ledger?] at h
  rw [World.ledgerOf, World.ledger, Array.getD_eq_getD_getElem?, h, Option.getD_some]

namespace Application

/-- Binds a directive to a node, and enters the binding into the ledger. -/
def enter (a : Application C) (scope : Scope) (node : NodeId) : Linking C H Unit := do
  match ← Linking.live (a.bind scope node) with
  | .error reason => throw (.directive a.descriptor.name reason)
  | .ok binding =>
    Linking.live (Live.change fun w ↦
      w.modifyLedger (w.viewModel scope.vm).ledger fun l ↦ (l.register binding).2)

variable {a : Application C} {attr : String} (scope : Scope) (node : NodeId)

theorem apply_of_none (h : a.descriptor.sourceAttr = none) :
    (a.apply scope node : Linking C H Unit) = a.enter scope node := by
  rw [apply, h]
  rfl

theorem apply_of_retain (h : a.directive.retain = true) :
    (a.apply scope node : Linking C H Unit) = a.enter scope node := by
  rw [apply, h]
  cases a.descriptor.sourceAttr <;> rfl

theorem apply_of_some (h : a.descriptor.sourceAttr = some attr) (hr : a.directive.retain = false) :
    (a.apply scope node : Linking C H Unit) =
      Linking.live (Live.edit fun nodes ↦ nodes.removeAttribute node attr) >>= fun _ ↦
        a.enter scope node := by
  rw [apply, h, hr]
  rfl

end Application

/-- The state in which a binding was entered into the ledger of a view-model. -/
def State.register (st : LiveState C H) (vm : ViewModelId) (b : Binding C) : LiveState C H :=
  st.withWorld (st.world.modifyLedger (st.world.viewModel vm).ledger fun l ↦ (l.register b).2)

@[simp] theorem State.nodes_register (st : LiveState C H) (vm : ViewModelId) (b : Binding C) :
    (st.register vm b).world.nodes = st.world.nodes := rfl

theorem State.ledger?_register (st : LiveState C H) (vm : ViewModelId) (b : Binding C) :
    (st.register vm b).world.ledger? vm =
      (st.world.ledger? vm).map fun l ↦ (l.register b).2 := by
  have hvm : (st.register vm b).world.viewModel vm = st.world.viewModel vm := rfl
  rw [World.ledger?, hvm, World.ledger?]
  exact (Array.getElem?_modify ..).trans (if_pos rfl)

namespace Runner

/-- Whether code ends with an answer in a state. -/
def Yields (r : LiveRunner C H) (limit : Nat) (p : Live C H α) (st : LiveState C H) (a : α)
    (st' : LiveState C H) : Prop := r.run limit p st = some (a, st')

/-- Whether code ends with an answer in a state, and does not fail. -/
def Links (r : LiveRunner C H) (limit : Nat) (p : Linking C H α) (st : LiveState C H) (a : α)
    (st' : LiveState C H) : Prop := r.Yields limit p.run st (.ok a) st'

variable {r : LiveRunner C H} {limit : Nat} {st st₁ st₂ : LiveState C H}

namespace Yields

theorem done (a : α) (st : LiveState C H) : r.Yields limit (pure a) st a st := rfl

/-- Code that is followed by other code goes on where it ends. -/
theorem run_bind {p : Live C H α} {f : α → Live C H β} {a : α} (h : r.Yields limit p st a st₁) :
    r.run limit (p >>= f) st = r.run limit (f a) st₁ := by
  change r.run limit (Script.bind p f) st = _
  rw [Runner.run_bind, h]
  rfl

theorem bind {p : Live C H α} {f : α → Live C H β} {a : α} {b : β}
    (h : r.Yields limit p st a st₁) (h' : r.Yields limit (f a) st₁ b st₂) :
    r.Yields limit (p >>= f) st b st₂ := h.run_bind.trans h'

theorem ask (f : World C H → α) (st : LiveState C H) :
    r.Yields limit (Live.ask f) st (f st.world) st := rfl

theorem change (f : World C H → World C H) (st : LiveState C H) :
    r.Yields limit (Live.change f) st () (st.withWorld (f st.world)) := rfl

theorem act (f : World C H → α × World C H) (st : LiveState C H) :
    r.Yields limit (Live.act f) st (f st.world).1 (st.withWorld (f st.world).2) := rfl

theorem edit (f : NodeStore → NodeStore) (st : LiveState C H) :
    r.Yields limit (Live.edit f) st () (st.withWorld (st.world.modifyNodes f)) := rfl

theorem editWith (f : NodeStore → α × NodeStore) (st : LiveState C H) :
    r.Yields limit (Live.editWith f) st (f st.world.nodes).1
      (st.withWorld { st.world with nodes := (f st.world.nodes).2 }) := rfl

theorem holding {hs : List (Held C)} {p : Live C H α} {a : α}
    (h : r.Yields limit p
      (st.withWorld { st.world with holdings := hs :: st.world.holdings }) a st₁) :
    r.Yields limit (Live.holding hs p) st a
      (st₁.withWorld { st₁.world with holdings := st₁.world.holdings.tail }) :=
  (change _ st).bind (h.bind ((change _ st₁).bind (done a _)))

/-- Code ends in one way only. -/
theorem unique {p : Live C H α} {a b : α} (h : r.Yields limit p st a st₁)
    (h' : r.Yields limit p st b st₂) : a = b ∧ st₁ = st₂ :=
  Prod.mk.inj (Option.some.inj (h.symm.trans h'))

end Yields

namespace Links

theorem done (a : α) (st : LiveState C H) : r.Links limit (pure a) st a st := rfl

theorem bind {p : Linking C H α} {f : α → Linking C H β} {a : α} {b : β}
    (h : r.Links limit p st a st₁) (h' : r.Links limit (f a) st₁ b st₂) :
    r.Links limit (p >>= f) st b st₂ := by
  rw [Links, ExceptT.run_bind]
  exact Yields.bind h h'

theorem live {p : Live C H α} {a : α} (h : r.Yields limit p st a st₁) :
    r.Links limit (Linking.live p) st a st₁ := by
  rw [Links, Linking.live, ExceptT.run_lift, ← bind_pure_comp]
  exact h.bind (Yields.done _ _)

theorem ofExcept {e : Except LinkError α} {a : α} (h : e = .ok a) (st : LiveState C H) :
    r.Links limit (Linking.ofExcept e) st a st := by
  subst h
  exact Yields.done _ _

theorem holding {hs : List (Held C)} {p : Linking C H α} {a : α}
    (h : r.Links limit p
      (st.withWorld { st.world with holdings := hs :: st.world.holdings }) a st₁) :
    r.Links limit (Linking.holding hs p) st a
      (st₁.withWorld { st₁.world with holdings := st₁.world.holdings.tail }) :=
  Yields.holding h

/-- A part of the code that cannot fail. -/
theorem bind_live {p : Live C H α} {f : α → Linking C H β} {a : α} {b : β}
    (h : r.Yields limit p st a st₁) (h' : r.Links limit (f a) st₁ b st₂) :
    r.Links limit (Linking.live p >>= f) st b st₂ :=
  (live h).bind h'

/-- Code ends in one way only. -/
theorem unique {p : Linking C H α} {a b : α} (h : r.Links limit p st a st₁)
    (h' : r.Links limit p st b st₂) : a = b ∧ st₁ = st₂ := by
  obtain ⟨hab, hst⟩ := Yields.unique h h'
  exact ⟨Except.ok.inj hab, hst⟩

end Links

end Runner

end LiveMarkup
