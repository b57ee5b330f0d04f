import LiveMarkup.Proofs.Live.Yields
import LiveMarkup.Proofs.Reactive.Beside

/-!
# Minutes of what is disposed

Which bindings were disposed during a run, how often and in which order, is not to be seen in the
world afterwards. So there is a second manner of disposing (`Minuted.dispose`), which notes the
identity of each binding just before that is disposed and is otherwise the same. Only disposers
dispose bindings, so nothing else has to be noted; but an execution that fails consumes one, so
executing too can be done in either manner (`Manner.execute`).

The code of a client can execute programs itself, and this has to be noted as well. Such code is
written as a `Conduct`: live code, in which executions for one view-model stand out, with the
disposers that come of them. The code holds these disposers, may consume any of them once, and drops
the others when it ends. A `Practice` is a client whose code is all of that kind. It can be carried
out plainly (`Practice.client`) and with minutes (`Practice.minuted`), and the minutes change
nothing (`Practice.exists_minuted`).
-/

namespace LiveMarkup

variable {C H α β : Type}

/-- The identities of bindings that were disposed, in the order in which they were. -/
abbrev Minutes := List BindingId

/-- Live code that takes minutes. -/
abbrev Minuted (C H α : Type) : Type :=
  Script Value (Routine C) (World C H × Minutes) (Call C) Call.Answer α

/-- What carries out code that takes minutes. -/
abbrev MinutedRunner (C H : Type) : Type :=
  Runner Value (Routine C) (World C H × Minutes) (Call C) Call.Answer

namespace Minuted

/-- Code that leaves the minutes alone. -/
def live (p : Live C H α) : Minuted C H α := p.beside

/-- Takes down an identity. -/
def note (i : BindingId) : Minuted C H Unit :=
  Script.change (fun w ↦ (w.1, w.2 ++ [i])) (Script.done ())

/-- Runs code that holds some things until it ends. -/
def holding (hs : List (Held C)) (p : Minuted C H α) : Minuted C H α := do
  live (Live.change fun w ↦ { w with holdings := hs :: w.holdings })
  let a ← p
  live (Live.change fun w ↦ { w with holdings := w.holdings.tail })
  return a

/-- Undoes bindings in order, and notes each of them. -/
def disposeAll : List (BindingId × Binding C) → Minuted C H Unit
  | [] => return ()
  | (i, b) :: rest => do
    note i
    live b.dispose
    disposeAll rest

/-- Undoes what is owned, in order of creation, and removes it from the ledger. -/
def dispose (d : Disposer C) : Minuted C H Unit := do
  holding d.held (disposeAll d.owned)
  live (Live.change fun w ↦ w.modifyLedger (w.viewModel d.vm).ledger fun l ↦ l.remove d.ids)

end Minuted

/-! ## Manners -/

/-- Carries out a program, if there is one. -/
def Program.linkIfAny (scope : Scope) (target : Target) :
    Option (Program C) → Live C H (Except LinkError Unit)
  | some p => (p.link scope target).run
  | none => pure (.ok ())

/-- A manner of running live code and of disposing. -/
structure Manner (C H : Type) (M : Type → Type) where
  live : {β : Type} → Live C H β → M β
  dispose : Disposer C → M Unit

namespace Manner

/-- Live code as it is. -/
def plain : Manner C H (Live C H) := ⟨fun p ↦ p, Disposer.dispose⟩

/-- Live code with minutes. -/
def minuted : Manner C H (Minuted C H) := ⟨Minuted.live, Minuted.dispose⟩

variable {M : Type → Type} [Monad M] (manner : Manner C H M)

/-- What an execution does when its program has ended: it answers what was installed since a mark,
or undoes it. -/
def settle (vm : ViewModelId) (mark : BindingId) :
    Except LinkError Unit → M (Except LinkError (Disposer C))
  | .ok () => do return .ok (← manner.live (Live.ownedSince vm mark))
  | .error e => do
    manner.dispose (← manner.live (Live.ownedSince vm mark))
    return .error e

/-- Carries out a program, if there is one, and answers what it has installed. If it fails, what it
has installed is undone first. -/
def execute (program : Option (Program C)) (scope : Scope) (target : Target) :
    M (Except LinkError (Disposer C)) := do
  let mark ← manner.live (Live.ask fun w ↦ (w.ledgerOf scope.vm).watermark)
  let result ← manner.live (Program.linkIfAny scope target program)
  manner.settle scope.vm mark result

theorem plain_execute (program : Option (Program C)) (scope : Scope) (target : Target) :
    (plain : Manner C H _).execute program scope target = Live.execute program scope target := by
  rw [execute, Live.execute]
  refine congrArg _ (funext fun mark ↦ ?_)
  cases program with
  | none => rfl
  | some p => rfl

end Manner

/-! ## Code that holds disposers -/

/-- Code that executes programs for one view-model and holds the disposers. -/
inductive Conduct (C H α : Type) : Type 1 where
  /-- The code has ended, and the disposers that it holds are dropped. -/
  | done (result : α)
  /-- Runs live code. -/
  | live {β : Type} (p : Live C H β) (next : β → Conduct C H α)
  /-- Executes a program and holds the disposer, if that succeeds. -/
  | execute (program : Option (Program C)) (owner : Option ViewModelId)
    (placeholder : Option NodeId) (target : Target)
    (next : Except LinkError (List BindingId) → Conduct C H α)
  /-- Consumes one of the disposers, if there are so many. -/
  | dispose (i : Nat) (next : Conduct C H α)

/-- Carries out code, which executes for a view-model and holds some disposers already. -/
def Conduct.carry {M : Type → Type} [Monad M] (manner : Manner C H M) (vm : ViewModelId) :
    Conduct C H α → List (Disposer C) → M α
  | .done a, _ => pure a
  | .live p k, ds => do
    let b ← manner.live p
    (k b).carry manner vm ds
  | .execute program owner placeholder target k, ds => do
    match ← manner.execute program ⟨vm, owner, placeholder⟩ target with
    | .ok d => (k (.ok d.ids)).carry manner vm (ds ++ [d])
    | .error e => (k (.error e)).carry manner vm ds
  | .dispose i k, ds => do
    match ds[i]? with
    | some d =>
      manner.dispose d
      k.carry manner vm (ds.eraseIdx i)
    | none => k.carry manner vm ds

/-- A client all of whose code executes programs for one view-model only, and holds the
disposers. -/
structure Practice (C H : Type) : Type 1 where
  /-- Performs code: of an effect, a hook, or a binding that is disposed. -/
  perform : C → Conduct C H Unit
  /-- Makes the binding of a directive on a node, or gives a reason not to. -/
  bind : C → Scope → NodeId → Descriptor → Conduct C H (Except String (Binding C))
  /-- Carries out a program of the client's own. -/
  link : C → Scope → Target → Conduct C H (Except LinkError Unit)

namespace Practice

/-- The client, as it executes for a view-model. -/
def client (π : Practice C H) (vm : ViewModelId) : Client C H where
  perform code := (π.perform code).carry .plain vm []
  bind code scope node descriptor := (π.bind code scope node descriptor).carry .plain vm []
  link code scope target := (π.link code scope target).carry .plain vm []

/-- What bodies and calls mean when minutes are taken. -/
def minuted (π : Practice C H) (vm : ViewModelId) :
    Meaning Value (Routine C) (World C H × Minutes) (Call C) Call.Answer where
  body b := Minuted.live b.script
  call
    | .perform code => (π.perform code).carry .minuted vm []
    | .bind code scope node descriptor => (π.bind code scope node descriptor).carry .minuted vm []
    | .link code scope target => (π.link code scope target).carry .minuted vm []
    | .resume => Minuted.live Live.resume

end Practice

/-! ## Minutes change nothing -/

namespace Runner.Mirrors

variable {r' : MinutedRunner C H} {r : LiveRunner C H} {limit : Nat}

theorem note_bind {p' : Minuted C H α} {p : Live C H α} (h : r'.Follows r limit p' p)
    (i : BindingId) : r'.Follows r limit (Minuted.note i >>= fun _ ↦ p') p :=
  h.note fun _ m ↦ m ++ [i]

theorem disposeAll (h : r'.Mirrors r) (owned : List (BindingId × Binding C)) :
    r'.Follows r limit (Minuted.disposeAll owned) (Disposer.disposeAll owned) := by
  induction owned with
  | nil => exact .done ()
  | cons x rest ih =>
    have hrest := (h.beside limit x.2.dispose).bind fun _ ↦ ih
    exact note_bind hrest x.1

theorem holding (h : r'.Mirrors r) (hs : List (Held C)) {p' : Minuted C H α} {p : Live C H α}
    (hp : r'.Follows r limit p' p) :
    r'.Follows r limit (Minuted.holding hs p') (Live.holding hs p) :=
  (h.beside limit _).bind fun _ ↦ hp.bind fun a ↦ (h.beside limit _).bind fun _ ↦ .done a

theorem dispose (h : r'.Mirrors r) (d : Disposer C) :
    r'.Follows r limit (Minuted.dispose d) d.dispose :=
  (h.holding d.held (h.disposeAll d.owned)).bind fun _ ↦ h.beside limit _

theorem settle (h : r'.Mirrors r) (vm : ViewModelId) (mark : BindingId)
    (result : Except LinkError Unit) :
    r'.Follows r limit (Manner.minuted.settle vm mark result)
      (Manner.plain.settle vm mark result) := by
  have howned := h.beside limit (Live.ownedSince (C := C) (H := H) vm mark)
  cases result with
  | ok u => exact howned.bind fun d ↦ .done (Except.ok d)
  | error e => exact howned.bind fun d ↦ (h.dispose d).bind fun _ ↦ .done (Except.error e)

theorem execute (h : r'.Mirrors r) (program : Option (Program C)) (scope : Scope)
    (target : Target) :
    r'.Follows r limit (Manner.minuted.execute program scope target)
      (Manner.plain.execute program scope target) :=
  (h.beside limit _).bind fun mark ↦ (h.beside limit _).bind fun result ↦
    h.settle scope.vm mark result

theorem carry (h : r'.Mirrors r) (vm : ViewModelId) (code : Conduct C H α)
    (ds : List (Disposer C)) :
    r'.Follows r limit (code.carry .minuted vm ds) (code.carry .plain vm ds) := by
  induction code generalizing ds with
  | done a => exact .done a
  | live p k ih => exact (h.beside limit p).bind fun b ↦ ih b ds
  | execute program owner placeholder target k ih =>
    rw [Conduct.carry, Conduct.carry]
    refine (h.execute program ⟨vm, owner, placeholder⟩ target).bind fun result ↦ ?_
    cases result with
    | ok d => exact ih _ _
    | error e => exact ih _ _
  | dispose i k ih =>
    rw [Conduct.carry, Conduct.carry]
    cases ds[i]? with
    | none => exact ih ds
    | some d => exact (h.dispose d).bind fun _ ↦ ih _

end Runner.Mirrors

namespace Practice

variable (π : Practice C H) (vm : ViewModelId)

theorem mirrors_runner (fuel : Nat) :
    ((π.minuted vm).runner fuel).Mirrors ((π.client vm).meaning.runner fuel) := by
  refine Meaning.mirrors_runner (fun r' r limit h b ↦ h.beside limit _)
    (fun r' r limit h q ↦ ?_) fuel
  cases q with
  | perform code => exact h.carry vm _ []
  | bind code scope node descriptor => exact h.carry vm _ []
  | link code scope target => exact h.carry vm _ []
  | resume => exact h.beside limit _

/-- **Minutes change nothing.** Code that does, apart from the minutes, what other code does, ends
with the same answer and in the same state as that. -/
theorem exists_minuted {fuel : Nat} {p' : Minuted C H α} {p : Live C H α}
    (h : ((π.minuted vm).runner fuel).Follows ((π.client vm).meaning.runner fuel) fuel p' p)
    {st st' : LiveState C H} {a : α} (hrun : (π.client vm).run fuel p st = some (a, st'))
    (m : Minutes) :
    ∃ m', (π.minuted vm).run fuel p' (st.beside m) = some (a, st'.beside m') := by
  have hrun' := (h (st.beside m)).trans hrun
  obtain ⟨⟨a', last⟩, hlast, heq⟩ := Option.map_eq_some_iff.mp hrun'
  obtain ⟨rfl, rfl⟩ := Prod.mk.inj heq
  exact ⟨last.world.2, hlast⟩

end Practice

end LiveMarkup
