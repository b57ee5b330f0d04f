import LiveMarkup.Proofs.Live.Allowances
import LiveMarkup.Proofs.Live.Rosters
import LiveMarkup.Proofs.Reactive.Noting

/-!
# Code that registers and runs hooks

Which hook is performed, and in which run, is not to be seen in the world, where only the code of
the hooks stands that wait. So code that registers hooks and runs them can be carried out with a
roster beside the world (`Rostered`), which gives each hook a number and each run another.

Code of a client that does so is written as a `Duty`: live code that leaves the hooks that wait
alone, in which registrations and runs stand out. A `Crew` is a client whose code is all of that
kind, so that also hooks, effects and directives may register hooks and run them. Keeping the roster
changes nothing about what it does (`Crew.notes`).
-/

namespace LiveMarkup

variable {C H α : Type}

/-! ## Code that leaves hooks alone -/

/-- The rules for code that leaves the hooks that wait alone. What others do meanwhile is not its
business. -/
def Rules.sparingHooks : Rules (World C H) (Call C) Call.Answer where
  own w w' := ∀ l, w'.lifecycle l = w.lifecycle l
  bodies _ _ := True
  asks _ _ := True
  answers _ _ _ _ := True

/-- Whether code leaves the hooks that wait alone. -/
abbrev Live.SparesHooks (p : Live C H α) : Prop := Live.Triples.Heeds .sparingHooks p

namespace Live.SparesHooks

/-- What leaves the lifecycles alone leaves their hooks alone. -/
theorem of_lifecycles {w w' : World C H} (h : w'.lifecycles = w.lifecycles) :
    Rules.sparingHooks.own w w' := fun l ↦ by
  rw [World.lifecycle, h, World.lifecycle]

theorem call (q : Call C) : SparesHooks (Live.call q : Live C H q.Answer) :=
  fun _ _ ↦ ⟨trivial, fun _ _ _ ↦ trivial⟩

/-- Bodies of effects edit nodes, or perform code. -/
theorem script (b : Routine C) : SparesHooks (b.script : Live C H Unit) :=
  Triples.Keeps.script (fun _ _ _ ↦ Triples.Heeds.change fun _ ↦ of_lifecycles rfl)
    (fun _ _ _ _ ↦ Triples.Heeds.change fun _ ↦ of_lifecycles rfl) fun _ _ ↦ call _

theorem resume : SparesHooks (Live.resume : Live C H Unit) :=
  Triples.Heeds.resume_of (fun _ _ _ ↦ of_lifecycles rfl) (fun _ _ ↦ of_lifecycles rfl)
    (fun _ _ ↦ of_lifecycles rfl) fun _ ↦ trivial

/-- A new view-model comes with a lifecycle of its own, at which no hook waits. -/
theorem addViewModel : SparesHooks (Live.act World.addViewModel : Live C H ViewModelId) := by
  refine Triples.Heeds.act fun w l ↦ ?_
  change (w.lifecycles.push {}).getD l.index default = w.lifecycles.getD l.index default
  rw [Array.getD_eq_getD_getElem?, Array.getElem?_push, Array.getD_eq_getD_getElem?]
  split
  · rename_i hnew
    rw [hnew, Array.getElem?_eq_none (Nat.le_refl _)]
    rfl
  · rfl

end Live.SparesHooks

/-! ## Code with a roster -/

/-- The hooks that wait, with the code that is found for them. A roster that lists the hooks of its
world lists just this code (`Hook.withCode_map_code`). -/
def Hook.withCode (l : LifecycleId) (m : Moment) : List (Hook C) → List C → List (Hook C)
  | _, [] => []
  | [], code :: codes => ⟨0, l, m, code⟩ :: withCode l m [] codes
  | h :: hs, code :: codes => { h with code } :: withCode l m hs codes

theorem Hook.map_code_withCode (l : LifecycleId) (m : Moment) (hs : List (Hook C))
    (codes : List C) : (withCode l m hs codes).map Hook.code = codes := by
  induction codes generalizing hs with
  | nil => cases hs <;> rfl
  | cons code codes ih =>
    cases hs with
    | nil => exact congrArg (List.cons code) (ih [])
    | cons h hs => exact congrArg (List.cons code) (ih hs)

theorem Hook.withCode_map_code (l : LifecycleId) (m : Moment) (hs : List (Hook C)) :
    withCode l m hs (hs.map Hook.code) = hs := by
  induction hs with
  | nil => rfl
  | cons h hs ih => exact congrArg (List.cons h) ih

/-- Live code with a roster beside the world. -/
abbrev Rostered (C H α : Type) : Type :=
  Script Value (Routine C) (World C H × Roster C) (Call C) Call.Answer α

namespace Rostered

/-- Code that leaves the roster alone. -/
def live (p : Live C H α) : Rostered C H α := p.beside

/-- Changes the roster. -/
def note (f : Roster C → Roster C) : Rostered C H Unit :=
  .change (fun x ↦ (x.1, f x.2)) (.done ())

/-- Adds a hook. At an identity that no lifecycle has yet, nothing is added. -/
def register (l : LifecycleId) (m : Moment) (code : C) : Rostered C H Unit :=
  .change (fun x ↦ (x.1.modifyLifecycle l fun hooks ↦ hooks.register code m,
    if l.index < x.1.lifecycles.size then x.2.register l m code else x.2)) (.done ())

/-- Performs hooks one after the other. The roster says when each begins and when it has ended. -/
def performAll (r : Nat) : List (Hook C) → Rostered C H Unit
  | [] => return ()
  | h :: rest => do
    note (·.begin r h)
    live (Live.perform h.code)
    note (·.finish r h)
    performAll r rest

/-- Takes out all hooks that wait for a moment and performs them in order. -/
def run (l : LifecycleId) (m : Moment) : Rostered C H Unit :=
  .look fun _ x ↦
    let (codes, left) := (x.1.lifecycle l).drain m
    let hooks := Hook.withCode l m (x.2.waitingFor l m) codes
    .change (fun y ↦ (x.1.modifyLifecycle l fun _ ↦ left, y.2.takeOut l m hooks)) do
      performAll x.2.nextRun hooks
      note (·.close x.2.nextRun)

end Rostered

/-! ## Code that registers and runs -/

/-- Code that registers hooks and runs them. -/
inductive Duty (C H α : Type) : Type 1 where
  /-- The code has ended. -/
  | done (result : α)
  /-- Runs live code that leaves the hooks that wait alone. It may make effects and calls. -/
  | live {β : Type} (p : Live C H β) (spares : p.SparesHooks) (next : β → Duty C H α)
  /-- Adds a hook. -/
  | register (l : LifecycleId) (m : Moment) (code : C) (next : Duty C H α)
  /-- Runs the hooks that wait for a moment. -/
  | run (l : LifecycleId) (m : Moment) (next : Duty C H α)

namespace Duty

/-- Carries out code. -/
def plain : Duty C H α → Live C H α
  | .done a => pure a
  | .live p _ k => do (k (← p)).plain
  | .register l m code k => do l.register m code; k.plain
  | .run l m k => do l.run m; k.plain

/-- Carries out code and keeps the roster. -/
def rostered : Duty C H α → Rostered C H α
  | .done a => pure a
  | .live p _ k => do (k (← Rostered.live p)).rostered
  | .register l m code k => do Rostered.register l m code; k.rostered
  | .run l m k => do Rostered.run l m; k.rostered

end Duty

/-- A client whose code registers hooks and runs them. -/
structure Crew (C H : Type) : Type 1 where
  /-- Performs code: of an effect, a hook, or a binding that is disposed. -/
  perform : C → Duty C H Unit
  /-- Makes the binding of a directive on a node, or gives a reason not to. -/
  bind : C → Scope → NodeId → Descriptor → Duty C H (Except String (Binding C))
  /-- Carries out a program of the client's own. -/
  link : C → Scope → Target → Duty C H (Except LinkError Unit)

namespace Crew

variable (κ : Crew C H)

/-- The client. -/
def client : Client C H where
  perform code := (κ.perform code).plain
  bind code scope node descriptor := (κ.bind code scope node descriptor).plain
  link code scope target := (κ.link code scope target).plain

/-- What bodies and calls mean when the roster is kept. -/
def rostered : Meaning Value (Routine C) (World C H × Roster C) (Call C) Call.Answer where
  body b := Rostered.live b.script
  call
    | .perform code => (κ.perform code).rostered
    | .bind code scope node descriptor => (κ.bind code scope node descriptor).rostered
    | .link code scope target => (κ.link code scope target).rostered
    | .resume => Rostered.live Live.resume

end Crew

/-! ## Keeping the roster changes nothing -/

namespace Rostered

theorem notes_register (l : LifecycleId) (m : Moment) (code : C) :
    (register l m code : Rostered C H Unit).Notes (l.register m code) :=
  .change (fun _ ↦ rfl) (.done ())

theorem notes_performAll (r : Nat) (hooks : List (Hook C)) :
    (performAll r hooks : Rostered C H Unit).Notes
      (LifecycleId.performAll (hooks.map Hook.code)) := by
  induction hooks with
  | nil => exact .done ()
  | cons h rest ih =>
    refine .note (fun _ ↦ rfl) ((Script.Notes.beside _).bind fun _ ↦ ?_)
    exact .note (fun _ ↦ rfl) ih

theorem notes_run (l : LifecycleId) (m : Moment) :
    (run l m : Rostered C H Unit).Notes (l.run m) := by
  refine .look fun _ x ↦ .change (fun _ ↦ rfl) ?_
  have hperform := notes_performAll (H := H) x.2.nextRun (Hook.withCode l m (x.2.waitingFor l m)
    ((x.1.lifecycle l).drain m).1)
  rw [Hook.map_code_withCode] at hperform
  have hclose := hperform.bind fun u ↦
    Script.Notes.note (f := fun y ↦ (y.1, y.2.close x.2.nextRun)) (fun _ ↦ rfl) (.done u)
  rw [Script.bind_done] at hclose
  exact hclose

end Rostered

theorem Duty.notes (code : Duty C H α) : code.rostered.Notes code.plain := by
  induction code with
  | done a => exact .done a
  | live p _ k ih => exact (Script.Notes.beside p).bind ih
  | register l m code k ih => exact (Rostered.notes_register l m code).bind fun _ ↦ ih
  | run l m k ih => exact (Rostered.notes_run l m).bind fun _ ↦ ih

/-- **Keeping the roster changes nothing.** -/
theorem Crew.notes (κ : Crew C H) : κ.rostered.Notes κ.client.meaning where
  body _ := .beside _
  call
    | .perform code => (κ.perform code).notes
    | .bind code scope node descriptor => (κ.bind code scope node descriptor).notes
    | .link code scope target => (κ.link code scope target).notes
    | .resume => .beside _

end LiveMarkup
