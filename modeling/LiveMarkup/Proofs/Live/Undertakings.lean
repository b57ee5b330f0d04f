import LiveMarkup.Proofs.Live.Fields
import LiveMarkup.Proofs.Reactive.Beside

/-!
# Code that assigns later

Whose value a field has, and when it got it, is not to be seen in the world. So code that writes
fields, now or later, can be carried out with a log beside the world (`Logged`). The log says which
assignments were made, what has arrived for them, which were looked at, and what was written; each
entry keeps the state in which it was noted. An assignment that is looked at writes in its own name.

Assignments may be looked at one by one and in any order (`AssignmentId.poll`); to look at all that
are ready is to look at one of them after the other (`Live.run_resume`).

Code of a client that does all this is written as an `Undertaking`: live code that stays away from
fields and assignments (`Script.Aloof`), in which what is done to them stands out. An `Enterprise`
is a client whose code is all of that kind, so that also effects, hooks and directives may write,
assign later, settle and look. Keeping the log changes nothing about what it does
(`Enterprise.exists_log`).
-/

namespace LiveMarkup

variable {C H α β : Type}

/-! ## Looking at one assignment -/

namespace Arrival

/-- The value that has arrived. -/
def value? : Arrival → Option Value
  | .fulfilled v => some v
  | .open => none
  | .rejected => none

end Arrival

namespace Deferred

/-- The assignments that are ready, and behind them those that are new. -/
def queue (d : Deferred) : List AssignmentId := d.ready ++ d.fresh

/-- Takes out an assignment; one for which nothing has arrived waits from now on. Those that are new
become ready. -/
def pick (d : Deferred) (i : AssignmentId) : Deferred :=
  let rest := { d with ready := d.queue.erase i, fresh := [] }
  match (d.get i).arrival with
  | .open => rest.modify i fun a ↦ { a with waiting := true }
  | _ => rest

/-- The next one is the first of those that are ready or new. -/
theorem next?_eq (d : Deferred) :
    d.next? = d.queue.head?.map fun i ↦ (d.get i, d.pick i) := by
  rw [next?, queue]
  cases h : d.ready ++ d.fresh with
  | nil => rfl
  | cons i rest =>
    rw [List.head?_cons, Option.map_some, pick, queue, h, List.erase_cons_head]
    dsimp only
    cases (d.get i).arrival with
    | «open» => rfl
    | fulfilled v => rfl
    | rejected => rfl

end Deferred

/-- Carries out an assignment whose value has arrived. -/
def Assignment.conclude (a : Assignment) : Live C H Unit :=
  match a.arrival.value? with
  | some v => Live.holding [.viewModel a.vm] (a.vm.set a.field v)
  | none => pure ()

/-- Takes out an assignment that is ready or new, if it is. -/
def World.pick (w : World C H) (i : AssignmentId) : Option Assignment × World C H :=
  if i ∈ w.deferred.queue then
    (some (w.deferred.get i), { w with deferred := w.deferred.pick i })
  else (none, w)

theorem World.pick_of_mem {w : World C H} {i : AssignmentId}
    (h : i ∈ w.deferred.queue) :
    w.pick i = (some (w.deferred.get i), { w with deferred := w.deferred.pick i }) := if_pos h

theorem World.pick_of_not_mem {w : World C H} {i : AssignmentId}
    (h : i ∉ w.deferred.queue) : w.pick i = (none, w) := if_neg h

namespace AssignmentId

/-- Looks at an assignment, if it is ready or new, and carries it out if its value has arrived. -/
def poll (i : AssignmentId) : Live C H Unit := do
  let picked ← Live.act (World.pick · i)
  match picked with
  | some a => a.conclude
  | none => return ()

/-- The value of the assignment has arrived, or, without one, it never will. -/
def settle (i : AssignmentId) (value : Option Value) : Live C H Unit :=
  i.arrive (value.elim .rejected .fulfilled)

end AssignmentId

namespace Live

/-- Looks at the next assignment, and goes on until none is ready. -/
def pollAll : Live C H Unit := do
  match ← ask fun w ↦ w.deferred.queue.head? with
  | some i =>
    i.poll
    call .resume
  | none => return ()

theorem run_resume (r : LiveRunner C H) (limit : Nat) (st : LiveState C H) :
    r.run limit resume st = r.run limit pollAll st := by
  have hnext := st.world.deferred.next?_eq
  refine (Runner.Yields.run_bind (.act _ st)).trans
    (.trans ?_ (Runner.Yields.run_bind (.ask _ st)).symm)
  cases hhead : st.world.deferred.queue.head? with
  | none =>
    rw [hhead, Option.map_none] at hnext
    rw [hnext]
    rfl
  | some i =>
    rw [hhead, Option.map_some] at hnext
    have hpick := World.pick_of_mem (List.mem_of_head? hhead)
    rw [hnext]
    refine .trans ?_ (congrArg (r.run limit · st) (bind_assoc _ _ _)).symm
    refine .trans ?_ (Runner.Yields.run_bind (.act _ st)).symm
    rw [hpick]
    dsimp only
    rw [Assignment.conclude]
    cases (st.world.deferred.get i).arrival with
    | «open» => rfl
    | fulfilled v => rfl
    | rejected => rfl

end Live

/-! ## Code that stays away from fields -/

namespace World

/-- Whether a world has the fields and the assignments of another. -/
structure SameFields (w w' : World C H) : Prop where
  deferred : w'.deferred = w.deferred
  viewModels : w.viewModels.size ≤ w'.viewModels.size
  field : ∀ vm name, (w'.viewModel vm).field? name = (w.viewModel vm).field? name

namespace SameFields

variable {w w' : World C H}

theorem of_eq (hdeferred : w'.deferred = w.deferred) (hvm : w'.viewModels = w.viewModels) :
    w.SameFields w' where
  deferred := hdeferred
  viewModels := Nat.le_of_eq (congrArg Array.size hvm).symm
  field vm name := by rw [viewModel, hvm, viewModel]

theorem refl (w : World C H) : w.SameFields w := of_eq rfl rfl

end SameFields

end World

/-- Whether a script that starts in a given world neither writes signals itself nor changes fields
and assignments. What the effects and the calls do that it brings about is not its business. -/
def Script.Aloof :
    Script Value (Routine C) (World C H) (Call C) Call.Answer α → World C H → Prop
  | .done _, _ => True
  | .look k, w => ∀ g, (k g w).Aloof w
  | .change f k, w => w.SameFields (f w) ∧ k.Aloof (f w)
  | .newSignal _ k, w => ∀ s, (k s).Aloof w
  | .read _ k, w => ∀ v, (k v).Aloof w
  | .write _ _ _, _ => False
  | .effect _ k, _ => ∀ e w', (k e).Aloof w'
  | .stop _ k, w => k.Aloof w
  | .call _ k, _ => ∀ a w', (k a).Aloof w'

theorem Script.Aloof.bind {p : Live C H α} {f : α → Live C H β} {w : World C H} (hp : p.Aloof w)
    (hf : ∀ a w', (f a).Aloof w') : (Script.bind p f).Aloof w := by
  induction p generalizing w with
  | done a => exact hf a w
  | look k ih => exact fun g ↦ ih g w (hp g)
  | change h k ih => exact ⟨hp.1, ih hp.2⟩
  | newSignal v k ih => exact fun s ↦ ih s (hp s)
  | read s k ih => exact fun v ↦ ih v (hp v)
  | write s v k ih => exact hp.elim
  | effect b k ih => exact fun e w' ↦ ih e (hp e w')
  | stop e k ih => exact ih hp
  | call q k ih => exact fun a w' ↦ ih a (hp a w')

namespace ViewModelId

variable (vm : ViewModelId) (w : World C H)

theorem aloof_get (name : String) : (vm.get name : Live C H Value).Aloof w := by
  refine Script.Aloof.bind (fun _ ↦ trivial) fun s? w' ↦ ?_
  cases s? with
  | some s => exact fun _ ↦ trivial
  | none => trivial

theorem aloof_evaluateText (source : List Char) :
    (vm.evaluateText source : Live C H String).Aloof w := by
  refine Script.Aloof.bind ?_ fun _ _ ↦ trivial
  rw [evaluate]
  cases Expression.parse source with
  | constant v => trivial
  | path head segments => exact (aloof_get vm w head).bind fun _ _ ↦ trivial

theorem aloof_interpolate (template : String) :
    (vm.interpolate template : Live C H String).Aloof w := by
  refine Script.Aloof.bind ?_ fun _ _ ↦ trivial
  induction Interpolation.tokenize template.toList generalizing w with
  | nil => trivial
  | cons token tokens ih =>
    cases token with
    | literal text => exact (ih w).bind fun _ _ ↦ trivial
    | expression source =>
      exact (aloof_evaluateText vm w source).bind fun _ w' ↦ (ih w').bind fun _ _ ↦ trivial

theorem aloof_unlessGone {p : Live C H Unit} (hp : ∀ w', p.Aloof w') :
    (vm.unlessGone p).Aloof w := by
  refine Script.Aloof.bind (fun _ ↦ trivial) fun gone w' ↦ ?_
  cases gone with
  | true => trivial
  | false => exact hp w'

/-- Whether a view-model is disposed makes no difference to its fields. -/
theorem aloof_markDisposed : (vm.markDisposed : Live C H Unit).Aloof w := by
  refine ⟨⟨rfl, Nat.le_of_eq Array.size_modify.symm, fun vm' name ↦ ?_⟩, trivial⟩
  rw [World.viewModel_modifyViewModel]
  split
  · rename_i h
    rw [h.1]
    rfl
  · rfl

end ViewModelId

/-- Effects edit nodes, or ask for code. -/
theorem Routine.aloof_script (b : Routine C) (w : World C H) : b.script.Aloof w := by
  have hedit (f : String → NodeStore → NodeStore) (text : String) (w' : World C H) :
      (Live.edit (f text) : Live C H Unit).Aloof w' := ⟨.of_eq rfl rfl, trivial⟩
  cases b with
  | text vm node expression =>
    exact vm.aloof_unlessGone w fun w' ↦ (vm.aloof_evaluateText w' _).bind
      (hedit fun text nodes ↦ nodes.setTextContent node text)
  | attr vm node attr expression =>
    exact vm.aloof_unlessGone w fun w' ↦ (vm.aloof_evaluateText w' _).bind
      (hedit fun text nodes ↦ nodes.setAttribute node attr text)
  | interpolatedAttr vm node attr template =>
    exact vm.aloof_unlessGone w fun w' ↦ (vm.aloof_interpolate w' _).bind
      (hedit fun text nodes ↦ nodes.setAttribute node attr text)
  | client code => exact fun _ _ ↦ trivial

/-! ## The log -/

/-- What is done to fields and assignments. -/
inductive Deal (C H : Type) where
  /-- An assignment was made to a field, in a world that was so before. -/
  | made (i : AssignmentId) (vm : ViewModelId) (field : String) (before : LiveState C H)
  /-- The value of an assignment arrives, or, without one, it is rejected or dropped. -/
  | settled (i : AssignmentId) (value : Option Value)
  /-- Somebody looks at an assignment. -/
  | polled (i : AssignmentId)
  /-- A signal is written, in the name of an assignment or in nobody's. -/
  | wrote (s : SignalId) (value : Value) (source : Option AssignmentId)

/-- What was noted, and the state at that moment: right after an assignment was made, and right
before anything else that is noted is done. -/
structure Entry (C H : Type) where
  what : Deal C H
  state : LiveState C H

/-- What has been done to fields and assignments, in order. -/
abbrev Log (C H : Type) : Type := List (Entry C H)

/-- Live code with a log beside the world. -/
abbrev Logged (C H α : Type) : Type :=
  Script Value (Routine C) (World C H × Log C H) (Call C) Call.Answer α

namespace Logged

/-- Code that notes nothing. -/
def live (p : Live C H α) : Logged C H α := p.beside

/-- Notes what is done. -/
def note (what : Deal C H) : Logged C H Unit :=
  .look fun g w ↦ .change (fun x ↦ (x.1, x.2 ++ [⟨what, ⟨g, w.1⟩⟩])) (.done ())

/-- Runs code that holds some things until it ends. -/
def holding (hs : List (Held C)) (p : Logged C H α) : Logged C H α := do
  live (Live.change fun w ↦ { w with holdings := hs :: w.holdings })
  let a ← p
  live (Live.change fun w ↦ { w with holdings := w.holdings.tail })
  return a

/-- Writes a signal. An identity that no signal has yet is nothing that can be written. -/
def write (s : SignalId) (v : Value) : Logged C H Unit := do
  if ← live (Live.askGraph fun g ↦ decide (s.index < g.signals.size)) then note (.wrote s v none)
  live (Live.write s v)

/-- Declares a field and makes an assignment to it. -/
def assignLater (vm : ViewModelId) (field : String) : Logged C H AssignmentId := do
  let before ← live (Script.ask State.mk)
  let i ← live (vm.assignLater field)
  note (.made i vm field before)
  return i

/-- Lets a value arrive, or none. An identity that no assignment has yet is nothing to settle. -/
def settle (i : AssignmentId) (value : Option Value) : Logged C H Unit := do
  if ← live (Live.ask fun w ↦ decide (i.index < w.deferred.assignments.size)) then
    note (.settled i value)
  live (i.settle value)

/-- Carries out an assignment whose value has arrived, in its own name. -/
def conclude (i : AssignmentId) (a : Assignment) : Logged C H Unit :=
  match a.arrival.value? with
  | some v =>
    holding [.viewModel a.vm] do
      let s ← live (a.vm.declare a.field)
      note (.wrote s v (some i))
      live (Live.write s v)
  | none => pure ()

/-- Looks at an assignment. -/
def poll (i : AssignmentId) : Logged C H Unit := do
  note (.polled i)
  let picked ← live (Live.act (World.pick · i))
  match picked with
  | some a => conclude i a
  | none => return ()

/-- Looks at the next assignment, and goes on until none is ready. -/
def resume : Logged C H Unit := do
  match ← live (Live.ask fun w ↦ w.deferred.queue.head?) with
  | some i =>
    poll i
    live (Live.call .resume)
  | none => return ()

end Logged

/-! ## Code that assigns -/

/-- Code that writes fields, now or later. -/
inductive Undertaking (C H α : Type) : Type 1 where
  /-- The code has ended. -/
  | done (result : α)
  /-- Runs live code that stays away from fields and assignments itself. It may make effects and
  calls, of which one looks at all assignments that are ready. -/
  | live {β : Type} (p : Live C H β) (aloof : ∀ w, p.Aloof w) (next : β → Undertaking C H α)
  /-- Declares a field. -/
  | declare (vm : ViewModelId) (field : String) (next : SignalId → Undertaking C H α)
  /-- Writes a signal. -/
  | write (s : SignalId) (v : Value) (next : Undertaking C H α)
  /-- Declares a field and makes an assignment to it whose value arrives later. -/
  | assignLater (vm : ViewModelId) (field : String) (next : AssignmentId → Undertaking C H α)
  /-- Lets the value of an assignment arrive, or rejects or drops it. -/
  | settle (i : AssignmentId) (value : Option Value) (next : Undertaking C H α)
  /-- Looks at an assignment. -/
  | poll (i : AssignmentId) (next : Undertaking C H α)

namespace Undertaking

/-- Writes a field. -/
def set (vm : ViewModelId) (field : String) (v : Value) (next : Undertaking C H α) :
    Undertaking C H α := .declare vm field fun s ↦ .write s v next

/-- Marks a view-model as disposed. -/
def markDisposed (vm : ViewModelId) (next : Undertaking C H α) : Undertaking C H α :=
  .live vm.markDisposed vm.aloof_markDisposed fun _ ↦ next

/-- Carries out code. -/
def plain : Undertaking C H α → Live C H α
  | .done a => pure a
  | .live p _ k => do (k (← p)).plain
  | .declare vm field k => do (k (← vm.declare field)).plain
  | .write s v k => do Live.write s v; k.plain
  | .assignLater vm field k => do (k (← vm.assignLater field)).plain
  | .settle i value k => do i.settle value; k.plain
  | .poll i k => do i.poll; k.plain

/-- Carries out code and keeps the log. -/
def logged : Undertaking C H α → Logged C H α
  | .done a => pure a
  | .live p _ k => do (k (← Logged.live p)).logged
  | .declare vm field k => do (k (← Logged.live (vm.declare field))).logged
  | .write s v k => do Logged.write s v; k.logged
  | .assignLater vm field k => do (k (← Logged.assignLater vm field)).logged
  | .settle i value k => do Logged.settle i value; k.logged
  | .poll i k => do Logged.poll i; k.logged

/-- A field is written as always. -/
theorem plain_set (vm : ViewModelId) (field : String) (v : Value) (next : Undertaking C H α) :
    (set vm field v next).plain = vm.set field v >>= fun _ ↦ next.plain := by
  rw [set, plain, ViewModelId.set, bind_assoc]
  rfl

end Undertaking

/-- A client whose code writes fields, now or later. -/
structure Enterprise (C H : Type) : Type 1 where
  /-- Performs code: of an effect, a hook, or a binding that is disposed. -/
  perform : C → Undertaking C H Unit
  /-- Makes the binding of a directive on a node, or gives a reason not to. -/
  bind : C → Scope → NodeId → Descriptor → Undertaking C H (Except String (Binding C))
  /-- Carries out a program of the client's own. -/
  link : C → Scope → Target → Undertaking C H (Except LinkError Unit)

namespace Enterprise

variable (ε : Enterprise C H)

/-- The client. -/
def client : Client C H where
  perform code := (ε.perform code).plain
  bind code scope node descriptor := (ε.bind code scope node descriptor).plain
  link code scope target := (ε.link code scope target).plain

/-- What bodies and calls mean when the log is kept. -/
def logged : Meaning Value (Routine C) (World C H × Log C H) (Call C) Call.Answer where
  body b := Logged.live b.script
  call
    | .perform code => (ε.perform code).logged
    | .bind code scope node descriptor => (ε.bind code scope node descriptor).logged
    | .link code scope target => (ε.link code scope target).logged
    | .resume => Logged.resume

end Enterprise

/-! ## Keeping the log changes nothing -/

namespace Runner.Mirrors

variable {r' : Runner Value (Routine C) (World C H × Log C H) (Call C) Call.Answer}
  {r : LiveRunner C H} {limit : Nat}

theorem logging {p' : Logged C H α} {p : Live C H α} (h : r'.Follows r limit p' p)
    (what : Deal C H) : r'.Follows r limit (Logged.note what >>= fun _ ↦ p') p := by
  intro st
  have hnote := h.note (fun w es ↦ es ++ [⟨what, ⟨st.graph, w⟩⟩]) st
  exact hnote

/-- Looking is nothing to be seen. -/
theorem looking {k : β → Logged C H α} {p : Live C H α} (h : ∀ b, r'.Follows r limit (k b) p)
    (f : Graph Value (Routine C) → World C H → β) :
    r'.Follows r limit (Logged.live (Script.ask f) >>= k) p :=
  fun st ↦ h (f st.graph st.world.1) st

theorem loggedWrite (h : r'.Mirrors r) (s : SignalId) (v : Value) :
    r'.Follows r limit (Logged.write s v) (Live.write s v) := by
  refine looking (fun known ↦ ?_) _
  cases known with
  | true => exact logging (h.beside limit _) _
  | false => exact h.beside limit _

theorem loggedAssignLater (h : r'.Mirrors r) (vm : ViewModelId) (field : String) :
    r'.Follows r limit (Logged.assignLater vm field) (vm.assignLater field) := by
  refine looking (fun before ↦ ?_) _
  have hmade := (h.beside limit (vm.assignLater field)).bind fun i ↦
    logging (.done i) (.made i vm field before)
  rwa [Script.bind_done] at hmade

theorem loggedSettle (h : r'.Mirrors r) (i : AssignmentId) (value : Option Value) :
    r'.Follows r limit (Logged.settle i value) (i.settle value) := by
  refine looking (fun known ↦ ?_) _
  cases known with
  | true => exact logging (h.beside limit _) _
  | false => exact h.beside limit _

theorem loggedConclude (h : r'.Mirrors r) (i : AssignmentId) (a : Assignment) :
    r'.Follows r limit (Logged.conclude i a) a.conclude := by
  rw [Logged.conclude, Assignment.conclude]
  cases a.arrival.value? with
  | none => exact .done ()
  | some v =>
    refine (h.beside limit _).bind fun _ ↦ Follows.bind ?_ fun u ↦
      (h.beside limit _).bind fun _ ↦ .done u
    exact (h.beside limit _).bind fun s ↦ logging (h.beside limit (Live.write s v)) _

theorem loggedPoll (h : r'.Mirrors r) (i : AssignmentId) :
    r'.Follows r limit (Logged.poll i) i.poll := by
  refine logging ((h.beside limit _).bind fun picked ↦ ?_) (.polled i)
  cases picked with
  | none => exact .done ()
  | some a => exact h.loggedConclude i a

theorem loggedResume (h : r'.Mirrors r) :
    r'.Follows r limit Logged.resume Live.resume := by
  intro st
  rw [Live.run_resume]
  refine ((h.beside limit _).bind fun next ↦ ?_ : r'.Follows r limit Logged.resume Live.pollAll) st
  cases next with
  | none => exact .done ()
  | some i => exact (h.loggedPoll i).bind fun _ ↦ h.beside limit _

theorem undertaking (h : r'.Mirrors r) (code : Undertaking C H α) :
    r'.Follows r limit code.logged code.plain := by
  induction code with
  | done a => exact .done a
  | live p _ k ih => exact (h.beside limit p).bind ih
  | declare vm field k ih => exact (h.beside limit _).bind ih
  | write s v k ih => exact (h.loggedWrite s v).bind fun _ ↦ ih
  | assignLater vm field k ih => exact (h.loggedAssignLater vm field).bind ih
  | settle i value k ih => exact (h.loggedSettle i value).bind fun _ ↦ ih
  | poll i k ih => exact (h.loggedPoll i).bind fun _ ↦ ih

end Runner.Mirrors

namespace Enterprise

variable (ε : Enterprise C H)

theorem mirrors_runner (fuel : Nat) :
    (ε.logged.runner fuel).Mirrors (ε.client.meaning.runner fuel) := by
  refine Meaning.mirrors_runner (fun r' r limit h b ↦ h.beside limit _)
    (fun r' r limit h q ↦ ?_) fuel
  cases q with
  | perform code => exact h.undertaking _
  | bind code scope node descriptor => exact h.undertaking _
  | link code scope target => exact h.undertaking _
  | resume => exact h.loggedResume

/-- **Keeping the log changes nothing.** A run of a client's code is, apart from the log, a run of
that code with a log. -/
theorem exists_log {fuel : Nat} {code : Undertaking C H α} {st st' : LiveState C H} {a : α}
    (hrun : ε.client.run fuel code.plain st = some (a, st')) :
    ∃ es, ε.logged.run fuel code.logged (st.beside []) = some (a, st'.beside es) := by
  have hfollows : (ε.logged.runner fuel).Follows (ε.client.meaning.runner fuel) fuel
      code.logged code.plain := (ε.mirrors_runner fuel).undertaking code
  obtain ⟨⟨a', last⟩, hlast, heq⟩ :=
    Option.map_eq_some_iff.mp ((hfollows (st.beside [])).trans hrun)
  obtain ⟨rfl, rfl⟩ := Prod.mk.inj heq
  exact ⟨last.world.2, hlast⟩

end Enterprise

end LiveMarkup
