import Mathlib.Logic.Relation
import LiveMarkup.Proofs.Live.Undertakings

/-!
# What can happen to fields and assignments

A run of code that writes fields, now or later, is a sequence of few steps (`Log.Step`): a field is
declared, a signal is written, an assignment is made, something arrives for it, somebody looks at
it; and between these all kinds of code run, which leave fields and assignments as they are
(`State.Aside`). To look at an assignment whose value has arrived is one step: it takes out the
assignment, and declares and writes the field. What the write then brings about comes after it.

That a run is such a sequence is shown by induction on fuel (`Enterprise.deals_runner`): what
effects do, they do within a body or a call.
-/

namespace LiveMarkup

variable {C H α : Type}

namespace Deferred

/-- What is no assignment cannot be settled. -/
theorem arrive_of_not_lt {d : Deferred} {i : AssignmentId} (h : ¬ i.index < d.assignments.size)
    (arrival : Arrival) : d.arrive i arrival = d := by
  have hget : d.get i = default := by simp [get, h]
  have hopen : (default : Assignment).arrival = .open := rfl
  have hasleep : (default : Assignment).waiting = false := rfl
  simp [arrive, hget, hopen, hasleep, modify, Array.modify, Array.modifyM, h]

end Deferred

namespace State

/-- Whether a state has the fields, with their values, and the assignments of another. -/
structure Aside (st st' : LiveState C H) : Prop where
  world : st.world.SameFields st'.world
  signals : st.graph.signals.size ≤ st'.graph.signals.size
  value : ∀ s : SignalId, s.index < st.graph.signals.size → st'.graph.value s = st.graph.value s

namespace Aside

variable {st st' : LiveState C H}

theorem of_world (hgraph : st'.graph = st.graph) (h : st.world.SameFields st'.world) :
    st.Aside st' := by
  refine ⟨h, Nat.le_of_eq (congrArg (·.signals.size) hgraph).symm, fun s _ ↦ ?_⟩
  rw [hgraph]

theorem of_graph {g : Graph Value (Routine C)} (hsize : st.graph.signals.size ≤ g.signals.size)
    (hvalue : ∀ s : SignalId, s.index < st.graph.signals.size → g.value s = st.graph.value s) :
    st.Aside (st.withGraph g) :=
  ⟨.refl _, hsize, hvalue⟩

theorem of_signals {g : Graph Value (Routine C)} (h : g.signals = st.graph.signals) :
    st.Aside (st.withGraph g) := by
  refine of_graph (Nat.le_of_eq (congrArg Array.size h).symm) fun s _ ↦ ?_
  rw [Graph.value, Graph.signal, h, Graph.value, Graph.signal]

/-- What is no signal cannot be written. -/
theorem write {s : SignalId} (hs : ¬ s.index < st.graph.signals.size) (v : Value) :
    st.Aside (st.withGraph (st.graph.write s v)) := by
  refine of_graph (Nat.le_of_eq (Graph.size_signals_write ..).symm) fun t ht ↦ ?_
  have hne : t ≠ s := by
    rintro rfl
    exact hs ht
  exact Graph.value_write_of_ne _ hne v

end Aside

/-- The state with other assignments. -/
def withDeferred (st : LiveState C H) (d : Deferred) : LiveState C H :=
  st.withWorld { st.world with deferred := d }

/-- The state in which a field was declared and an assignment to it was made. -/
def assigned (st : LiveState C H) (vm : ViewModelId) (field : String) : LiveState C H :=
  (st.declare vm field).2.withDeferred ((st.declare vm field).2.world.deferred.add vm field).2

/-- The state in which the value of an assignment has arrived, or none. -/
def settled (st : LiveState C H) (i : AssignmentId) (value : Option Value) : LiveState C H :=
  st.withDeferred (st.world.deferred.arrive i (value.elim .rejected .fulfilled))

/-- A state apart from its log. -/
def split (st : State Value (Routine C) (World C H × Log C H)) : LiveState C H × Log C H :=
  (st.bare, st.world.2)

end State

/-! ## Steps -/

namespace Log

/-- What can happen to a state and its log at once. -/
inductive Step : LiveState C H × Log C H → LiveState C H × Log C H → Prop where
  | aside {st st' : LiveState C H} {es : Log C H} (aside : st.Aside st') : Step (st, es) (st', es)
  | declare (st : LiveState C H) (es : Log C H) (vm : ViewModelId) (field : String) :
      Step (st, es) ((st.declare vm field).2, es)
  | write {st : LiveState C H} {es : Log C H} {s : SignalId} (v : Value)
      (known : s.index < st.graph.signals.size) :
      Step (st, es) (st.withGraph (st.graph.write s v), es ++ [⟨.wrote s v none, st⟩])
  | make (st : LiveState C H) (es : Log C H) (vm : ViewModelId) (field : String) :
      Step (st, es) (st.assigned vm field,
        es ++ [⟨.made ((st.declare vm field).2.world.deferred.add vm field).1 vm field st,
          st.assigned vm field⟩])
  | settle {st : LiveState C H} {es : Log C H} {i : AssignmentId} (value : Option Value)
      (known : i.index < st.world.deferred.assignments.size) :
      Step (st, es) (st.settled i value, es ++ [⟨.settled i value, st⟩])
  /-- Somebody looks at an assignment that waits or is over. -/
  | pass {st : LiveState C H} {es : Log C H} {i : AssignmentId}
      (absent : i ∉ st.world.deferred.queue) :
      Step (st, es) (st, es ++ [⟨.polled i, st⟩])
  /-- Somebody looks at an assignment that has no value. -/
  | miss {st : LiveState C H} {es : Log C H} {i : AssignmentId}
      (ready : i ∈ st.world.deferred.queue)
      (valueless : (st.world.deferred.get i).arrival.value? = none) :
      Step (st, es) (st.withDeferred (st.world.deferred.pick i), es ++ [⟨.polled i, st⟩])
  /-- Somebody looks at an assignment that has a value. -/
  | meet {st x : LiveState C H} {es : Log C H} {i : AssignmentId} {a : Assignment} {v : Value}
      (ready : i ∈ st.world.deferred.queue)
      (get : st.world.deferred.get i = a) (value : a.arrival.value? = some v)
      (aside : (st.withDeferred (st.world.deferred.pick i)).Aside x) :
      Step (st, es) (x.written a.vm a.field v,
        es ++ [⟨.polled i, st⟩] ++
          [⟨.wrote (x.declare a.vm a.field).1 v (some i), (x.declare a.vm a.field).2⟩])

/-- What can happen one after the other. -/
abbrev Steps : LiveState C H × Log C H → LiveState C H × Log C H → Prop :=
  Relation.ReflTransGen Step

end Log

/-! ## Runs -/

/-- What carries out code with a log. -/
abbrev LogRunner (C H : Type) : Type :=
  Runner Value (Routine C) (World C H × Log C H) (Call C) Call.Answer

/-- Whether bodies and calls come down to steps. -/
structure Runner.Deals (r : LogRunner C H) : Prop where
  body : ∀ b st st', r.body b st = some st' → Log.Steps st.split st'.split
  call : ∀ q st a st', r.call q st = some (a, st') → Log.Steps st.split st'.split

namespace Runner.Deals

open Log Relation

variable {r : LogRunner C H} {limit : Nat}
  {st st' : State Value (Routine C) (World C H × Log C H)}

theorem steps_of_signals {g : Graph Value (Routine C)} (h : g.signals = st.graph.signals) :
    Steps st.split (st.withGraph g).split :=
  .single (.aside (.of_signals h))

theorem runEffect (h : r.Deals) {e : EffectId} (hrun : r.runEffect e st = some st') :
    Steps st.split st'.split := by
  rcases r.runEffect_cases hrun with ⟨-, rfl⟩ | ⟨-, -, rfl⟩ | ⟨b, st₁, -, -, hbody, rfl⟩
  · exact .refl
  · exact steps_of_signals (Graph.signals_endRun ..)
  · have hbegin : Steps st.split (st.withGraph (st.graph.beginRun e)).split :=
      steps_of_signals rfl
    exact (hbegin.trans (h.body b _ _ hbody)).trans (steps_of_signals (Graph.signals_endRun ..))

theorem drain (h : r.Deals) (hrun : r.drain limit st = some st') : Steps st.split st'.split := by
  refine r.drain_induction (motive := fun st st' ↦ Steps st.split st'.split) ?_ ?_ hrun
  · exact fun _ _ ↦ .refl
  · intro st e g st₁ st' hd heffect hrest
    have hnext : Steps st.split (st.withGraph g).split :=
      steps_of_signals (Graph.signals_dequeue hd)
    exact (hnext.trans (h.runEffect heffect)).trans hrest

theorem flush (h : r.Deals) (hrun : r.flush limit st = some st') : Steps st.split st'.split := by
  rcases r.flush_cases hrun with ⟨-, rfl⟩ | ⟨st₁, -, hdrain, rfl⟩
  · exact .refl
  · have hbegin : Steps st.split (st.withGraph { st.graph with flushing := true }).split :=
      steps_of_signals rfl
    exact (hbegin.trans (h.drain hdrain)).trans (steps_of_signals rfl)

/-- Live code that stays away from fields and assignments. -/
theorem live (h : r.Deals) {p : Live C H α} {a : α} (hp : p.Aloof st.world.1)
    (hrun : r.run limit (Logged.live p) st = some (a, st')) : Steps st.split st'.split := by
  rw [Logged.live] at hrun
  induction p generalizing st with
  | done _ =>
    obtain ⟨-, rfl⟩ := Prod.mk.inj (Option.some.inj hrun)
    exact .refl
  | look k ih => exact ih _ _ (hp _) hrun
  | change f k ih =>
    have hstep : Step st.split (st.split.1.withWorld (f st.world.1), st.world.2) :=
      .aside (.of_world rfl hp.1)
    exact .head hstep (ih hp.2 hrun)
  | newSignal v k ih =>
    have hstep : Step st.split (st.withGraph (st.graph.newSignal v).2).split :=
      .aside (.of_graph (Nat.le_of_lt (Nat.lt_of_lt_of_eq (Nat.lt_succ_self _)
        (st.graph.size_newSignal v).symm))
        fun s hs ↦ congrArg Signal.value (Graph.signal_newSignal_of_lt hs v))
    exact .head hstep (ih _ (hp _) hrun)
  | read s k ih =>
    have hstep : Step st.split (st.withGraph (st.graph.track s)).split :=
      .aside (.of_graph (Nat.le_of_eq (st.graph.size_track s).symm)
        fun s' _ ↦ st.graph.value_track s s')
    exact .head hstep (ih _ (hp _) hrun)
  | write s v k ih => exact hp.elim
  | effect b k ih =>
    obtain ⟨st₁, heffect, hk⟩ := Option.bind_eq_some_iff.mp hrun
    have hnew : Steps st.split (st.withGraph (st.graph.newEffect b).2).split :=
      steps_of_signals rfl
    exact (hnew.trans (h.runEffect heffect)).trans (ih _ (hp _ _) hk)
  | stop e k ih =>
    have hstop : Steps st.split (st.withGraph (st.graph.stop e)).split := steps_of_signals rfl
    exact hstop.trans (ih hp hrun)
  | call q k ih =>
    obtain ⟨x, hq, hk⟩ := Option.bind_eq_some_iff.mp hrun
    exact (h.call q st x.1 x.2 hq).trans (ih _ (hp _ _) hk)

theorem run_declare (vm : ViewModelId) (name : String) :
    r.run limit (Logged.live (vm.declare name)) st =
      some ((st.bare.declare vm name).1, (st.bare.declare vm name).2.beside st.world.2) := by
  have hask : r.run limit (Logged.live (Live.ask fun w ↦ (w.viewModel vm).field? name)) st =
      some ((st.bare.world.viewModel vm).field? name, st) := rfl
  rw [Logged.live, ViewModelId.declare]
  refine (congrArg (r.run limit · st) (Script.beside_bind _ _)).trans ?_
  refine (r.run_bind limit _ _ st).trans ((congrArg (Option.bind · _) hask).trans ?_)
  cases hname : (st.bare.world.viewModel vm).field? name with
  | some s =>
    rw [State.declare_of_some hname]
    rfl
  | none =>
    rw [State.declare_of_none hname]
    rfl

/-- A write, and what it brings about. -/
theorem write_flush (h : r.Deals) {s : SignalId} {v : Value}
    (hrun : r.run limit (Logged.live (Live.write s v)) st = some ((), st')) :
    Steps (st.withGraph (st.graph.write s v)).split st'.split := by
  obtain ⟨st₁, hflush, hdone⟩ := Option.bind_eq_some_iff.mp hrun
  obtain ⟨-, rfl⟩ := Prod.mk.inj (Option.some.inj hdone)
  exact h.flush hflush

theorem write (h : r.Deals) {s : SignalId} {v : Value}
    (hrun : r.run limit (Logged.write s v) st = some ((), st')) : Steps st.split st'.split := by
  obtain ⟨known, st₁, hask, hrun⟩ := exists_of_run_bind hrun
  obtain ⟨hknown, rfl⟩ := Prod.mk.inj (Option.some.inj hask)
  cases known with
  | true => exact .head (.write v (of_decide_eq_true hknown)) (h.write_flush hrun)
  | false => exact .head (.aside (.write (of_decide_eq_false hknown) v)) (h.write_flush hrun)

theorem assignLater {vm : ViewModelId} {field : String} {i : AssignmentId}
    (hrun : r.run limit (Logged.assignLater vm field) st = some (i, st')) :
    Steps st.split st'.split := by
  obtain ⟨before, st₁, hask, hrun⟩ := exists_of_run_bind hrun
  obtain ⟨rfl, rfl⟩ := Prod.mk.inj (Option.some.inj hask)
  obtain ⟨i', st₁, hassign, hrun⟩ := exists_of_run_bind hrun
  rw [Logged.live, ViewModelId.assignLater] at hassign
  obtain ⟨s, st₂, hdeclare, hadd⟩ :=
    exists_of_run_bind ((congrArg (r.run limit · st) (Script.beside_bind _ _)).symm.trans hassign)
  have hdeclare := (run_declare vm field).symm.trans hdeclare
  obtain ⟨rfl, rfl⟩ := Prod.mk.inj (Option.some.inj hdeclare)
  obtain ⟨rfl, rfl⟩ := Prod.mk.inj (Option.some.inj hadd)
  obtain ⟨rfl, rfl⟩ := Prod.mk.inj (Option.some.inj hrun)
  exact .single (.make st.bare st.world.2 vm field)

theorem settle {i : AssignmentId} {value : Option Value}
    (hrun : r.run limit (Logged.settle i value) st = some ((), st')) :
    Steps st.split st'.split := by
  obtain ⟨known, st₁, hask, hrun⟩ := exists_of_run_bind hrun
  obtain ⟨hknown, rfl⟩ := Prod.mk.inj (Option.some.inj hask)
  cases known with
  | true =>
    obtain ⟨-, rfl⟩ := Prod.mk.inj (Option.some.inj hrun)
    exact .single (.settle value (of_decide_eq_true hknown))
  | false =>
    obtain ⟨-, rfl⟩ := Prod.mk.inj (Option.some.inj hrun)
    have harrive := Deferred.arrive_of_not_lt (of_decide_eq_false hknown)
      (value.elim .rejected .fulfilled)
    exact .single (.aside (.of_world rfl ⟨harrive, Nat.le_refl _, fun _ _ ↦ rfl⟩))

/-- An assignment that has a value writes it, and what that brings about comes after it. -/
theorem conclude (h : r.Deals) {i : AssignmentId} {a : Assignment} {v : Value}
    (hvalue : a.arrival.value? = some v)
    (hrun : r.run limit (Logged.conclude i a) st = some ((), st')) :
    ∃ x, st.bare.Aside x ∧ Steps (x.written a.vm a.field v, st.world.2 ++
      [⟨.wrote (x.declare a.vm a.field).1 v (some i), (x.declare a.vm a.field).2⟩]) st'.split := by
  rw [Logged.conclude, hvalue] at hrun
  obtain ⟨⟨⟩, st₁, hpush, hrun⟩ := exists_of_run_bind hrun
  obtain ⟨-, rfl⟩ := Prod.mk.inj (Option.some.inj hpush)
  obtain ⟨⟨⟩, st₂, hrun, hpop⟩ := exists_of_run_bind hrun
  obtain ⟨s, st₃, hdeclare, hrun⟩ := exists_of_run_bind hrun
  obtain ⟨rfl, rfl⟩ :=
    Prod.mk.inj (Option.some.inj ((run_declare a.vm a.field).symm.trans hdeclare))
  obtain ⟨⟨⟩, st₄, hnote, hwrite⟩ := exists_of_run_bind hrun
  obtain ⟨-, rfl⟩ := Prod.mk.inj (Option.some.inj hnote)
  have hsteps := h.write_flush hwrite
  obtain ⟨-, rfl⟩ := Prod.mk.inj (Option.some.inj hpop)
  refine ⟨st.bare.withWorld
    { st.world.1 with holdings := [.viewModel a.vm] :: st.world.1.holdings }, ?_, ?_⟩
  · exact .of_world rfl (.of_eq rfl rfl)
  · exact hsteps.tail (.aside (.of_world rfl (.of_eq rfl rfl)))

theorem poll (h : r.Deals) {i : AssignmentId}
    (hrun : r.run limit (Logged.poll i) st = some ((), st')) : Steps st.split st'.split := by
  obtain ⟨⟨⟩, st₁, hnote, hrun⟩ := exists_of_run_bind hrun
  obtain ⟨-, rfl⟩ := Prod.mk.inj (Option.some.inj hnote)
  obtain ⟨picked, st₁, hpick, hrun⟩ := exists_of_run_bind hrun
  by_cases hready : i ∈ st.world.1.deferred.queue
  · have hpicked := congrArg (fun x : _ × World C H ↦ some (x.1, (st.bare.withWorld x.2).beside
      (st.world.2 ++ [⟨.polled i, st.bare⟩]))) (World.pick_of_mem hready)
    obtain ⟨rfl, rfl⟩ := Prod.mk.inj (Option.some.inj (hpicked.symm.trans hpick))
    cases hvalue : (st.world.1.deferred.get i).arrival.value? with
    | none =>
      dsimp only at hrun
      rw [Logged.conclude, hvalue] at hrun
      obtain ⟨-, rfl⟩ := Prod.mk.inj (Option.some.inj hrun)
      exact .single (.miss hready hvalue)
    | some v =>
      obtain ⟨x, haside, hsteps⟩ := h.conclude hvalue hrun
      exact .head (.meet hready rfl hvalue haside) hsteps
  · have hpicked := congrArg (fun x : _ × World C H ↦ some (x.1, (st.bare.withWorld x.2).beside
      (st.world.2 ++ [⟨.polled i, st.bare⟩]))) (World.pick_of_not_mem hready)
    obtain ⟨rfl, rfl⟩ := Prod.mk.inj (Option.some.inj (hpicked.symm.trans hpick))
    obtain ⟨-, rfl⟩ := Prod.mk.inj (Option.some.inj hrun)
    exact .single (.pass hready)

theorem resume (h : r.Deals) (hrun : r.run limit Logged.resume st = some ((), st')) :
    Steps st.split st'.split := by
  obtain ⟨next, st₁, hask, hrun⟩ := exists_of_run_bind hrun
  obtain ⟨-, rfl⟩ := Prod.mk.inj (Option.some.inj hask)
  cases next with
  | none =>
    obtain ⟨-, rfl⟩ := Prod.mk.inj (Option.some.inj hrun)
    exact .refl
  | some i =>
    obtain ⟨⟨⟩, st₁, hpoll, hrest⟩ := exists_of_run_bind hrun
    exact (h.poll hpoll).trans (h.live (p := Live.call .resume) (fun _ _ ↦ trivial) hrest)

theorem undertaking (h : r.Deals) {code : Undertaking C H α} {a : α}
    (hrun : r.run limit code.logged st = some (a, st')) : Steps st.split st'.split := by
  induction code generalizing st with
  | done _ =>
    obtain ⟨-, rfl⟩ := Prod.mk.inj (Option.some.inj hrun)
    exact .refl
  | live p aloof k ih =>
    obtain ⟨b, st₁, hp, hk⟩ := exists_of_run_bind hrun
    exact (h.live (aloof _) hp).trans (ih b hk)
  | declare vm field k ih =>
    obtain ⟨s, st₁, hdeclare, hk⟩ := exists_of_run_bind hrun
    obtain ⟨rfl, rfl⟩ := Prod.mk.inj (Option.some.inj ((run_declare vm field).symm.trans hdeclare))
    exact .head (.declare st.bare st.world.2 vm field) (ih _ hk)
  | write s v k ih =>
    obtain ⟨⟨⟩, st₁, hwrite, hk⟩ := exists_of_run_bind hrun
    exact (h.write hwrite).trans (ih hk)
  | assignLater vm field k ih =>
    obtain ⟨i, st₁, hassign, hk⟩ := exists_of_run_bind hrun
    exact (assignLater hassign).trans (ih i hk)
  | settle i value k ih =>
    obtain ⟨⟨⟩, st₁, hsettle, hk⟩ := exists_of_run_bind hrun
    exact (settle hsettle).trans (ih hk)
  | poll i k ih =>
    obtain ⟨⟨⟩, st₁, hpoll, hk⟩ := exists_of_run_bind hrun
    exact (h.poll hpoll).trans (ih hk)

end Runner.Deals

namespace Enterprise

variable (ε : Enterprise C H)

theorem deals_runner (fuel : Nat) : (ε.logged.runner fuel).Deals := by
  -- What an effect or a call does, it does on less fuel than the code that brings it about.
  induction fuel with
  | zero =>
    constructor
    · intro b st st' hrun
      cases hrun
    · intro q st a st' hrun
      cases hrun
  | succ fuel ih =>
    constructor
    · intro b st st' hrun
      rw [Meaning.runner_succ_body] at hrun
      obtain ⟨⟨⟨⟩, st₁⟩, hbody, rfl⟩ := Option.map_eq_some_iff.mp hrun
      exact ih.live (b.aloof_script _) hbody
    · intro q st a st' hrun
      rw [Meaning.runner_succ_call] at hrun
      cases q with
      | perform code => exact ih.undertaking hrun
      | bind code scope node descriptor => exact ih.undertaking hrun
      | link code scope target => exact ih.undertaking hrun
      | resume => exact ih.resume hrun

/-- **A run is a sequence of steps**, whatever effects, hooks and directives do. -/
theorem steps {fuel : Nat} {code : Undertaking C H α} {st st' : LiveState C H} {a : α}
    {es : Log C H}
    (hrun : ε.logged.run fuel code.logged (st.beside []) = some (a, st'.beside es)) :
    Log.Steps (st, []) (st', es) :=
  (ε.deals_runner fuel).undertaking hrun

end Enterprise

end LiveMarkup
