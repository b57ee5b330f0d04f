import LiveMarkup.Proofs.Live.Fields
import LiveMarkup.Proofs.Reactive.Attention

/-!
# Following an expression

An effect that evaluates a path whenever it runs follows the path: after whatever is written outside
of any run, its latest run has evaluated the path to what it is worth
(`Client.follows_or_overtaken`). That takes two things. The head of the path is a field when the
effect is registered, so that evaluating the path reads a signal. And the effect was not overtaken,
that is, stale already when its own registration ended; no effect is that writes nothing.

If the head is no field yet, evaluating reads nothing, and the field that the first write makes has
no subscribers. The effect does not run again (`Follower.missing_not_hasEvaluated`).
-/

namespace LiveMarkup

variable {C H α β : Type}

/-! ## Code that keeps a field -/

/-- Whether a view-model that somebody holds has a field with a given signal. -/
structure World.HasField (vm : ViewModelId) (name : String) (s : SignalId) (w : World C H) :
    Prop where
  field : (w.viewModel vm).field? name = some s
  held : (w.viewModel vm).gone = false

/-- A new field goes behind the others. -/
theorem World.HasField.addField {vm : ViewModelId} {name : String} {s : SignalId} {w : World C H}
    (h : w.HasField vm name s) (vm' : ViewModelId) (x : String × SignalId) :
    (w.modifyViewModel vm' fun m ↦ { m with fields := m.fields ++ [x] }).HasField vm name s := by
  obtain ⟨hfield, hheld⟩ := h
  constructor
  · rw [viewModel_modifyViewModel]
    split
    · rename_i heq
      obtain ⟨rfl, -⟩ := heq
      rw [ViewModel.field?] at hfield ⊢
      rw [List.lookup_append, hfield, Option.some_or]
    · exact hfield
  · rw [viewModel_modifyViewModel]
    split
    · rename_i heq
      obtain ⟨rfl, -⟩ := heq
      exact hheld
    · exact hheld

section Retains

variable {vm : ViewModelId} {name : String} {s : SignalId}

theorem ViewModelId.retains_declare (vm' : ViewModelId) (other : String) :
    (vm'.declare other : Live C H SignalId).Retains (World.HasField vm name s) := by
  refine Script.Retains.bind (fun _ _ _ ↦ trivial) fun s? ↦ ?_
  cases s? with
  | some s' => trivial
  | none => exact fun s' ↦ ⟨fun w hw ↦ hw.addField vm' (other, s'), trivial⟩

theorem ViewModelId.retains_set (vm' : ViewModelId) (other : String) (v : Value) :
    (vm'.set other v : Live C H Unit).Retains (World.HasField vm name s) :=
  (retains_declare vm' other).bind fun _ ↦ trivial

theorem ViewModelId.retains_get (vm' : ViewModelId) (other : String) :
    (vm'.get other : Live C H Value).Retains (World.HasField vm name s) := by
  refine Script.Retains.bind (fun _ _ _ ↦ trivial) fun s? ↦ ?_
  cases s? with
  | some s' => exact fun _ ↦ trivial
  | none => trivial

theorem ViewModelId.retains_evaluateText (vm' : ViewModelId) (source : List Char) :
    (vm'.evaluateText source : Live C H String).Retains (World.HasField vm name s) := by
  refine Script.Retains.bind ?_ fun _ ↦ trivial
  rw [evaluate]
  cases Expression.parse source with
  | constant v => trivial
  | path head segments => exact (retains_get vm' head).bind fun _ ↦ trivial

theorem ViewModelId.retains_interpolate (vm' : ViewModelId) (template : String) :
    (vm'.interpolate template : Live C H String).Retains (World.HasField vm name s) := by
  refine Script.Retains.bind ?_ fun _ ↦ trivial
  induction Interpolation.tokenize template.toList with
  | nil => trivial
  | cons token tokens ih =>
    cases token with
    | literal text => exact ih.bind fun _ ↦ trivial
    | expression source =>
      exact (retains_evaluateText vm' source).bind fun _ ↦ ih.bind fun _ ↦ trivial

theorem ViewModelId.retains_unlessGone (vm' : ViewModelId) {p : Live C H Unit}
    (hp : p.Retains (World.HasField vm name s)) :
    (vm'.unlessGone p).Retains (World.HasField vm name s) := by
  refine Script.Retains.bind (fun _ _ _ ↦ trivial) fun gone ↦ ?_
  cases gone with
  | true => trivial
  | false => exact hp

/-- Effects edit nodes, or ask for code. -/
theorem Routine.retains_script (b : Routine C) :
    (b.script : Live C H Unit).Retains (World.HasField vm name s) := by
  have hedit (f : String → NodeStore → NodeStore) (text : String) :
      (Live.edit (f text) : Live C H Unit).Retains (World.HasField vm name s) :=
    ⟨fun _ hw ↦ ⟨hw.field, hw.held⟩, trivial⟩
  cases b with
  | text vm' node expression =>
    exact ViewModelId.retains_unlessGone vm' ((ViewModelId.retains_evaluateText vm' _).bind
      (hedit fun text nodes ↦ nodes.setTextContent node text))
  | attr vm' node attr expression =>
    exact ViewModelId.retains_unlessGone vm' ((ViewModelId.retains_evaluateText vm' _).bind
      (hedit fun text nodes ↦ nodes.setAttribute node attr text))
  | interpolatedAttr vm' node attr template =>
    exact ViewModelId.retains_unlessGone vm' ((ViewModelId.retains_interpolate vm' _).bind
      (hedit fun text nodes ↦ nodes.setAttribute node attr text))
  | client code => exact fun _ ↦ trivial

theorem Live.retains_resume : (Live.resume : Live C H Unit).Retains (World.HasField vm name s) := by
  refine Script.Retains.bind (fun _ w hw ↦ ⟨fun _ _ ↦ ?_, trivial⟩) fun next ↦ ?_
  · dsimp only
    split
    · exact ⟨hw.field, hw.held⟩
    · exact hw
  · have hagain : (Live.call .resume : Live C H Unit).Retains (World.HasField vm name s) :=
      fun _ ↦ trivial
    split
    · trivial
    · dsimp only
      split
      · refine Script.Retains.bind ⟨fun _ hw ↦ ⟨hw.field, hw.held⟩, ?_⟩ fun _ ↦ hagain
        refine (ViewModelId.retains_set _ _ _).bind fun _ ↦ ?_
        exact ⟨fun _ hw ↦ ⟨hw.field, hw.held⟩, trivial⟩
      · exact hagain
      · exact hagain

end Retains

/-! ## Code that writes nothing -/

section Quiet

theorem Script.Quiet.bind {V R W Q : Type} {A : Q → Type} {p : Script V R W Q A α}
    {f : α → Script V R W Q A β} (hp : p.Quiet) (hf : ∀ a, (f a).Quiet) : (p.bind f).Quiet := by
  induction p with
  | done a => exact hf a
  | look k ih => exact fun g w ↦ ih g w (hp g w)
  | change h k ih => exact ih hp
  | newSignal v k ih => exact fun s ↦ ih s (hp s)
  | read s k ih => exact fun v ↦ ih v (hp v)
  | stop e k ih => exact ih hp
  | write | effect | call => exact hp.elim

theorem ViewModelId.quiet_evaluateText (vm : ViewModelId) (source : List Char) :
    Script.Quiet (vm.evaluateText source : Live C H String) := by
  have hget (name : String) : Script.Quiet (vm.get name : Live C H Value) := by
    refine Script.Quiet.bind (fun _ _ ↦ trivial) fun s? ↦ ?_
    cases s? with
    | some s => exact fun _ ↦ trivial
    | none => trivial
  refine Script.Quiet.bind ?_ fun _ ↦ trivial
  rw [evaluate]
  cases Expression.parse source with
  | constant v => trivial
  | path head segments => exact (hget head).bind fun _ ↦ trivial

theorem ViewModelId.quiet_interpolate (vm : ViewModelId) (template : String) :
    Script.Quiet (vm.interpolate template : Live C H String) := by
  refine Script.Quiet.bind ?_ fun _ ↦ trivial
  induction Interpolation.tokenize template.toList with
  | nil => trivial
  | cons token tokens ih =>
    cases token with
    | literal text => exact ih.bind fun _ ↦ trivial
    | expression source =>
      exact (vm.quiet_evaluateText source).bind fun _ ↦ ih.bind fun _ ↦ trivial

/-- The effects of the two directives write nothing. -/
theorem Routine.quiet_script {b : Routine C} (hb : ∀ code, b ≠ .client code) :
    Script.Quiet (b.script : Live C H Unit) := by
  have hgone (vm : ViewModelId) {p : Live C H Unit} (hp : p.Quiet) :
      Script.Quiet (vm.unlessGone p) := by
    refine Script.Quiet.bind (fun _ _ ↦ trivial) fun gone ↦ ?_
    cases gone with
    | true => trivial
    | false => exact hp
  cases b with
  | text vm node expression =>
    exact hgone vm ((vm.quiet_evaluateText _).bind fun _ ↦ trivial)
  | attr vm node name expression =>
    exact hgone vm ((vm.quiet_evaluateText _).bind fun _ ↦ trivial)
  | interpolatedAttr vm node name template =>
    exact hgone vm ((vm.quiet_interpolate _).bind fun _ ↦ trivial)
  | client code => exact absurd rfl (hb code)

end Quiet

/-- Whether all code of a client keeps a fact about the world, where bodies and calls do. -/
structure Client.Retains (client : Client C H) (I : World C H → Prop) : Prop where
  perform : ∀ code, (client.perform code).Retains I
  bind : ∀ code scope n d, (client.bind code scope n d).Retains I
  link : ∀ code scope target, (client.link code scope target).Retains I

/-! ## Code that evaluates an expression -/

/-- Whether code evaluates an expression, whichever way it goes. -/
inductive Client.Evaluates (client : Client C H) (vm : ViewModelId) (source : List Char) :
    {α : Type} → Live C H α → Prop
  | evaluate : client.Evaluates vm source (vm.evaluate source)
  | first {α β : Type} {p : Live C H α} (f : α → Live C H β) :
    client.Evaluates vm source p → client.Evaluates vm source (p.bind f)
  | later {α β : Type} (p : Live C H α) {f : α → Live C H β} :
    (∀ a, client.Evaluates vm source (f a)) → client.Evaluates vm source (p.bind f)
  | unlessGone {p : Live C H Unit} :
    client.Evaluates vm source p → client.Evaluates vm source (vm.unlessGone p)
  | perform {code : C} : client.Evaluates vm source (client.perform code) →
    client.Evaluates vm source (Live.perform code)

namespace Client

variable {client : Client C H} {vm : ViewModelId} {source : List Char}

/-- The effects of the two directives evaluate their expressions. -/
theorem evaluates_text (node : NodeId) (expression : String) :
    client.Evaluates vm expression.toList (Routine.text vm node expression).script :=
  .unlessGone (.first _ (.first _ .evaluate))

theorem evaluates_attr (node : NodeId) (name expression : String) :
    client.Evaluates vm expression.toList (Routine.attr vm node name expression).script :=
  .unlessGone (.first _ (.first _ .evaluate))

/-- An interpolated attribute evaluates every expression of its text. -/
theorem evaluates_interpolatedAttr (node : NodeId) (name : String) {template : String}
    (hsource : .expression source ∈ Interpolation.tokenize template.toList) :
    client.Evaluates vm source (Routine.interpolatedAttr vm node name template).script := by
  refine .unlessGone (.first _ (.first _ ?_))
  generalize Interpolation.tokenize template.toList = tokens at hsource
  induction tokens with
  | nil => exact absurd hsource List.not_mem_nil
  | cons token tokens ih =>
    rcases List.mem_cons.mp hsource with rfl | hmem
    · exact .first _ (.first _ .evaluate)
    · cases token with
      | literal text => exact .first _ (ih hmem)
      | expression other => exact .later _ fun _ ↦ .first _ (ih hmem)

/-- The effects that have to read the signal of a field: those from a given one on that evaluate an
expression. -/
def concern (client : Client C H) (vm : ViewModelId) (source : List Char) (head : String)
    (s : SignalId) (first : Nat) : Concern (Routine C) (World C H) (Call C) where
  signal := s
  holds := World.HasField vm head s
  calls
    | .perform code => client.Evaluates vm source (client.perform code)
    | _ => False
  bodies b := client.Evaluates vm source b.script
  first := first

variable {head : String} {segments : List (List Char)} {s : SignalId} {first : Nat}

/-- Code that evaluates a path reads the signal of its head. -/
theorem Evaluates.consults (hsource : Expression.parse source = .path head segments)
    {p : Live C H α} (h : client.Evaluates vm source p) :
    p.Consults (client.concern vm source head s first) := by
  induction h with
  | evaluate =>
    have hget :
        (vm.get head : Live C H Value).Consults (client.concern vm source head s first) := by
      intro _ w hw
      dsimp only
      rw [hw.field]
      exact .inl rfl
    rw [ViewModelId.evaluate, hsource]
    exact hget.bind _
  | first f _ ih => exact ih.bind f
  | later p _ ih => exact .bind_right p ih
  | unlessGone _ ih =>
    intro _ w hw
    dsimp only
    rw [hw.held]
    exact ih
  | perform h => exact .inl h

theorem heeds (hclient : client.Retains (World.HasField vm head s))
    (hsource : Expression.parse source = .path head segments) :
    client.meaning.Heeds (client.concern vm source head s first) where
  retains_body b := b.retains_script
  retains_call
    | .perform code => hclient.perform code
    | .bind code scope n d => hclient.bind code scope n d
    | .link code scope target => hclient.link code scope target
    | .resume => Live.retains_resume
  body _ hb := hb.consults hsource
  call
    | .perform _, h => h.consults hsource

end Client

/-! ## After any writes -/

/-- Writes fields one after the other, of any view-models. -/
def Live.setEach : List (ViewModelId × String × Value) → Live C H Unit
  | [] => return ()
  | (vm, name, v) :: rest => do
    vm.set name v
    setEach rest

theorem Live.retains_setEach {vm : ViewModelId} {name : String} {s : SignalId}
    (sets : List (ViewModelId × String × Value)) :
    (Live.setEach sets : Live C H Unit).Retains (World.HasField vm name s) := by
  induction sets with
  | nil => trivial
  | cons x sets ih => exact (ViewModelId.retains_set x.1 x.2.1 x.2.2).bind fun _ ↦ ih

/-- Whether the latest run of an effect has evaluated a path to what it is worth now: it has read
the head, if that is a field, and wherever it did, the path led from there to the present value. -/
def State.HasEvaluated (st : State Value (Routine C) (World C H × Diary Value (Routine C)))
    (vm : ViewModelId) (head : String) (segments : List (List Char)) (e : EffectId) : Prop :=
  ∀ s, (st.world.1.viewModel vm).field? head = some s → st.HasRead e s ∧
    ∀ v, (s, v) ∈ st.diary.latestReads e →
      v.descend segments = (Expression.path head segments).value (st.erase.fieldValue vm)

theorem State.IsCurrent.hasEvaluated
    {st : State Value (Routine C) (World C H × Diary Value (Routine C))} {vm : ViewModelId}
    {head : String} {e : EffectId} {s : SignalId} (h : st.IsCurrent e)
    (hfield : (st.world.1.viewModel vm).field? head = some s) (hread : st.HasRead e s)
    (segments : List (List Char)) : st.HasEvaluated vm head segments e := by
  intro s' hs'
  obtain rfl : s = s' := Option.some.inj (hfield.symm.trans hs')
  refine ⟨hread, fun v hv ↦ ?_⟩
  have hvalue : st.erase.fieldValue vm head = st.graph.value s := by
    rw [State.fieldValue, State.erase, hfield]
  rw [Expression.value, hvalue, h (s, v) hv]

namespace Client

open State in
/-- **An effect follows the expressions that it evaluates.** Take any state that a program leaves
behind, and a path whose head is a field there. Register an effect that evaluates the path whenever
it runs, and then write any fields. If all that returns and the effect was not stopped, then its
latest run has evaluated the path to what it is worth, unless the effect was overtaken; and if all
effects were up to date before and this one writes nothing, it has done so in any case. The client's
own code may do whatever it likes, except take the field away. -/
theorem follows_or_overtaken (client : Client C H) {fuel₀ fuel₁ fuel₂ : Nat} {p : Live C H α}
    {w : World C H} {a : α}
    {st : State Value (Routine C) (World C H × Diary Value (Routine C))}
    (hp : client.meaning.observed.run fuel₀ p.observed ⟨.empty, w, []⟩ = some (a, st))
    {vm : ViewModelId} {source : List Char} {head : String} {segments : List (List Char)}
    (hsource : Expression.parse source = .path head segments) {s : SignalId}
    (hfield : st.world.1.HasField vm head s) (hlt : s.index < st.graph.signals.size)
    (hclient : client.Retains (World.HasField vm head s)) {b : Routine C}
    (hb : client.Evaluates vm source b.script) {e : EffectId} {middle : LiveState C H}
    (heffect : client.run fuel₁ (Live.effect b) st.erase = some (e, middle))
    {sets : List (ViewModelId × String × Value)} {last : LiveState C H}
    (hsets : client.run fuel₂ (Live.setEach sets) middle = some ((), last)) :
    ∃ st₁ st',
      client.meaning.observed.run fuel₁ (Script.observed (.effect b .done)) st = some (e, st₁) ∧
      client.meaning.observed.run fuel₂ (Live.setEach sets).observed st₁ = some ((), st') ∧
      st₁.erase = middle ∧ st'.erase = last ∧
      (st'.graph.isActive e = true →
        (st'.HasEvaluated vm head segments e ∨ st'.diary.Overtaken e) ∧
        (st.UpToDate → Script.Quiet (b.script : Live C H Unit) →
          st'.HasEvaluated vm head segments e)) := by
  rw [Client.run, Live.effect, ← client.meaning.run_observed] at heffect
  obtain ⟨⟨e₁, st₁⟩, hrun₁, hmiddle⟩ := Option.map_eq_some_iff.mp heffect
  obtain ⟨rfl, rfl⟩ := Prod.mk.inj hmiddle
  rw [Client.run, ← client.meaning.run_observed] at hsets
  obtain ⟨⟨_, st'⟩, hrun₂, hlast⟩ := Option.map_eq_some_iff.mp hsets
  obtain ⟨-, rfl⟩ := Prod.mk.inj hlast
  refine ⟨st₁, st', hrun₁, hrun₂, rfl, rfl, fun ha ↦ ?_⟩
  have hbefore := client.meaning.run_of_steady proceeds_steady hp
  have hfirst := client.meaning.run_of_steady proceeds_steady hrun₁
  have hthen := client.meaning.run_of_steady proceeds_steady hrun₂
  -- Evaluating the path subscribes the effect to the head, so it is enough that the effect is
  -- current.
  obtain ⟨hinformed, hread⟩ := Meaning.hasRead_of_run (heeds hclient hsource) hb hfield hlt rfl
    hrun₁ (Live.retains_setEach sets) hrun₂ ha
  have hevaluated (hcurrent : st'.IsCurrent e₁) : st'.HasEvaluated vm head segments e₁ :=
    hcurrent.hasEvaluated hinformed.holds.field hread segments
  have hbody : (st'.graph.effect e₁).body.isSome = true :=
    ((hbefore.continues.trans hfirst.continues).trans hthen.continues).bodies
      (fun e ha ↦ Bool.noConfusion ha) e₁ ha
  have hpoised := hbefore.poised 0 ⟨rfl, rfl, ⟨fun e he ↦ Bool.noConfusion he,
    fun e ha ↦ Bool.noConfusion ha⟩, Nat.le_refl _, fun e ha ↦ Bool.noConfusion ha⟩
  constructor
  · have hpoised' := hthen.poised 0 (hfirst.poised 0 hpoised)
    exact (hpoised'.current e₁ ha hbody).imp hevaluated And.right
  · -- Nobody was overtaken when the effect had run, so that later flushes exempt nobody.
    intro hst hquiet
    have hcalm := client.meaning.calm_of_effect ⟨hpoised.grounded, hpoised.queue, hst.fresh _⟩
      hquiet hrun₁
    have hpoised₁ : st₁.Poised st₁.graph.effects.size :=
      ⟨(hfirst.poised 0 hpoised).flushing, hcalm.queue, hcalm.grounded, Nat.le_refl _,
        fun e ha _ ↦ .inl (hcalm.upToDate e ha)⟩
    have hlt₁ := (Meaning.body_of_run_effect hrun₁).2.1
    refine hevaluated (((hthen.poised _ hpoised₁).current e₁ ha hbody).resolve_right fun hc ↦ ?_)
    exact absurd hlt₁ (Nat.not_lt.mpr hc.1)

end Client

/-! ### A text that follows a path -/

namespace Follower

abbrev FollowerState : Type :=
  State Value (Routine Empty) (World Empty Unit × Diary Value (Routine Empty))

/-- The effect that keeps the text of a node equal to a path of the first view-model. -/
def routine : Routine Empty := .text ⟨0⟩ ⟨0⟩ "x.y"

/-- Writes the head of the path. -/
def sets : List (ViewModelId × String × Value) := [(⟨0⟩, "x", .object [("y", .bool true)])]

/-- A text, and nothing else. -/
def start : World Empty Unit where
  nodes := (NodeStore.empty.create { kind := .text }).2
  host := ()

/-- What becomes of a view-model that is made from data: then the effect is registered, and then the
head of its path is written. -/
structure Course (data : Value) where
  vm : ViewModelId
  ready : FollowerState
  effect : EffectId
  registered : FollowerState
  written : FollowerState
  run_ready : Client.none.meaning.observed.run 2 (ViewModelId.ofData data).observed
    ⟨.empty, start, []⟩ = some (vm, ready)
  run_registered : Client.none.meaning.observed.run 3 (Script.observed (.effect routine .done))
    ready = some (effect, registered)
  run_written : Client.none.meaning.observed.run 4 (Live.setEach sets).observed registered =
    some ((), written)

def course? (data : Value) : Option (Course data) :=
  match h : Client.none.meaning.observed.run 2 (ViewModelId.ofData data).observed
    ⟨.empty, start, []⟩ with
  | none => none
  | some (vm, ready) =>
    match h₁ : Client.none.meaning.observed.run 3 (Script.observed (.effect routine .done))
        ready with
    | none => none
    | some (e, registered) =>
      match h₂ : Client.none.meaning.observed.run 4 (Live.setEach sets).observed registered with
      | none => none
      | some ((), written) => some ⟨vm, ready, e, registered, written, h, h₁, h₂⟩

theorem exists_of_any {data : Value} {P : Course data → Prop} [DecidablePred P]
    (h : (course? data).any (fun c ↦ decide (P c)) = true) : ∃ c, P c := by
  obtain ⟨c, -, hc⟩ := Option.any_eq_true _ _ |>.mp h
  exact ⟨c, of_decide_eq_true hc⟩

theorem parse_path : Expression.parse "x.y".toList = .path "x" [['y']] := rfl

theorem evaluates_routine : Client.none.Evaluates ⟨0⟩ "x.y".toList routine.script :=
  Client.evaluates_text ⟨0⟩ "x.y"

/-- A text whose field is there when its effect is registered follows the field. -/
theorem found_hasEvaluated : ∃ c : Course (.object [("x", .null)]),
    c.written.graph.isActive c.effect = true ∧ (c.written.world.1.nodes.get ⟨0⟩).data = "true" ∧
      c.written.HasEvaluated ⟨0⟩ "x" [['y']] c.effect := by
  obtain ⟨c, hsize, hsignals, hfield, hgone, hactive, hdata⟩ :
    ∃ c : Course (.object [("x", .null)]),
      c.ready.graph.effects.size = 0 ∧ c.ready.graph.signals.size = 1 ∧
        (c.ready.world.1.viewModel ⟨0⟩).field? "x" = some ⟨0⟩ ∧
        (c.ready.world.1.viewModel ⟨0⟩).gone = false ∧
        c.written.graph.isActive c.effect = true ∧
        (c.written.world.1.nodes.get ⟨0⟩).data = "true" := exists_of_any (by decide +kernel)
  have hup : c.ready.UpToDate := fun e ha ↦
    absurd (hsize ▸ Graph.lt_of_isActive ha) (Nat.not_lt_zero _)
  have hregistered := Client.none.meaning.run_observed 3 (.effect routine .done) c.ready
  rw [c.run_registered] at hregistered
  have hwritten := Client.none.meaning.run_observed 4 (Live.setEach sets) c.registered
  rw [c.run_written] at hwritten
  obtain ⟨st₁, st', hrun₁, hrun₂, -, -, hfollows⟩ := Client.none.follows_or_overtaken c.run_ready
    parse_path ⟨hfield, hgone⟩ (hsignals ▸ Nat.one_pos) ⟨nofun, nofun, nofun⟩
    evaluates_routine hregistered.symm hwritten.symm
  obtain rfl := congrArg Prod.snd (Option.some.inj (c.run_registered.symm.trans hrun₁))
  obtain rfl := congrArg Prod.snd (Option.some.inj (c.run_written.symm.trans hrun₂))
  exact ⟨c, hactive, hdata, (hfollows hactive).2 hup (Routine.quiet_script nofun)⟩

/-- **A text misses the field that is made for it.** The effect evaluates its path whenever it runs
and writes nothing. But when it is registered the head of its path is no field yet, and after the
first write it has not run again. -/
theorem missing_not_hasEvaluated : ∃ c : Course (.object []),
    Client.none.Evaluates ⟨0⟩ "x.y".toList routine.script ∧
      Script.Quiet (routine.script : Live Empty Unit Unit) ∧
      c.written.graph.isActive c.effect = true ∧ (c.written.world.1.nodes.get ⟨0⟩).data = "" ∧
      ¬ c.written.HasEvaluated ⟨0⟩ "x" [['y']] c.effect := by
  obtain ⟨c, hactive, hdata, hfield, hreads⟩ : ∃ c : Course (.object []),
      c.written.graph.isActive c.effect = true ∧
        (c.written.world.1.nodes.get ⟨0⟩).data = "" ∧
        (c.written.world.1.viewModel ⟨0⟩).field? "x" = some ⟨0⟩ ∧
        (c.written.diary.latestReads c.effect).isEmpty = true := exists_of_any (by decide +kernel)
  refine ⟨c, evaluates_routine, Routine.quiet_script nofun, hactive, hdata, fun h ↦ ?_⟩
  obtain ⟨v, hv⟩ := (h ⟨0⟩ hfield).1
  rw [List.isEmpty_iff.mp hreads] at hv
  exact List.not_mem_nil hv

end Follower

end LiveMarkup
