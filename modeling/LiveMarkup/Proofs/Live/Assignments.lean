import LiveMarkup.Proofs.Live.Arrivals

/-!
# No assignment is lost, and none is invented

The log of a run accounts for its fields and its assignments (`Log.Account`). At every moment the
fields are where the log says, and each entry is as it should be for what was noted before it and
for what is noted next (`Log.Told`): whoever first looks at an assignment whose value has arrived
writes that value, to the field to which the assignment was made, and nothing else is written in its
name. This is kept by every step that a run can make (`Log.Faithful.step`), with one lemma for each.

From it follows that the order does not matter (`Log.Faithful.snapshot_eq`). A field that was left
to one assignment was written in its name and in no other, so in the end it holds what has arrived;
and that does not depend on when it arrived, nor on when somebody looked.

Whether a run ends is another question, for a write can bring about anything. Where nobody reads
fields, it does (`Undertaking.Prompt.yields`).
-/

namespace LiveMarkup

variable {C H α β : Type}

namespace State

variable {st st₀ : LiveState C H} {vm : ViewModelId} {field : String}

/-- Whether a field was declared between two states, which keeps the value that it has, and nothing
else happened to fields. -/
structure Declares (before after : LiveState C H) (vm : ViewModelId) (field : String) : Prop where
  here : vm.index < before.world.viewModels.size →
    after.snapshot vm field = some (before.fieldValue vm field)
  elsewhere : ∀ vm' name, ¬ (vm' = vm ∧ name = field) →
    after.snapshot vm' name = before.snapshot vm' name

theorem snapshot_of_none {name : String} (h : (st.world.viewModel vm).field? name = none) :
    st.snapshot vm name = none := by
  rw [snapshot, h, Option.bind_none]

/-- A field that is there is seen as it was. -/
theorem Furnished.snapshot_declare (h : st.Furnished) {vm' : ViewModelId} {name : String}
    {s : SignalId} (hs : (st.world.viewModel vm').field? name = some s) :
    (st.declare vm field).2.snapshot vm' name = st.snapshot vm' name := by
  rw [h.snapshot hs, (h.declare vm field).snapshot (field?_declare_of_some' hs), Graph.value,
    signal_declare (h.lt vm' name s hs), Graph.value]

theorem Furnished.declares (h : st.Furnished) (vm : ViewModelId) (field : String) :
    st.Declares (st.declare vm field).2 vm field where
  here hvm := by
    cases hfield : (st.world.viewModel vm).field? field with
    | some s =>
      rw [h.snapshot_declare hfield, h.snapshot hfield, fieldValue, hfield]
    | none =>
      rw [(h.declare vm field).snapshot (field?_declare_self hvm field), fieldValue, hfield,
        declare_of_none hfield, Graph.value, Graph.signal_newSignal, if_pos rfl]
  elsewhere vm' name hne := by
    cases hname : (st.world.viewModel vm').field? name with
    | some s => exact h.snapshot_declare hname
    | none =>
      have hnone : ((st.declare vm field).2.world.viewModel vm').field? name = none := by
        refine Option.eq_none_iff_forall_ne_some.mpr fun s hs ↦ ?_
        rcases field?_declare_cases hs with hold | ⟨heq, -, -⟩
        · exact absurd hold (hname ▸ (Option.some_ne_none s).symm)
        · exact hne heq
      rw [snapshot_of_none hnone, snapshot_of_none hname]

/-- To make an assignment declares its field. -/
theorem Furnished.declares_assigned (h : st.Furnished) (vm : ViewModelId) (field : String) :
    st.Declares (st.assigned vm field) vm field :=
  ⟨(h.declares vm field).here, (h.declares vm field).elsewhere⟩

end State

namespace Log

/-- Whether a write to a signal carries out an assignment, of which somebody has just taken notice
for the first time after its value had arrived. -/
structure Carries (es : Log C H) (i : AssignmentId) (s : SignalId) (v : Value)
    (st : LiveState C H) : Prop where
  settled : es.settlement? i = some (some v)
  first : ¬ es.Concluded i
  /-- The signal is that of the field to which the assignment was made. -/
  target : ∃ e ∈ es, ∃ vm field before, e.what = .made i vm field before ∧
    (∀ vm' name, (st.world.viewModel vm').field? name = some s → vm' = vm ∧ name = field) ∧
    (vm.index < before.world.viewModels.size → (st.world.viewModel vm).field? field = some s)

/-- Whether what is noted after a log, and before what is noted next, is as it should be. -/
structure Told (es₁ : Log C H) (st₀ : LiveState C H) (e : Entry C H) (es₂ : Log C H) : Prop where
  /-- At every moment the fields hold what was last written. -/
  shows : es₁.Shows st₀ e.state
  /-- An assignment that is made is a new one, and its field is there from then on. -/
  made : ∀ i vm field before, e.what = .made i vm field before →
    (∀ e' ∈ es₁, ∀ vm' field' before', e'.what ≠ .made i vm' field' before') ∧
      es₁.Shows st₀ before ∧ before.Declares e.state vm field
  /-- Whoever first looks at an assignment whose value has arrived writes it. -/
  polled : ∀ i v, e.what = .polled i → es₁.settlement? i = some (some v) → ¬ es₁.Concluded i →
    ∃ (s : SignalId) (st : LiveState C H) (es₃ : Log C H), es₂ = ⟨.wrote s v (some i), st⟩ :: es₃
  /-- Nothing else is written in the name of an assignment. -/
  wrote : ∀ s v i, e.what = .wrote s v (some i) →
    ∃ (es₀ : Log C H) (p : Entry C H), es₁ = es₀ ++ [p] ∧ p.what = .polled i ∧
      es₀.Carries i s v e.state

/-- Whether a log accounts for the fields and the assignments between two states. -/
structure Account (es : Log C H) (st₀ st : LiveState C H) : Prop where
  shows : es.Shows st₀ st
  told : ∀ (es₁ : Log C H) (e : Entry C H) (es₂ : Log C H), es = es₁ ++ e :: es₂ →
    es₁.Told st₀ e es₂
  /-- A value that has arrived is written once, when somebody looks. -/
  fulfilled : ∀ i v, es.settlement? i = some (some v) → es.Concluded i → es.assigned i = [v]
  /-- An assignment that is rejected or dropped writes nothing. -/
  rejected : ∀ i, es.settlement? i = some none → es.assigned i = []
  /-- Nothing is written before something has arrived and somebody looks. -/
  pending : ∀ i, ¬ es.Concluded i → es.assigned i = []

/-- What somebody's look at an assignment has to be followed by. -/
theorem Told.of_polled {es₁ es₂ : Log C H} {st₀ st : LiveState C H} {i : AssignmentId}
    (hshows : es₁.Shows st₀ st)
    (hwrites : ∀ v, es₁.settlement? i = some (some v) → ¬ es₁.Concluded i →
      ∃ (s : SignalId) (x : LiveState C H) (es₃ : Log C H), es₂ = ⟨.wrote s v (some i), x⟩ :: es₃) :
    es₁.Told st₀ ⟨.polled i, st⟩ es₂ where
  shows := hshows
  made _ _ _ _ hwhat := by cases hwhat
  polled j v hwhat := by
    obtain rfl : i = j := by injection hwhat
    exact hwrites v
  wrote _ _ _ hwhat := by cases hwhat

theorem Told.append {es₁ es₂ es₃ : Log C H} {st₀ : LiveState C H} {e : Entry C H}
    (h : es₁.Told st₀ e es₂) : es₁.Told st₀ e (es₂ ++ es₃) where
  shows := h.shows
  made := h.made
  polled i v hpolled hvalue hfirst := by
    obtain ⟨s, st, es, rfl⟩ := h.polled i v hpolled hvalue hfirst
    exact ⟨s, st, es ++ es₃, rfl⟩
  wrote := h.wrote

/-! ## Whatever happens, the log is right -/

/-- What a log says of a state, and why it goes on being right. -/
structure Faithful (es : Log C H) (st₀ st : LiveState C H) : Prop where
  holds : es.Holds st₀ st
  agenda : es.Agenda st.world.deferred
  told : ∀ (es₁ : Log C H) (e : Entry C H) (es₂ : Log C H), es = es₁ ++ e :: es₂ →
    es₁.Told st₀ e es₂

namespace Faithful

variable {es es' : Log C H} {st₀ st st' : LiveState C H} {i : AssignmentId} {e : Entry C H}

theorem start (h₀ : st₀.Furnished) (hnew : st₀.world.deferred = ⟨#[], [], []⟩) :
    Faithful [] st₀ st₀ where
  holds := .start h₀
  agenda := hnew ▸ .start
  told _ _ _ h := absurd h.symm (List.append_ne_nil_of_right_ne_nil _ (List.cons_ne_nil _ _))

theorem account (h : es.Faithful st₀ st) : es.Account st₀ st where
  shows := h.holds.shows
  told := h.told
  fulfilled i v hvalue hconcluded := by
    rw [h.agenda.concluded i hconcluded, hvalue]
    rfl
  rejected i hvalue := by
    by_cases hconcluded : es.Concluded i
    · rw [h.agenda.concluded i hconcluded, hvalue]
      rfl
    · exact h.agenda.pending i hconcluded
  pending := h.agenda.pending

/-- One entry more. -/
theorem told_concat (h : es.Faithful st₀ st) (he : es.Told st₀ e []) :
    ∀ (es₁ : Log C H) (e' : Entry C H) (es₂ : Log C H), es ++ [e] = es₁ ++ e' :: es₂ →
      es₁.Told st₀ e' es₂ := by
  intro es₁ e' es₂ heq
  rcases split_concat heq with ⟨rfl, rfl, rfl⟩ | ⟨n, hes, rfl⟩
  · exact he
  · exact (h.told es₁ e' n hes).append

/-- Nothing happens to fields and assignments. -/
theorem keep (h : es.Faithful st₀ st) (haside : st.Aside st') : es.Faithful st₀ st' where
  holds := h.holds.keep haside.world.field haside.signals haside.value
  agenda := haside.world.deferred ▸ h.agenda
  told := h.told

theorem declare (h : es.Faithful st₀ st) (vm : ViewModelId) (field : String) :
    es.Faithful st₀ (st.declare vm field).2 where
  holds := h.holds.declare vm field
  agenda := by
    rw [State.world_declare]
    exact h.agenda
  told := h.told

theorem write (h : es.Faithful st₀ st) {s : SignalId} (hs : s.index < st.graph.signals.size)
    (v : Value) : Faithful (es ++ [⟨.wrote s v none, st⟩]) st₀
      (st.withGraph (st.graph.write s v)) where
  holds := h.holds.write hs v none
  agenda := h.agenda.write s v st
  told := h.told_concat {
    shows := h.holds.shows
    made := fun _ _ _ _ hwhat ↦ by cases hwhat
    polled := fun _ _ hwhat ↦ by cases hwhat
    wrote := fun _ _ _ hwhat ↦ by cases hwhat }

theorem make (h : es.Faithful st₀ st) (vm : ViewModelId) (field : String) :
    Faithful (es ++ [⟨.made ((st.declare vm field).2.world.deferred.add vm field).1 vm field st,
      st.assigned vm field⟩]) st₀ (st.assigned vm field) := by
  have hdeclare := h.declare vm field
  have hassigned : es.Holds st₀ (st.assigned vm field) :=
    hdeclare.holds.keep (fun _ _ ↦ rfl) (Nat.le_refl _) fun _ _ ↦ rfl
  refine ⟨hassigned.note (fun _ _ _ hwhat ↦ by cases hwhat) ?_, hdeclare.agenda.make vm field _ _,
    h.told_concat ?_⟩
  · intro i vm' field' before hwhat hvm
    cases hwhat
    exact Option.isSome_iff_exists.mpr ⟨_, State.field?_declare_self hvm field⟩
  · constructor
    case shows => exact hassigned.shows
    case made =>
      intro i vm' field' before hwhat
      cases hwhat
      refine ⟨fun e he vm' field' before hmade ↦ ?_, h.holds.shows,
        h.holds.furnished.declares_assigned vm field⟩
      exact Nat.lt_irrefl _ (hdeclare.agenda.made e he _ _ _ _ hmade).1
    case polled =>
      intro i v hwhat
      cases hwhat
    case wrote =>
      intro s v i hwhat
      cases hwhat

theorem settle (h : es.Faithful st₀ st) (hi : i.index < st.world.deferred.assignments.size)
    (value : Option Value) :
    Faithful (es ++ [⟨.settled i value, st⟩]) st₀ (st.settled i value) where
  holds := (h.holds.note (fun _ _ _ hwhat ↦ by cases hwhat) fun _ _ _ _ hwhat ↦ by cases hwhat).keep
    (fun _ _ ↦ rfl) (Nat.le_refl _) fun _ _ ↦ rfl
  agenda := h.agenda.settle hi value st
  told := h.told_concat {
    shows := h.holds.shows
    made := fun _ _ _ _ hwhat ↦ by cases hwhat
    polled := fun _ _ hwhat ↦ by cases hwhat
    wrote := fun _ _ _ hwhat ↦ by cases hwhat }

/-- Somebody looks at an assignment that is asleep or over. -/
theorem pass (h : es.Faithful st₀ st) (hi : i ∉ st.world.deferred.queue) :
    Faithful (es ++ [⟨.polled i, st⟩]) st₀ st where
  holds := h.holds.note (fun _ _ _ hwhat ↦ by cases hwhat) fun _ _ _ _ hwhat ↦ by cases hwhat
  agenda := h.agenda.pass hi st
  told := h.told_concat <| .of_polled h.holds.shows fun v hvalue hfirst ↦
    absurd ((h.agenda.queued i (hvalue ▸ rfl)).mpr hfirst) hi

/-- Somebody looks, which is nothing to fields. -/
theorem holds_polled (h : es.Faithful st₀ st) (i : AssignmentId) (d : Deferred) :
    Holds (es ++ [⟨.polled i, st⟩]) st₀ (st.withDeferred d) :=
  (h.holds.note (fun _ _ _ hwhat ↦ by cases hwhat) fun _ _ _ _ hwhat ↦ by cases hwhat).keep
    (fun _ _ ↦ rfl) (Nat.le_refl _) fun _ _ ↦ rfl

/-- Somebody looks at an assignment that has no value. -/
theorem miss (h : es.Faithful st₀ st) (hi : i ∈ st.world.deferred.queue)
    (hnone : (st.world.deferred.get i).arrival.value? = none) :
    Faithful (es ++ [⟨.polled i, st⟩]) st₀ (st.withDeferred (st.world.deferred.pick i)) := by
  rw [h.agenda.value?_arrival (h.agenda.known i (.inl hi))] at hnone
  refine ⟨h.holds_polled i _, h.agenda.miss hi hnone st,
    h.told_concat (.of_polled h.holds.shows fun v hvalue _ ↦ ?_)⟩
  rw [hvalue] at hnone
  contradiction

/-- The field of an assignment is declared once more before it is written. -/
theorem carries {x : LiveState C H} {v : Value} {p : Entry C H} (h : es.Faithful st₀ st)
    (hi : i ∈ st.world.deferred.queue) (hvalue : es.settlement? i = some (some v))
    (hx : Holds (es ++ [p]) st₀ x) :
    es.Carries i (x.declare (st.world.deferred.get i).vm (st.world.deferred.get i).field).1 v
      (x.declare (st.world.deferred.get i).vm (st.world.deferred.get i).field).2 where
  settled := hvalue
  first := (h.agenda.queued i (hvalue ▸ rfl)).mp hi
  target := by
    obtain ⟨e, he, before, hwhat⟩ := h.agenda.exists_made i (h.agenda.known i (.inl hi))
    refine ⟨e, he, _, _, before, hwhat, fun _ _ ↦ hx.furnished.eq_of_declare, fun hvm ↦ ?_⟩
    obtain ⟨s, hs⟩ := Option.isSome_iff_exists.mp
      (hx.made e (List.mem_append_left _ he) i _ _ before hwhat hvm)
    rw [State.declare_of_some hs]
    exact hs

/-- Somebody looks at an assignment whose value has arrived, and writes it. -/
theorem meet {x : LiveState C H} {a : Assignment} {v : Value} (h : es.Faithful st₀ st)
    (hi : i ∈ st.world.deferred.queue) (hget : st.world.deferred.get i = a)
    (hvalue : a.arrival.value? = some v)
    (haside : (st.withDeferred (st.world.deferred.pick i)).Aside x) :
    Faithful (es ++ [⟨.polled i, st⟩] ++
      [⟨.wrote (x.declare a.vm a.field).1 v (some i), (x.declare a.vm a.field).2⟩]) st₀
      (x.written a.vm a.field v) := by
  subst hget
  rw [h.agenda.value?_arrival (h.agenda.known i (.inl hi)), Option.join_eq_some_iff] at hvalue
  have hx := (h.holds_polled i _).keep haside.world.field haside.signals haside.value
  have hdeclare := hx.declare (st.world.deferred.get i).vm (st.world.deferred.get i).field
  have hdeferred : x.world.deferred = st.world.deferred.pick i := haside.world.deferred
  refine ⟨hdeclare.write (hx.furnished.lt_declare _ _) v (some i), ?_, ?_⟩
  · rw [State.world_written, State.world_declare, hdeferred]
    exact h.agenda.meet hi hvalue _ st _
  · intro es₁ e es₂ heq
    rcases split_concat heq with ⟨rfl, rfl, rfl⟩ | ⟨n, hn, rfl⟩
    · exact {
        shows := hdeclare.shows
        made := fun _ _ _ _ hwhat ↦ by cases hwhat
        polled := fun _ _ hwhat ↦ by cases hwhat
        wrote := fun _ _ _ hwhat ↦ by
          cases hwhat
          exact ⟨es, _, rfl, rfl, h.carries hi hvalue hx⟩ }
    rcases split_concat hn with ⟨rfl, rfl, rfl⟩ | ⟨n', hes, rfl⟩
    · refine .of_polled h.holds.shows fun w hw _ ↦ ?_
      obtain rfl : v = w := Option.some.inj (Option.some.inj (hvalue.symm.trans hw))
      exact ⟨_, _, [], rfl⟩
    · exact (h.told es₁ e n' hes).append.append

/-- **One thing more that happens.** -/
theorem step {es' : Log C H} (h : es.Faithful st₀ st) (hstep : Step (st, es) (st', es')) :
    es'.Faithful st₀ st' := by
  cases hstep with
  | aside haside => exact h.keep haside
  | declare _ _ vm field => exact h.declare vm field
  | write v known => exact h.write known v
  | make _ _ vm field => exact h.make vm field
  | settle value known => exact h.settle known value
  | pass absent => exact h.pass absent
  | miss ready valueless => exact h.miss ready valueless
  | meet ready get value aside => exact h.meet ready get value aside

theorem steps {x y : LiveState C H × Log C H} (h : x.2.Faithful st₀ x.1) (hsteps : Steps x y) :
    y.2.Faithful st₀ y.1 := by
  induction hsteps with
  | refl => exact h
  | tail _ hstep ih => exact ih.step hstep

end Faithful

/-! ## The order does not matter -/

/-- What arrived for the fields to which assignments were made. -/
def sources (es : Log C H) : List (ViewModelId × String × Option (Option Value)) :=
  es.makes.map fun x ↦ (x.2.1, x.2.2, es.settlement? x.1)

/-- Whether fields were left to the assignments that were made to them, one to each, and these are
all over. -/
structure Lone (es : Log C H) (st : LiveState C H) : Prop where
  founded : ∀ e ∈ es, e.what.Founded
  distinct : ∀ x ∈ es.makes, ∀ y ∈ es.makes, x.2 = y.2 → x = y
  alone : ∀ x ∈ es.makes, ∀ s ∈ es.unclaimed, (st.world.viewModel x.2.1).field? x.2.2 ≠ some s
  ended : ∀ x ∈ es.makes, es.Concluded x.1

instance (es : Log C H) (st : LiveState C H) : Decidable (es.Lone st) :=
  decidable_of_iff ((∀ e ∈ es, e.what.Founded) ∧
    (∀ x ∈ es.makes, ∀ y ∈ es.makes, x.2 = y.2 → x = y) ∧
    (∀ x ∈ es.makes, ∀ s ∈ es.unclaimed, (st.world.viewModel x.2.1).field? x.2.2 ≠ some s) ∧
    ∀ x ∈ es.makes, es.Concluded x.1)
    ⟨fun h ↦ ⟨h.1, h.2.1, h.2.2.1, h.2.2.2⟩, fun h ↦ ⟨h.founded, h.distinct, h.alone, h.ended⟩⟩

theorem Lone.lt {es : Log C H} {st before : LiveState C H} {e : Entry C H} {i : AssignmentId}
    {vm : ViewModelId} {field : String} (h : es.Lone st) (he : e ∈ es)
    (hmade : e.what = .made i vm field before) : vm.index < before.world.viewModels.size := by
  have hfounded := h.founded e he
  rwa [hmade] at hfounded

namespace Faithful

variable {es es' : Log C H} {st₀ st st' : LiveState C H} {i : AssignmentId} {e : Entry C H}
  {vm : ViewModelId} {field : String}

/-- Of all that is written in the name of an assignment, exactly what is written in the name of its
own concerns a field. -/
theorem wrote_iff (h : es.Faithful st₀ st) (hlone : es.Lone st) (hmake : (i, vm, field) ∈ es.makes)
    {s t : SignalId} (hs : (st.world.viewModel vm).field? field = some s) (he : e ∈ es) {v : Value}
    {j : AssignmentId} (hwhat : e.what = .wrote t v (some j)) : t = s ↔ j = i := by
  obtain ⟨es₁, es₂, hes⟩ := List.append_of_mem he
  obtain ⟨es₀, p, rfl, -, hcarries⟩ := (h.told es₁ e es₂ hes).wrote t v j hwhat
  obtain ⟨m, hm, vm', field', before, hmade, hown, hthere⟩ := hcarries.target
  have hm : m ∈ es := hes ▸ List.mem_append_left _ (List.mem_append_left _ hm)
  constructor
  · rintro rfl
    obtain ⟨rfl, rfl⟩ := hown vm field ((h.holds.written e he t v _ hwhat).2 vm field hs)
    have hx := hlone.distinct _ (mem_makes.mpr ⟨m, hm, before, hmade⟩) _ hmake rfl
    exact (Prod.mk.inj hx).1
  · rintro rfl
    obtain ⟨m', hm', before', hmade'⟩ := mem_makes.mp hmake
    obtain ⟨-, rfl, rfl⟩ := h.agenda.made m hm j vm' field' before hmade
    obtain ⟨-, rfl, rfl⟩ := h.agenda.made m' hm' j vm field before' hmade'
    have ht := h.holds.noted e he _ _ t (hthere (hlone.lt hm hmade))
    exact Option.some.inj (ht.symm.trans hs)

/-- A field that was left to an assignment holds what has arrived for it, and what it held at first
if nothing has. -/
theorem snapshot_of_lone (h : es.Faithful st₀ st) (hlone : es.Lone st)
    (hmake : (i, vm, field) ∈ es.makes) :
    st.snapshot vm field = some ((es.settlement? i).join.getD (st₀.fieldValue vm field)) := by
  obtain ⟨m, hm, before, hmade⟩ := mem_makes.mp hmake
  obtain ⟨s, hs⟩ := Option.isSome_iff_exists.mp
    (h.holds.made m hm i vm field before hmade (hlone.lt hm hmade))
  have hwrites : (es.filterMap fun e ↦ e.what.writes s) = es.assigned i := by
    refine List.filterMap_congr fun e he ↦ ?_
    cases hwhat : e.what with
    | wrote t v source =>
      cases source with
      | none =>
        have hts : t ≠ s := by
          rintro rfl
          exact hlone.alone _ hmake t (mem_unclaimed he hwhat) hs
        exact if_neg hts
      | some j => exact if_congr (h.wrote_iff hlone hmake hs he hwhat) rfl rfl
    | _ => rfl
  have hlast : es.last? s = (es.settlement? i).join := by
    rw [last?, hwrites, h.agenda.concluded i (hlone.ended _ hmake)]
    cases (es.settlement? i).join <;> rfl
  rw [h.holds.shows.value vm field s hs, hlast]

/-- **The order does not matter.** If in two runs the same arrives for fields that are left to it,
in whatever order, they hold the same in the end. -/
theorem snapshot_eq (h : es.Faithful st₀ st) (h' : es'.Faithful st₀ st') (hlone : es.Lone st)
    (hlone' : es'.Lone st') (hsources : es.sources.Perm es'.sources)
    (hmake : (i, vm, field) ∈ es.makes) : st.snapshot vm field = st'.snapshot vm field := by
  obtain ⟨⟨j, vm', field'⟩, hmake', heq⟩ :=
    List.mem_map.mp (hsources.mem_iff.mp (List.mem_map.mpr ⟨_, hmake, rfl⟩))
  obtain ⟨rfl, heq⟩ := Prod.mk.inj heq
  obtain ⟨rfl, heq⟩ := Prod.mk.inj heq
  rw [h.snapshot_of_lone hlone hmake, h'.snapshot_of_lone hlone' hmake', heq]

end Faithful

end Log

/-! ## Where nobody reads -/

/-- Whether no signal has subscribers and nothing waits to run. -/
structure State.Hushed (st : LiveState C H) : Prop where
  subscribers : ∀ s, (st.graph.signal s).subscribers = []
  drained : st.graph.Drained

namespace State.Hushed

variable {st : LiveState C H}

theorem withWorld (h : st.Hushed) (w : World C H) : (st.withWorld w).Hushed :=
  ⟨h.subscribers, h.drained⟩

theorem declare (h : st.Hushed) (vm : ViewModelId) (name : String) :
    (st.declare vm name).2.Hushed := by
  rcases graph_declare st vm name with hgraph | ⟨-, hgraph⟩
  · exact ⟨hgraph ▸ h.subscribers, hgraph ▸ h.drained⟩
  · refine ⟨fun s ↦ ?_, hgraph ▸ h.drained⟩
    rw [hgraph, Graph.signal_newSignal]
    split
    · rfl
    · exact h.subscribers s

theorem write (h : st.Hushed) (s : SignalId) (v : Value) :
    (st.withGraph (st.graph.write s v)).Hushed where
  subscribers t := List.eq_nil_iff_forall_not_mem.mpr fun _ he ↦
    List.not_mem_nil (h.subscribers t ▸ Graph.of_mem_subscribers_write he)
  drained := drained_write (h.subscribers s) h.drained v

/-- A write brings about nothing else. -/
theorem yields_write (h : st.Hushed) (r : LiveRunner C H) (limit : Nat) (s : SignalId) (v : Value) :
    r.Yields limit (Live.write s v) st () (st.withGraph (st.graph.write s v)) := by
  change (r.flush limit (st.withGraph (st.graph.write s v))).bind _ = _
  rw [flush_of_drained (h.write s v).drained]
  rfl

theorem yields_set (h : st.Hushed) (r : LiveRunner C H) (limit : Nat) (vm : ViewModelId)
    (name : String) (v : Value) :
    r.Yields limit (vm.set name v) st () (st.written vm name v) :=
  (Runner.Yields.declare vm name st).bind ((h.declare vm name).yields_write r limit _ v)

theorem yields_conclude (h : st.Hushed) (r : LiveRunner C H) (limit : Nat) (a : Assignment) :
    ∃ st', r.Yields limit a.conclude st () st' ∧ st'.Hushed := by
  rw [Assignment.conclude]
  cases a.arrival.value? with
  | none => exact ⟨st, .done _ _, h⟩
  | some v =>
    have hheld := h.withWorld { st.world with holdings := [.viewModel a.vm] :: st.world.holdings }
    exact ⟨_, .holding (hheld.yields_set r limit a.vm a.field v),
      ((hheld.declare a.vm a.field).write _ v).withWorld _⟩

/-- Looking at an assignment comes to an end. -/
theorem yields_poll (h : st.Hushed) (r : LiveRunner C H) (limit : Nat) (i : AssignmentId) :
    ∃ st', r.Yields limit i.poll st () st' ∧ st'.Hushed := by
  have hact : r.Yields limit (Live.act (World.pick · i)) st (st.world.pick i).1
      (st.withWorld (st.world.pick i).2) := .act _ st
  rcases hpick : st.world.pick i with ⟨picked, w⟩
  rw [hpick] at hact
  cases picked with
  | none => exact ⟨_, hact.bind (.done _ _), h.withWorld w⟩
  | some a =>
    obtain ⟨st', hconclude, hst'⟩ := (h.withWorld w).yields_conclude r limit a
    exact ⟨st', hact.bind hconclude, hst'⟩

end State.Hushed

namespace Undertaking

/-- Whether code does nothing but work on fields and assignments, and things that come to an end
where nobody reads. -/
def Prompt : Undertaking C H α → Prop
  | .done _ => True
  | .live p _ k =>
    (∀ (r : LiveRunner C H) limit st, st.Hushed → ∃ b st', r.Yields limit p st b st' ∧ st'.Hushed) ∧
      ∀ b, (k b).Prompt
  | .declare _ _ k => ∀ s, (k s).Prompt
  | .write _ _ k => k.Prompt
  | .assignLater _ _ k => ∀ i, (k i).Prompt
  | .settle _ _ k => k.Prompt
  | .poll _ k => k.Prompt

theorem prompt_markDisposed {vm : ViewModelId} {next : Undertaking C H α} (h : next.Prompt) :
    (markDisposed vm next).Prompt :=
  ⟨fun _ _ _ hst ↦ ⟨(), _, .change _ _, hst.withWorld _⟩, fun _ ↦ h⟩

/-- Such code ends where nobody reads. -/
theorem Prompt.yields {code : Undertaking C H α} (h : code.Prompt) {st : LiveState C H}
    (hst : st.Hushed) (r : LiveRunner C H) (limit : Nat) :
    ∃ a st', r.Yields limit code.plain st a st' ∧ st'.Hushed := by
  induction code generalizing st with
  | done a => exact ⟨a, st, .done a st, hst⟩
  | live p _ k ih =>
    obtain ⟨b, st₁, hp, hst₁⟩ := h.1 r limit st hst
    obtain ⟨a, st', hk, hst'⟩ := ih b (h.2 b) hst₁
    exact ⟨a, st', hp.bind hk, hst'⟩
  | declare vm field k ih =>
    obtain ⟨a, st', hk, hst'⟩ := ih _ (h _) (hst.declare vm field)
    exact ⟨a, st', (Runner.Yields.declare vm field st).bind hk, hst'⟩
  | write s v k ih =>
    obtain ⟨a, st', hk, hst'⟩ := ih h (hst.write s v)
    exact ⟨a, st', (hst.yields_write r limit s v).bind hk, hst'⟩
  | assignLater vm field k ih =>
    have hassign : r.Yields limit (vm.assignLater field) st
        ((st.declare vm field).2.world.deferred.add vm field).1 (st.assigned vm field) :=
      (Runner.Yields.declare vm field st).bind rfl
    obtain ⟨a, st', hk, hst'⟩ := ih _ (h _) ((hst.declare vm field).withWorld _)
    exact ⟨a, st', hassign.bind hk, hst'⟩
  | settle i value k ih =>
    obtain ⟨a, st', hk, hst'⟩ := ih h (hst.withWorld _)
    exact ⟨a, st', (Runner.Yields.change _ st).bind hk, hst'⟩
  | poll i k ih =>
    obtain ⟨st₁, hpoll, hst₁⟩ := hst.yields_poll r limit i
    obtain ⟨a, st', hk, hst'⟩ := ih h hst₁
    exact ⟨a, st', hpoll.bind hk, hst'⟩

end Undertaking

namespace Enterprise

/-- **No assignment is lost, and none is invented.** Take any code that writes fields, now or later,
lets values arrive for assignments or rejects or drops them, looks at assignments, and disposes
view-models, in any order, for any client whose effects, hooks and directives may do the same; it
starts where every field has a signal of its own and no assignments have been made.

If it ends, its log accounts for all that was done: at every moment each field holds what was last
written to it, a field is there as soon as an assignment was made to it and keeps its value, a value
that has arrived is written exactly once, when somebody looks for the first time after that, and
nothing else is ever written in the name of an assignment. Any other such run that starts there and
in which the same arrives leaves the same in the fields to which assignments were made, if in both
runs there was one assignment to each of these fields and no other write, and all were looked at
after something had arrived.

It ends where nobody reads, if all of its parts do. -/
theorem assignments_accounted (ε : Enterprise C H) {st : LiveState C H} (hst : st.Furnished)
    (hnew : st.world.deferred = ⟨#[], [], []⟩) :
    (∀ fuel (code : Undertaking C H α) a st',
      ε.client.run fuel code.plain st = some (a, st') →
      ∃ es, ε.logged.run fuel code.logged (st.beside []) = some (a, st'.beside es) ∧
        es.Account st st' ∧
        ∀ (ε' : Enterprise C H) fuel' (code' : Undertaking C H α) a' (st'' : LiveState C H)
            (es' : Log C H),
          ε'.logged.run fuel' code'.logged (st.beside []) = some (a', st''.beside es') →
          es.Lone st' → es'.Lone st'' → es.sources.Perm es'.sources →
          ∀ x ∈ es.makes, st'.snapshot x.2.1 x.2.2 = st''.snapshot x.2.1 x.2.2) ∧
    (st.Hushed → ∀ fuel (code : Undertaking C H α), code.Prompt →
      ∃ a st', ε.client.run fuel code.plain st = some (a, st')) := by
  have hstart : Log.Faithful ([] : Log C H) st st := .start hst hnew
  constructor
  · intro fuel code a st' hrun
    obtain ⟨es, hlogged⟩ := ε.exists_log hrun
    have hfaithful := hstart.steps (ε.steps hlogged)
    refine ⟨es, hlogged, hfaithful.account, ?_⟩
    intro ε' fuel' code' a' st'' es' hlogged' hlone hlone' hsources x hx
    exact hfaithful.snapshot_eq (hstart.steps (ε'.steps hlogged')) hlone hlone' hsources hx
  · intro hhushed fuel code hprompt
    obtain ⟨a, st', hyields, -⟩ :=
      hprompt.yields hhushed (ε.client.meaning.runner fuel) fuel
    exact ⟨a, st', hyields⟩

end Enterprise

/-! ### Two orders -/

namespace Errands

/-- A client that does nothing of its own. -/
def idle : Enterprise Empty Unit where
  perform := Empty.elim
  bind := Empty.elim
  link := Empty.elim

/-- A view-model with a title. -/
def start : LiveState Empty Unit where
  graph := ⟨#[⟨.string "draft", []⟩], #[], [], none, false⟩
  world := { viewModels := #[⟨[("title", ⟨0⟩)], ⟨0⟩, ⟨0⟩, false, false⟩], host := () }

/-- The title is looked at too early and arrives last, after disposal; there is no author. Another
field is written meanwhile. -/
def patient : Undertaking Empty Unit Unit :=
  .assignLater ⟨0⟩ "title" fun title ↦ .assignLater ⟨0⟩ "done" fun done ↦
  .assignLater ⟨0⟩ "author" fun author ↦
  .poll title <| .settle done (some (.bool true)) <| .poll done <| .settle author none <|
  .set ⟨0⟩ "pages" .null <| .markDisposed ⟨0⟩ <| .poll author <|
  .settle title (some (.string "final")) <| .poll title <| .done ()

/-- Everything arrives before anybody looks. -/
def hasty : Undertaking Empty Unit Unit :=
  .assignLater ⟨0⟩ "author" fun author ↦ .assignLater ⟨0⟩ "title" fun title ↦
  .assignLater ⟨0⟩ "done" fun done ↦
  .settle title (some (.string "final")) <| .settle author none <|
  .settle done (some (.bool true)) <| .poll author <| .poll done <| .poll title <| .done ()

theorem prompt_patient : patient.Prompt :=
  fun _ _ _ _ ↦ Undertaking.prompt_markDisposed trivial

theorem prompt_hasty : hasty.Prompt := fun _ _ _ ↦ trivial

theorem field?_start {vm : ViewModelId} {name : String} {s : SignalId}
    (h : (start.world.viewModel vm).field? name = some s) :
    vm = ⟨0⟩ ∧ name = "title" ∧ s = ⟨0⟩ := by
  obtain ⟨_ | vm⟩ := vm
  · change [("title", (⟨0⟩ : SignalId))].lookup name = some s at h
    rw [List.lookup_cons, List.lookup_nil] at h
    split at h
    · rename_i hname
      exact ⟨rfl, eq_of_beq hname, (Option.some.inj h).symm⟩
    · contradiction
  · contradiction

theorem furnished_start : start.Furnished where
  lt vm name s hs := by
    obtain ⟨-, -, rfl⟩ := field?_start hs
    exact Nat.zero_lt_one
  injective vm name vm' name' s hs hs' := by
    obtain ⟨rfl, rfl, -⟩ := field?_start hs
    obtain ⟨rfl, rfl, -⟩ := field?_start hs'
    exact ⟨rfl, rfl⟩

theorem hushed_start : start.Hushed where
  subscribers s := by
    obtain ⟨_ | s⟩ := s <;> rfl
  drained _ := rfl

/-- Whether fields were left to their assignments can be seen by running the code. -/
theorem lone_of_check {code : Undertaking Empty Unit Unit} {st : LiveState Empty Unit}
    {es : Log Empty Unit}
    (hrun : idle.logged.run 3 code.logged (start.beside []) = some ((), st.beside es))
    (hcheck : ((idle.logged.run 3 code.logged (start.beside [])).map fun x ↦
      decide (Log.Lone x.2.world.2 x.2.bare)) = some true) : es.Lone st := by
  rw [hrun] at hcheck
  exact of_decide_eq_true (Option.some.inj hcheck)

/-- Both end, and leave the same. -/
theorem patient_agrees_with_hasty : ∃ (st₁ st₂ : LiveState Empty Unit) (es : Log Empty Unit),
    idle.client.run 3 patient.plain start = some ((), st₁) ∧
      idle.client.run 3 hasty.plain start = some ((), st₂) ∧ es.Account start st₁ ∧
      es.makes.map Prod.snd = [(⟨0⟩, "title"), (⟨0⟩, "done"), (⟨0⟩, "author")] ∧
      ∀ x ∈ es.makes, st₁.snapshot x.2.1 x.2.2 = st₂.snapshot x.2.1 x.2.2 := by
  obtain ⟨haccount, hends⟩ := idle.assignments_accounted furnished_start rfl
  obtain ⟨⟨⟩, st₁, hpatient⟩ := hends hushed_start 3 patient prompt_patient
  obtain ⟨⟨⟩, st₂, hhasty⟩ := hends hushed_start 3 hasty prompt_hasty
  obtain ⟨es₁, hlogged₁, haccount₁, hagree⟩ := haccount 3 patient () st₁ hpatient
  obtain ⟨es₂, hlogged₂, -⟩ := haccount 3 hasty () st₂ hhasty
  have hmakes : (idle.logged.run 3 patient.logged (start.beside [])).map
      (fun x ↦ x.2.world.2.makes.map Prod.snd) =
        some [(⟨0⟩, "title"), (⟨0⟩, "done"), (⟨0⟩, "author")] := by decide +kernel
  have hsources₁ : (idle.logged.run 3 patient.logged (start.beside [])).map
      (fun x ↦ x.2.world.2.sources) = some ([(⟨0⟩, "title", some (some (.string "final"))),
        (⟨0⟩, "done", some (some (.bool true)))] ++ [(⟨0⟩, "author", some none)]) := rfl
  have hsources₂ : (idle.logged.run 3 hasty.logged (start.beside [])).map
      (fun x ↦ x.2.world.2.sources) = some ([(⟨0⟩, "author", some none)] ++
        [(⟨0⟩, "title", some (some (.string "final"))), (⟨0⟩, "done", some (some (.bool true)))]) :=
    rfl
  rw [hlogged₁] at hmakes hsources₁
  rw [hlogged₂] at hsources₂
  have hsources : es₁.sources.Perm es₂.sources := by
    have h₁ : es₁.sources = _ := Option.some.inj hsources₁
    have h₂ : es₂.sources = _ := Option.some.inj hsources₂
    rw [h₁, h₂]
    exact List.perm_append_comm
  exact ⟨st₁, st₂, es₁, hpatient, hhasty, haccount₁, Option.some.inj hmakes,
    hagree idle 3 hasty () st₂ es₂ hlogged₂ (lone_of_check hlogged₁ (by decide +kernel))
      (lone_of_check hlogged₂ (by decide +kernel)) hsources⟩

end Errands

end LiveMarkup
