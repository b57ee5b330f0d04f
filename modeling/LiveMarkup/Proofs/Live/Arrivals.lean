import LiveMarkup.Proofs.Live.Dealings

/-!
# What a log says of fields and of assignments

Two accounts of a state are kept in its log. The fields: each holds what was last written to its
signal, and what it held at first if nothing was (`Log.Shows`). The assignments: for each, the log
says what has arrived, whether anybody has looked at it since (`Log.Concluded`), and what was
written in its name; and that says where it is now, ready, asleep or over (`Log.Agenda`).

Both are kept by whatever can happen, one lemma for each thing. The first rests on signals: every
field has one of its own (`State.Furnished`), and a new field has a new one, so that no write that
was noted before concerns it. The second rests on the queue: an assignment for which something has
arrived is in it until somebody has looked at it, and in it only once.
-/

namespace LiveMarkup

variable {C H : Type}

/-! ## Reading a log -/

namespace Deal

/-- What is written to a signal. -/
def writes (s : SignalId) : Deal C H → Option Value
  | .wrote t v _ => if t = s then some v else none
  | _ => none

/-- What is written in the name of an assignment. -/
def assigns (i : AssignmentId) : Deal C H → Option Value
  | .wrote _ v (some j) => if j = i then some v else none
  | _ => none

/-- The assignment that is made, with its field. -/
def makes? : Deal C H → Option (AssignmentId × ViewModelId × String)
  | .made i vm field _ => some (i, vm, field)
  | _ => none

/-- What arrives for an assignment. -/
def settles (i : AssignmentId) : Deal C H → Option (Option Value)
  | .settled j value => if j = i then some value else none
  | _ => none

/-- The signal that is written in nobody's name. -/
def unclaimed? : Deal C H → Option SignalId
  | .wrote s _ none => some s
  | _ => none

/-- Whether an assignment that is made is made to a view-model that is there. -/
def Founded : Deal C H → Prop
  | .made _ vm _ before => vm.index < before.world.viewModels.size
  | _ => True

instance : (what : Deal C H) → Decidable what.Founded
  | .made _ vm _ before => inferInstanceAs (Decidable (vm.index < before.world.viewModels.size))
  | .settled _ _ => instDecidableTrue
  | .polled _ => instDecidableTrue
  | .wrote _ _ _ => instDecidableTrue

instance (i : AssignmentId) : (what : Deal C H) → Decidable (what = .polled i)
  | .polled j => decidable_of_iff (j = i) ⟨congrArg _, fun h ↦ by injection h⟩
  | .made _ _ _ _ => isFalse fun h ↦ by cases h
  | .settled _ _ => isFalse fun h ↦ by cases h
  | .wrote _ _ _ => isFalse fun h ↦ by cases h

end Deal

namespace Log

/-- What was last written to a signal. -/
def last? (es : Log C H) (s : SignalId) : Option Value :=
  (es.filterMap fun e ↦ e.what.writes s).getLast?

/-- What was written in the name of an assignment. -/
def assigned (es : Log C H) (i : AssignmentId) : List Value :=
  es.filterMap fun e ↦ e.what.assigns i

/-- What has arrived for an assignment: a value, or that there will be none. Only what arrives first
counts. -/
def settlement? (es : Log C H) (i : AssignmentId) : Option (Option Value) :=
  es.findSome? fun e ↦ e.what.settles i

/-- Whether somebody has looked at an assignment after something had arrived for it. -/
def Concluded (es : Log C H) (i : AssignmentId) : Prop :=
  ∃ (es₁ : Log C H) (e : Entry C H) (es₂ : Log C H),
    es = es₁ ++ e :: es₂ ∧ e.what = .polled i ∧ (es₁.settlement? i).isSome

/-- The assignments that were made, with their fields. -/
def makes (es : Log C H) : List (AssignmentId × ViewModelId × String) :=
  es.filterMap fun e ↦ e.what.makes?

/-- The signals that were written in nobody's name. -/
def unclaimed (es : Log C H) : List SignalId := es.filterMap fun e ↦ e.what.unclaimed?

variable {es : Log C H} {i : AssignmentId} {e : Entry C H}

theorem concluded_iff : es.Concluded i ↔ ∃ n, ∃ h : n < es.length,
    (es.get ⟨n, h⟩).what = .polled i ∧ (settlement? (es.take n) i).isSome := by
  constructor
  · rintro ⟨es₁, e, es₂, rfl, hpolled, hsome⟩
    refine ⟨es₁.length, by simp, ?_, ?_⟩
    · simpa using hpolled
    · simpa using hsome
  · rintro ⟨n, hn, hpolled, hsome⟩
    refine ⟨es.take n, es.get ⟨n, hn⟩, es.drop (n + 1), ?_, hpolled, hsome⟩
    simp

instance : Decidable (es.Concluded i) := decidable_of_iff _ concluded_iff.symm

theorem mem_unclaimed {s : SignalId} {v : Value} (he : e ∈ es) (h : e.what = .wrote s v none) :
    s ∈ es.unclaimed :=
  List.mem_filterMap.mpr ⟨e, he, congrArg Deal.unclaimed? h⟩

@[simp] theorem last?_concat (es : Log C H) (e : Entry C H) (s : SignalId) :
    (es ++ [e]).last? s = (e.what.writes s).or (es.last? s) := by
  rw [last?, List.filterMap_append, List.getLast?_append, last?]
  cases h : e.what.writes s <;> simp [h]

theorem last?_eq_none {s : SignalId} (h : ∀ e ∈ es, ∀ v source, e.what ≠ .wrote s v source) :
    es.last? s = none := by
  have hnil : (es.filterMap fun e ↦ e.what.writes s) = [] := by
    refine List.filterMap_eq_nil_iff.mpr fun e he ↦ ?_
    cases hwhat : e.what with
    | wrote t v source =>
      have hts : t ≠ s := by
        rintro rfl
        exact h e he v source hwhat
      exact if_neg hts
    | _ => rfl
  rw [last?, hnil]
  rfl

@[simp] theorem assigned_concat (es : Log C H) (e : Entry C H) (i : AssignmentId) :
    (es ++ [e]).assigned i = es.assigned i ++ (e.what.assigns i).toList := by
  rw [assigned, List.filterMap_append, assigned]
  cases h : e.what.assigns i <;> simp [h]

@[simp] theorem settlement?_concat (es : Log C H) (e : Entry C H) (i : AssignmentId) :
    (es ++ [e]).settlement? i = (es.settlement? i).or (e.what.settles i) := by
  rw [settlement?, List.findSome?_append, settlement?]
  cases h : e.what.settles i <;> simp [h]

/-- What arrives for one assignment does not concern another. -/
theorem settlement?_concat_of_ne {j : AssignmentId} (h : j ≠ i) {value : Option Value}
    {st : LiveState C H} :
    settlement? (es ++ [⟨.settled i value, st⟩]) j = es.settlement? j := by
  rw [settlement?_concat, Deal.settles, if_neg (Ne.symm h), Option.or_none]

theorem isSome_settlement?_append (h : (es.settlement? i).isSome) (es' : Log C H) :
    (es ++ es').settlement? i = es.settlement? i := by
  obtain ⟨x, hx⟩ := Option.isSome_iff_exists.mp h
  rw [settlement?, List.findSome?_append]
  rw [settlement?] at hx
  rw [settlement?, hx]
  rfl

theorem Concluded.isSome (h : es.Concluded i) : (es.settlement? i).isSome := by
  obtain ⟨es₁, e, es₂, rfl, -, hsome⟩ := h
  rwa [isSome_settlement?_append hsome]

/-- A place in a log that goes on is in what was there, or in what is new. -/
theorem split_append {es₁ es₂ new : Log C H} (h : es ++ new = es₁ ++ e :: es₂) :
    (∃ n, es₁ = es ++ n ∧ new = n ++ e :: es₂) ∨ ∃ n, es = es₁ ++ e :: n ∧ es₂ = n ++ new := by
  rcases List.append_eq_append_iff.mp h with ⟨n, hes₁, hnew⟩ | ⟨n, hes, hes₂⟩
  · exact .inl ⟨n, hes₁, hnew⟩
  · cases n with
    | nil => exact .inl ⟨[], by simp [hes], hes₂.symm⟩
    | cons e' n =>
      obtain ⟨rfl, htail⟩ := List.cons.inj hes₂
      exact .inr ⟨n, hes, htail⟩

theorem split_concat {es₁ es₂ : Log C H} {e' : Entry C H} (h : es ++ [e'] = es₁ ++ e :: es₂) :
    (es₁ = es ∧ e = e' ∧ es₂ = []) ∨ ∃ n, es = es₁ ++ e :: n ∧ es₂ = n ++ [e'] := by
  rcases split_append h with ⟨n, hes₁, hn⟩ | hold
  · rcases List.singleton_eq_append_iff.mp hn with ⟨rfl, hsingle⟩ | ⟨-, hnil⟩
    · obtain ⟨rfl, rfl⟩ := List.cons.inj hsingle
      exact .inl ⟨hes₁.trans (List.append_nil es), rfl, rfl⟩
    · exact absurd hnil (List.cons_ne_nil _ _)
  · exact .inr hold

theorem concluded_concat : (es ++ [e]).Concluded i ↔
    es.Concluded i ∨ e.what = .polled i ∧ (es.settlement? i).isSome := by
  constructor
  · rintro ⟨es₁, e', es₂, heq, hpolled, hsome⟩
    rcases split_concat heq with ⟨rfl, rfl, -⟩ | ⟨n, hes, -⟩
    · exact .inr ⟨hpolled, hsome⟩
    · exact .inl ⟨es₁, e', n, hes, hpolled, hsome⟩
  · rintro (⟨es₁, e', es₂, rfl, hpolled, hsome⟩ | ⟨hpolled, hsome⟩)
    · exact ⟨es₁, e', es₂ ++ [e], by simp, hpolled, hsome⟩
    · exact ⟨es, e, [], rfl, hpolled, hsome⟩

theorem concluded_concat_polled {j : AssignmentId} {st : LiveState C H} :
    Concluded (es ++ [⟨.polled i, st⟩]) j ↔
      es.Concluded j ∨ j = i ∧ (es.settlement? i).isSome := by
  refine concluded_concat.trans (or_congr_right ?_)
  constructor
  · rintro ⟨hpolled, hsome⟩
    obtain rfl : i = j := by injection hpolled
    exact ⟨rfl, hsome⟩
  · rintro ⟨rfl, hsome⟩
    exact ⟨rfl, hsome⟩

/-- What was made was made before, if nothing is made. -/
theorem mem_concat_of_made {e' : Entry C H} {vm : ViewModelId} {field : String}
    {before : LiveState C H} (h : e'.what = .made i vm field before)
    (hne : ∀ j vm field before, e.what ≠ .made j vm field before) : e' ∈ es ++ [e] ↔ e' ∈ es := by
  refine List.mem_append.trans (or_iff_left fun he ↦ ?_)
  obtain rfl := List.mem_singleton.mp he
  exact hne _ _ _ _ h

theorem mem_makes {vm : ViewModelId} {field : String} : (i, vm, field) ∈ es.makes ↔
    ∃ e ∈ es, ∃ before, e.what = .made i vm field before := by
  rw [makes, List.mem_filterMap]
  refine exists_congr fun e ↦ and_congr_right fun _ ↦ ⟨fun h ↦ ?_, ?_⟩
  · cases hwhat : e.what with
    | made j vm' field' before =>
      rw [hwhat] at h
      cases h
      exact ⟨before, rfl⟩
    | _ =>
      rw [hwhat] at h
      cases h
  · rintro ⟨before, hwhat⟩
    rw [hwhat, Deal.makes?]

end Log

/-! ## Fields -/

namespace State

/-- Whether every field has a signal of its own. -/
structure Furnished (st : LiveState C H) : Prop where
  lt : ∀ vm name s, (st.world.viewModel vm).field? name = some s →
    s.index < st.graph.signals.size
  injective : ∀ vm name vm' name' s, (st.world.viewModel vm).field? name = some s →
    (st.world.viewModel vm').field? name' = some s → vm = vm' ∧ name = name'

variable {st st' : LiveState C H} {vm vm' : ViewModelId} {name field : String} {s : SignalId}

/-- A field is there already, or it is the one that was declared, with a new signal. -/
theorem field?_declare_cases
    (h : ((st.declare vm field).2.world.viewModel vm').field? name = some s) :
    (st.world.viewModel vm').field? name = some s ∨
      (vm' = vm ∧ name = field) ∧ (st.world.viewModel vm).field? field = none ∧
        s = (st.graph.newSignal Value.null).1 := by
  cases hfield : (st.world.viewModel vm).field? field with
  | some t =>
    rw [declare_of_some hfield] at h
    exact .inl h
  | none =>
    by_cases hvm : vm' = vm
    · subst hvm
      rw [declare_of_none hfield, World.viewModel_modifyViewModel] at h
      split at h
      · rw [ViewModel.field?, List.lookup_append] at h
        rcases Option.or_eq_some_iff.mp h with hold | ⟨-, hnew⟩
        · exact .inl hold
        · rw [List.lookup_cons, List.lookup_nil] at hnew
          split at hnew
          · rename_i hname
            exact .inr ⟨⟨rfl, eq_of_beq hname⟩, rfl, (Option.some.inj hnew).symm⟩
          · contradiction
      · exact .inl h
    · rw [viewModel_declare_of_ne hvm] at h
      exact .inl h

/-- The field that was declared. -/
theorem field?_declare_self (hvm : vm.index < st.world.viewModels.size) (field : String) :
    ((st.declare vm field).2.world.viewModel vm).field? field = some (st.declare vm field).1 :=
  (field?_declare hvm field).trans (if_pos rfl)

/-- The signal of a field once it is declared. -/
theorem Furnished.lt_declare (h : st.Furnished) (vm : ViewModelId) (field : String) :
    (st.declare vm field).1.index < (st.declare vm field).2.graph.signals.size := by
  cases hfield : (st.world.viewModel vm).field? field with
  | some s =>
    rw [declare_of_some hfield]
    exact h.lt vm field s hfield
  | none =>
    rw [declare_of_none hfield, Graph.size_newSignal]
    exact Nat.lt_succ_self _

theorem Furnished.declare (h : st.Furnished) (vm : ViewModelId) (field : String) :
    (st.declare vm field).2.Furnished := by
  -- A field that is there has an old signal, so it is not the new one.
  have hne {w : ViewModelId} {name : String} {s : SignalId}
      (hs : (st.world.viewModel w).field? name = some s) :
      s ≠ (st.graph.newSignal Value.null).1 := by
    rintro rfl
    exact Nat.lt_irrefl _ (h.lt w name _ hs)
  constructor
  · intro w name s hs
    rcases field?_declare_cases hs with hs | ⟨-, hfield, rfl⟩
    · exact Nat.lt_of_lt_of_le (h.lt w name s hs) (size_declare st vm field)
    · rw [declare_of_none hfield, Graph.size_newSignal]
      exact Nat.lt_succ_self _
  · intro w name w' name' s hs hs'
    rcases field?_declare_cases hs with hold | ⟨hw, -, hnew⟩ <;>
      rcases field?_declare_cases hs' with hold' | ⟨hw', -, hnew'⟩
    · exact h.injective w name w' name' s hold hold'
    · exact absurd hnew' (hne hold)
    · exact absurd hnew (hne hold')
    · exact ⟨hw.1.trans hw'.1.symm, hw.2.trans hw'.2.symm⟩

/-- The signal of a field that was declared is its own. -/
theorem Furnished.eq_of_declare (h : st.Furnished)
    (hs : ((st.declare vm field).2.world.viewModel vm').field? name =
      some (st.declare vm field).1) : vm' = vm ∧ name = field := by
  rcases field?_declare_cases hs with hold | ⟨heq, -, -⟩
  · cases hfield : (st.world.viewModel vm).field? field with
    | some s =>
      rw [declare_of_some hfield] at hold
      exact h.injective _ _ _ _ _ hold hfield
    | none =>
      -- The signal is new, so that no field has had it.
      rw [declare_of_none hfield] at hold
      exact absurd (h.lt _ _ _ hold) (Nat.lt_irrefl _)
  · exact heq

theorem Furnished.snapshot (h : st.Furnished) (hs : (st.world.viewModel vm).field? name = some s) :
    st.snapshot vm name = some (st.graph.value s) :=
  snapshot_eq_some.mpr ⟨s, hs, h.lt vm name s hs, rfl⟩

end State

namespace Log

/-- Whether a log, which starts where given fields are, says what they are now. -/
structure Shows (es : Log C H) (st₀ st : LiveState C H) : Prop where
  furnished : st.Furnished
  /-- A field that is there holds what was last written to its signal, and what it held at first if
  nothing was; a field that was not there at first counts as `null`. -/
  value : ∀ vm name s, (st.world.viewModel vm).field? name = some s →
    st.snapshot vm name = some ((es.last? s).getD (st₀.fieldValue vm name))
  /-- No field goes away. -/
  old : ∀ vm name, (st₀.snapshot vm name).isSome → (st.snapshot vm name).isSome
  /-- A field to which an assignment was made is there. -/
  made : ∀ e ∈ es, ∀ i vm field before, e.what = .made i vm field before →
    vm.index < before.world.viewModels.size → (st.snapshot vm field).isSome

/-- What a log says of fields, and why it goes on doing so. -/
structure Holds (es : Log C H) (st₀ st : LiveState C H) : Prop where
  furnished : st.Furnished
  value : ∀ vm name s, (st.world.viewModel vm).field? name = some s →
    st.graph.value s = (es.last? s).getD (st₀.fieldValue vm name)
  old : ∀ vm name s, (st₀.world.viewModel vm).field? name = some s →
    (st.world.viewModel vm).field? name = some s
  made : ∀ e ∈ es, ∀ i vm field before, e.what = .made i vm field before →
    vm.index < before.world.viewModels.size → ((st.world.viewModel vm).field? field).isSome
  /-- Whatever was written existed then, and no field has come to share it. -/
  written : ∀ e ∈ es, ∀ s v source, e.what = .wrote s v source →
    s.index < st.graph.signals.size ∧ ∀ vm name, (st.world.viewModel vm).field? name = some s →
      (e.state.world.viewModel vm).field? name = some s
  /-- A field that was there when something was noted is there, with the signal it had. -/
  noted : ∀ e ∈ es, ∀ vm name s, (e.state.world.viewModel vm).field? name = some s →
    (st.world.viewModel vm).field? name = some s

namespace Holds

variable {es : Log C H} {st₀ st st' : LiveState C H}

theorem shows (h : es.Holds st₀ st) : es.Shows st₀ st where
  furnished := h.furnished
  value vm name s hs := by rw [h.furnished.snapshot hs, h.value vm name s hs]
  old vm name hsome := by
    obtain ⟨s, hs, -⟩ := State.isSome_snapshot.mp hsome
    rw [h.furnished.snapshot (h.old vm name s hs)]
    rfl
  made e he i vm field before hwhat hvm := by
    obtain ⟨s, hs⟩ := Option.isSome_iff_exists.mp (h.made e he i vm field before hwhat hvm)
    rw [h.furnished.snapshot hs]
    rfl

theorem start (h₀ : st₀.Furnished) : Holds [] st₀ st₀ where
  furnished := h₀
  value vm name s hs := by
    rw [State.fieldValue, hs]
    rfl
  old _ _ _ hs := hs
  made := List.forall_mem_nil _
  written := List.forall_mem_nil _
  noted := List.forall_mem_nil _

/-- Fields and their values stay as they are. -/
theorem keep (h : es.Holds st₀ st)
    (hfield : ∀ vm name, (st'.world.viewModel vm).field? name = (st.world.viewModel vm).field? name)
    (hsize : st.graph.signals.size ≤ st'.graph.signals.size)
    (hvalue : ∀ s : SignalId, s.index < st.graph.signals.size →
      st'.graph.value s = st.graph.value s) : es.Holds st₀ st' where
  furnished := {
    lt := fun vm name s hs ↦
      Nat.lt_of_lt_of_le (h.furnished.lt vm name s (hfield vm name ▸ hs)) hsize
    injective := fun vm name vm' name' s hs hs' ↦
      h.furnished.injective vm name vm' name' s (hfield vm name ▸ hs) (hfield vm' name' ▸ hs') }
  value vm name s hs := by
    rw [hfield] at hs
    rw [hvalue s (h.furnished.lt vm name s hs), h.value vm name s hs]
  old vm name s hs := (hfield vm name).trans (h.old vm name s hs)
  made e he i vm field before hwhat hvm :=
    hfield vm field ▸ h.made e he i vm field before hwhat hvm
  written e he s v source hwhat := by
    obtain ⟨hlt, hfields⟩ := h.written e he s v source hwhat
    exact ⟨Nat.lt_of_lt_of_le hlt hsize, fun vm name hs ↦ hfields vm name (hfield vm name ▸ hs)⟩
  noted e he vm name s hs := (hfield vm name).trans (h.noted e he vm name s hs)

theorem declare (h : es.Holds st₀ st) (vm : ViewModelId) (field : String) :
    es.Holds st₀ (st.declare vm field).2 where
  furnished := h.furnished.declare vm field
  value w name s hs := by
    rcases State.field?_declare_cases hs with hold | ⟨⟨rfl, rfl⟩, hfield, rfl⟩
    · rw [← h.value w name s hold]
      exact congrArg Signal.value (State.signal_declare (h.furnished.lt w name s hold) vm field)
    · -- Nothing was ever written to a signal that is new.
      have hlast : es.last? (st.graph.newSignal Value.null).1 = none :=
        last?_eq_none fun e he v source hwhat ↦
          Nat.lt_irrefl _ (h.written e he _ v source hwhat).1
      have hvalue :
          (st.declare w name).2.graph.value (st.graph.newSignal Value.null).1 = .null := by
        rw [State.declare_of_none hfield, Graph.value, Graph.signal_newSignal, if_pos rfl]
      have hstart : (st₀.world.viewModel w).field? name = none := by
        cases hs₀ : (st₀.world.viewModel w).field? name with
        | none => rfl
        | some s₀ => exact absurd (h.old w name s₀ hs₀) (hfield ▸ (Option.some_ne_none s₀).symm)
      rw [hvalue, hlast, Option.getD_none, State.fieldValue, hstart]
  old w name s hs := State.field?_declare_of_some' (h.old w name s hs)
  made e he i w name before hwhat hw := by
    obtain ⟨s, hs⟩ := Option.isSome_iff_exists.mp (h.made e he i w name before hwhat hw)
    rw [State.field?_declare_of_some' hs]
    rfl
  written e he s v source hwhat := by
    obtain ⟨hlt, hfields⟩ := h.written e he s v source hwhat
    refine ⟨Nat.lt_of_lt_of_le hlt (State.size_declare st vm field), fun w name hs ↦ ?_⟩
    rcases State.field?_declare_cases hs with hold | ⟨-, -, rfl⟩
    · exact hfields w name hold
    · exact absurd hlt (Nat.lt_irrefl _)
  noted e he w name s hs := State.field?_declare_of_some' (h.noted e he w name s hs)

/-- A write. -/
theorem write (h : es.Holds st₀ st) {s : SignalId} (hs : s.index < st.graph.signals.size)
    (v : Value) (source : Option AssignmentId) :
    Holds (es ++ [⟨.wrote s v source, st⟩]) st₀ (st.withGraph (st.graph.write s v)) where
  furnished := {
    lt := fun vm name t ht ↦
      (Graph.size_signals_write st.graph s v).symm ▸ h.furnished.lt vm name t ht
    injective := h.furnished.injective }
  value vm name t ht := by
    rw [last?_concat, Deal.writes]
    by_cases hts : s = t
    · subst hts
      rw [if_pos rfl]
      exact Graph.value_write_self _ hs v
    · rw [if_neg hts, Option.none_or, ← h.value vm name t ht]
      exact Graph.value_write_of_ne _ (Ne.symm hts) v
  old := h.old
  made e he i vm field before hwhat hvm := by
    rcases List.mem_append.mp he with he | he
    · exact h.made e he i vm field before hwhat hvm
    · obtain rfl := List.mem_singleton.mp he
      contradiction
  written e he t v' source' hwhat := by
    rw [State.graph_withGraph, Graph.size_signals_write]
    rcases List.mem_append.mp he with he | he
    · exact h.written e he t v' source' hwhat
    · obtain rfl := List.mem_singleton.mp he
      cases hwhat
      exact ⟨hs, fun _ _ hfield ↦ hfield⟩
  noted e he vm name t ht := by
    rcases List.mem_append.mp he with he | he
    · exact h.noted e he vm name t ht
    · obtain rfl := List.mem_singleton.mp he
      exact ht

/-- Something that is not a write is noted. -/
theorem note (h : es.Holds st₀ st) {what : Deal C H}
    (hwrites : ∀ s v source, what ≠ .wrote s v source)
    (hmade : ∀ i vm field before, what = .made i vm field before →
      vm.index < before.world.viewModels.size → ((st.world.viewModel vm).field? field).isSome) :
    Holds (es ++ [⟨what, st⟩]) st₀ st where
  furnished := h.furnished
  value vm name s hs := by
    have hnone : what.writes s = none := by
      cases what with
      | wrote t v source => exact absurd rfl (hwrites t v source)
      | _ => rfl
    rw [last?_concat, hnone, Option.none_or, h.value vm name s hs]
  old := h.old
  made e' he := by
    rcases List.mem_append.mp he with he | he
    · exact h.made e' he
    · obtain rfl := List.mem_singleton.mp he
      exact hmade
  written e' he s v source hwhat := by
    rcases List.mem_append.mp he with he | he
    · exact h.written e' he s v source hwhat
    · obtain rfl := List.mem_singleton.mp he
      exact absurd hwhat (hwrites s v source)
  noted e' he vm name s hs := by
    rcases List.mem_append.mp he with he | he
    · exact h.noted e' he vm name s hs
    · obtain rfl := List.mem_singleton.mp he
      exact hs

end Holds

end Log

/-! ## Assignments -/

namespace Deferred

variable {d : Deferred} {i : AssignmentId}

theorem get_modify (d : Deferred) (i j : AssignmentId) (f : Assignment → Assignment) :
    (d.modify i f).get j =
      if j = i ∧ i.index < d.assignments.size then f (d.get i) else d.get j := by
  by_cases h : j = i
  · subst h
    by_cases hlt : j.index < d.assignments.size
    · rw [if_pos ⟨rfl, hlt⟩]
      simp [get, modify, Array.getD, hlt, Array.getElem_modify_self]
    · rw [if_neg fun hc ↦ hlt hc.2]
      simp [get, modify, Array.getD, hlt]
  · rw [if_neg fun hc ↦ h hc.1]
    have hi : i.index ≠ j.index := fun hi ↦ h (congrArg AssignmentId.mk hi.symm)
    simp [get, modify, Array.getD_eq_getD_getElem?, Array.getElem?_modify, hi]

@[simp] theorem size_modify (d : Deferred) (i : AssignmentId) (f : Assignment → Assignment) :
    (d.modify i f).assignments.size = d.assignments.size := Array.size_modify

@[simp] theorem queue_modify (d : Deferred) (i : AssignmentId) (f : Assignment → Assignment) :
    (d.modify i f).queue = d.queue := rfl

/-- One for which something has arrived keeps it. -/
theorem arrive_of_ne (h : (d.get i).arrival ≠ .open) (arrival : Arrival) :
    d.arrive i arrival = d := by
  rw [arrive]
  split
  · contradiction
  · rfl

/-- One that is asleep is woken. -/
theorem arrive_of_open (h : (d.get i).arrival = .open) (arrival : Arrival) :
    d.arrive i arrival =
      (if (d.get i).waiting then { d with ready := d.ready ++ [i] } else d).modify i fun a ↦
        { a with arrival, waiting := false } := by
  rw [arrive, h]

@[simp] theorem size_arrive (d : Deferred) (i : AssignmentId) (arrival : Arrival) :
    (d.arrive i arrival).assignments.size = d.assignments.size := by
  rw [arrive]
  split
  · split <;> exact size_modify ..
  · rfl

theorem get_arrive_of_open (h : (d.get i).arrival = .open) (hi : i.index < d.assignments.size)
    (arrival : Arrival) (j : AssignmentId) :
    (d.arrive i arrival).get j =
      if j = i then { d.get i with arrival, waiting := false } else d.get j := by
  have hget (d' : Deferred) (hd' : d'.assignments = d.assignments) (j : AssignmentId) :
      d'.get j = d.get j := by rw [get, hd', get]
  rw [arrive_of_open h, get_modify]
  cases (d.get i).waiting with
  | true => simp [hget { d with ready := d.ready ++ [i] } rfl, hi]
  | false => simp [hi]

/-- One for which something arrives is in the queue, and no other comes to be. -/
theorem queue_arrive_of_open (h : (d.get i).arrival = .open) (hnodup : d.queue.Nodup)
    (hawake : i ∈ d.queue → (d.get i).waiting = false)
    (hasleep : i ∈ d.queue ∨ (d.get i).waiting = true) (arrival : Arrival) :
    (d.arrive i arrival).queue.Nodup ∧
      ∀ j, j ∈ (d.arrive i arrival).queue ↔ j ∈ d.queue ∨ j = i := by
  rw [arrive_of_open h, queue_modify]
  cases hwaiting : (d.get i).waiting with
  | true =>
    have hi : i ∉ d.queue := fun hi ↦ Bool.false_ne_true ((hawake hi).symm.trans hwaiting)
    have hperm : (d.ready ++ [i] ++ d.fresh).Perm (i :: d.queue) := by
      rw [List.append_assoc]
      exact List.perm_middle
    refine ⟨hperm.nodup_iff.mpr (List.nodup_cons.mpr ⟨hi, hnodup⟩), fun j ↦ ?_⟩
    exact hperm.mem_iff.trans (List.mem_cons.trans or_comm)
  | false =>
    have hi : i ∈ d.queue := hasleep.resolve_right fun hw ↦
      Bool.false_ne_true (hwaiting.symm.trans hw)
    refine ⟨hnodup, fun j ↦ (or_iff_left_of_imp ?_).symm⟩
    rintro rfl
    exact hi

@[simp] theorem size_add (d : Deferred) (vm : ViewModelId) (field : String) :
    (d.add vm field).2.assignments.size = d.assignments.size + 1 := Array.size_push ..

@[simp] theorem queue_add (d : Deferred) (vm : ViewModelId) (field : String) :
    (d.add vm field).2.queue = d.queue ++ [(d.add vm field).1] := (List.append_assoc ..).symm

theorem get_add_self (d : Deferred) (vm : ViewModelId) (field : String) :
    (d.add vm field).2.get (d.add vm field).1 = ⟨vm, field, .open, false⟩ := by
  simp [add, get, Array.getD]

theorem get_add_of_lt {j : AssignmentId} (h : j.index < d.assignments.size) (vm : ViewModelId)
    (field : String) : (d.add vm field).2.get j = d.get j := by
  simp [add, get, Array.getD, h, Nat.lt_succ_of_lt h, Array.getElem_push_lt h]

/-- An assignment is old or the new one. -/
theorem lt_or_eq_of_lt_add {j : AssignmentId} {vm : ViewModelId} {field : String}
    (h : j.index < (d.add vm field).2.assignments.size) :
    j.index < d.assignments.size ∨ j = (d.add vm field).1 := by
  rw [size_add] at h
  exact (Nat.lt_succ_iff_lt_or_eq.mp h).imp_right (congrArg AssignmentId.mk)

@[simp] theorem size_pick (d : Deferred) (i : AssignmentId) :
    (d.pick i).assignments.size = d.assignments.size := by
  rw [pick]
  cases (d.get i).arrival with
  | «open» => exact size_modify ..
  | _ => rfl

@[simp] theorem queue_pick (d : Deferred) (i : AssignmentId) :
    (d.pick i).queue = d.queue.erase i := by
  rw [pick]
  cases (d.get i).arrival with
  | «open» => exact List.append_nil _
  | _ => exact List.append_nil _

/-- One that is looked at too early falls asleep. -/
theorem get_pick_of_open (h : (d.get i).arrival = .open) (hi : i.index < d.assignments.size) :
    (d.pick i).get i = { d.get i with waiting := true } := by
  rw [pick, h]
  exact (get_modify ..).trans (if_pos ⟨rfl, hi⟩)

theorem get_pick_of_ne {j : AssignmentId} (h : j ≠ i) : (d.pick i).get j = d.get j := by
  rw [pick]
  cases (d.get i).arrival with
  | «open» => exact (get_modify ..).trans (if_neg fun hc ↦ h hc.1)
  | _ => rfl

/-- Looking at an assignment changes it at most in whether it waits. -/
theorem get_pick (d : Deferred) (i j : AssignmentId) :
    ∃ waiting, (d.pick i).get j = { d.get j with waiting } := by
  by_cases h : j = i
  · subst h
    rw [pick]
    cases (d.get j).arrival with
    | «open» =>
      by_cases hj : j.index < d.assignments.size
      · exact ⟨true, (get_modify ..).trans (if_pos ⟨rfl, hj⟩)⟩
      · exact ⟨_, (get_modify ..).trans (if_neg fun hc ↦ hj hc.2)⟩
    | _ => exact ⟨_, rfl⟩
  · exact ⟨_, get_pick_of_ne h⟩

end Deferred

namespace Log

/-- Whether a log says which assignments were made. -/
structure Enlists (es : Log C H) (d : Deferred) : Prop where
  made : ∀ e ∈ es, ∀ i vm field before, e.what = .made i vm field before →
    i.index < d.assignments.size ∧ (d.get i).vm = vm ∧ (d.get i).field = field
  exists_made : ∀ i : AssignmentId, i.index < d.assignments.size →
    ∃ e ∈ es, ∃ before, e.what = .made i (d.get i).vm (d.get i).field before

/-- No assignment is made, and none gets another field. -/
theorem Enlists.congr {es es' : Log C H} {d d' : Deferred} (h : es.Enlists d)
    (hmade : ∀ e j vm field before, e.what = .made j vm field before → (e ∈ es' ↔ e ∈ es))
    (hsize : d'.assignments.size = d.assignments.size)
    (hget : ∀ j, (d'.get j).vm = (d.get j).vm ∧ (d'.get j).field = (d.get j).field) :
    es'.Enlists d' where
  made e he j vm field before hwhat := by
    rw [hsize, (hget j).1, (hget j).2]
    exact h.made e ((hmade e j vm field before hwhat).mp he) j vm field before hwhat
  exists_made j hj := by
    obtain ⟨e, he, before, hwhat⟩ := h.exists_made j (hsize ▸ hj)
    rw [(hget j).1, (hget j).2]
    exact ⟨e, (hmade _ _ _ _ _ hwhat).mpr he, before, hwhat⟩

/-- A new assignment is noted. -/
theorem Enlists.make {es : Log C H} {d : Deferred} (h : es.Enlists d) (vm : ViewModelId)
    (field : String) (before after : LiveState C H) :
    Enlists (es ++ [⟨.made (d.add vm field).1 vm field before, after⟩]) (d.add vm field).2 where
  made e he j vm' field' before' hwhat := by
    rw [Deferred.size_add]
    rcases List.mem_append.mp he with he | he
    · obtain ⟨hj, hvm, hfield⟩ := h.made e he j vm' field' before' hwhat
      rw [Deferred.get_add_of_lt hj]
      exact ⟨Nat.lt_succ_of_lt hj, hvm, hfield⟩
    · obtain rfl := List.mem_singleton.mp he
      cases hwhat
      rw [Deferred.get_add_self]
      exact ⟨Nat.lt_succ_self _, rfl, rfl⟩
  exists_made j hj := by
    rcases Deferred.lt_or_eq_of_lt_add hj with hj | rfl
    · obtain ⟨e, he, before', hwhat⟩ := h.exists_made j hj
      rw [Deferred.get_add_of_lt hj]
      exact ⟨e, List.mem_append_left _ he, before', hwhat⟩
    · rw [Deferred.get_add_self]
      exact ⟨_, List.mem_append_right _ List.mem_cons_self, before, rfl⟩

/-- Whether a log says what has become of assignments. -/
structure Agenda (es : Log C H) (d : Deferred) : Prop extends es.Enlists d where
  arrival : ∀ i : AssignmentId, i.index < d.assignments.size →
    (d.get i).arrival = (es.settlement? i).elim .open fun value ↦ value.elim .rejected .fulfilled
  known : ∀ i, (i ∈ d.queue ∨ (es.settlement? i).isSome) → i.index < d.assignments.size
  nodup : d.queue.Nodup
  awake : ∀ i ∈ d.queue, (d.get i).waiting = false
  /-- Where nothing has arrived, somebody will look or be woken. -/
  asleep : ∀ i : AssignmentId, i.index < d.assignments.size → es.settlement? i = none →
    i ∈ d.queue ∨ (d.get i).waiting = true
  /-- Where something has arrived, it is to be looked at once. -/
  queued : ∀ i, (es.settlement? i).isSome → (i ∈ d.queue ↔ ¬ es.Concluded i)
  /-- Once it was looked at, what has arrived was written. -/
  concluded : ∀ i, es.Concluded i → es.assigned i = (es.settlement? i).join.toList
  pending : ∀ i, ¬ es.Concluded i → es.assigned i = []

namespace Agenda

variable {es es' : Log C H} {d : Deferred} {i : AssignmentId}

theorem value?_arrival (h : es.Agenda d) (hi : i.index < d.assignments.size) :
    (d.get i).arrival.value? = (es.settlement? i).join := by
  rw [h.arrival i hi]
  cases es.settlement? i with
  | none => rfl
  | some value => cases value <;> rfl

theorem start : Agenda ([] : Log C H) ⟨#[], [], []⟩ where
  made := List.forall_mem_nil _
  exists_made _ hi := absurd hi (Nat.not_lt_zero _)
  arrival _ hi := absurd hi (Nat.not_lt_zero _)
  known _ hi := hi.elim (fun hi ↦ absurd hi List.not_mem_nil) fun hi ↦ absurd hi Bool.false_ne_true
  nodup := List.nodup_nil
  awake := List.forall_mem_nil _
  asleep _ hi := absurd hi (Nat.not_lt_zero _)
  queued _ hi := absurd hi Bool.false_ne_true
  concluded _ hi := absurd hi.isSome Bool.false_ne_true
  pending _ _ := rfl

/-- Nothing is noted that concerns assignments. -/
theorem congr (h : es.Agenda d)
    (hmade : ∀ e j vm field before, e.what = .made j vm field before → (e ∈ es' ↔ e ∈ es))
    (hsettlement : ∀ j, es'.settlement? j = es.settlement? j)
    (hconcluded : ∀ j, es'.Concluded j ↔ es.Concluded j)
    (hassigned : ∀ j, es'.assigned j = es.assigned j) : es'.Agenda d where
  toEnlists := h.toEnlists.congr hmade rfl fun _ ↦ ⟨rfl, rfl⟩
  arrival j hj := hsettlement j ▸ h.arrival j hj
  known j hj := h.known j (hsettlement j ▸ hj)
  nodup := h.nodup
  awake := h.awake
  asleep j hj hnone := h.asleep j hj (hsettlement j ▸ hnone)
  queued j hsome := (h.queued j (hsettlement j ▸ hsome)).trans (not_congr (hconcluded j)).symm
  concluded j hj := by
    rw [hassigned, hsettlement]
    exact h.concluded j ((hconcluded j).mp hj)
  pending j hj := by
    rw [hassigned]
    exact h.pending j fun hc ↦ hj ((hconcluded j).mpr hc)

/-- A write in nobody's name. -/
theorem write (h : es.Agenda d) (s : SignalId) (v : Value) (st : LiveState C H) :
    Agenda (es ++ [⟨.wrote s v none, st⟩]) d := by
  refine h.congr (fun e _ vm field before hwhat ↦ ?_) (fun j ↦ ?_) (fun j ↦ ?_) fun j ↦ ?_
  · exact mem_concat_of_made hwhat fun _ _ _ _ hwrote ↦ by cases hwrote
  · exact (settlement?_concat ..).trans Option.or_none
  · exact concluded_concat.trans (or_iff_left fun hpolled ↦ by cases hpolled.1)
  · exact (assigned_concat ..).trans (List.append_nil _)

/-- Somebody looks at an assignment that is asleep or over. -/
theorem pass (h : es.Agenda d) (hi : i ∉ d.queue) (st : LiveState C H) :
    Agenda (es ++ [⟨.polled i, st⟩]) d := by
  refine h.congr (fun e j vm field before hwhat ↦ ?_) (fun j ↦ ?_) (fun j ↦ ?_) fun j ↦ ?_
  · exact mem_concat_of_made hwhat fun _ _ _ _ hpolled ↦ by cases hpolled
  · exact (settlement?_concat ..).trans Option.or_none
  · refine concluded_concat_polled.trans (or_iff_left_of_imp ?_)
    rintro ⟨rfl, hsome⟩
    exact not_not.mp fun hc ↦ hi ((h.queued j hsome).mpr hc)
  · exact (assigned_concat ..).trans (List.append_nil _)

/-- Somebody looks at an assignment, and what has arrived is written. -/
theorem pick (h : es.Agenda d) (hi : i ∈ d.queue)
    (hmade : ∀ e i vm field before, e.what = .made i vm field before → (e ∈ es' ↔ e ∈ es))
    (hsettlement : ∀ j, es'.settlement? j = es.settlement? j)
    (hconcluded : ∀ j, es'.Concluded j ↔ es.Concluded j ∨ j = i ∧ (es.settlement? i).isSome)
    (hassigned : ∀ j, es'.assigned j =
      es.assigned j ++ if j = i then (es.settlement? i).join.toList else []) :
    es'.Agenda (d.pick i) where
  toEnlists := h.toEnlists.congr hmade (d.size_pick i) fun j ↦ by
    obtain ⟨waiting, hget⟩ := d.get_pick i j
    rw [hget]
    exact ⟨rfl, rfl⟩
  arrival j hj := by
    rw [Deferred.size_pick] at hj
    obtain ⟨waiting, hget⟩ := d.get_pick i j
    rw [hget, hsettlement]
    exact h.arrival j hj
  known j hj := by
    rw [Deferred.queue_pick, hsettlement] at hj
    rw [Deferred.size_pick]
    exact h.known j (hj.imp_left List.mem_of_mem_erase)
  nodup := by
    rw [Deferred.queue_pick]
    exact h.nodup.erase i
  awake j hj := by
    rw [Deferred.queue_pick] at hj
    obtain ⟨hne, hmem⟩ := h.nodup.mem_erase_iff.mp hj
    rw [Deferred.get_pick_of_ne hne]
    exact h.awake j hmem
  asleep j hj hnone := by
    rw [Deferred.size_pick] at hj
    rw [hsettlement] at hnone
    rw [Deferred.queue_pick]
    by_cases hji : j = i
    · subst hji
      have hopen := h.arrival j hj
      rw [hnone] at hopen
      rw [Deferred.get_pick_of_open hopen hj]
      exact .inr rfl
    · rw [Deferred.get_pick_of_ne hji]
      exact (h.asleep j hj hnone).imp_left (List.mem_erase_of_ne hji).mpr
  queued j hsome := by
    rw [hsettlement] at hsome
    rw [Deferred.queue_pick, h.nodup.mem_erase_iff, hconcluded, h.queued j hsome]
    by_cases hji : j = i
    · subst hji
      simp [hsome]
    · simp [hji]
  concluded j hj := by
    rw [hassigned, hsettlement]
    rcases (hconcluded j).mp hj with hj | ⟨rfl, hsome⟩
    · have hji : j ≠ i := by
        rintro rfl
        exact (h.queued j hj.isSome).mp hi hj
      rw [if_neg hji, List.append_nil, h.concluded j hj]
    · rw [if_pos rfl, h.pending j ((h.queued j hsome).mp hi), List.nil_append]
  pending j hj := by
    rw [hconcluded, not_or] at hj
    rw [hassigned, h.pending j hj.1, List.nil_append]
    split
    · rename_i hji
      subst hji
      rw [Option.not_isSome_iff_eq_none.mp fun hsome ↦ hj.2 ⟨rfl, hsome⟩]
      rfl
    · rfl

/-- Somebody looks at an assignment that has no value, so that nothing is written. -/
theorem miss (h : es.Agenda d) (hi : i ∈ d.queue) (hnone : (es.settlement? i).join = none)
    (st : LiveState C H) : Agenda (es ++ [⟨.polled i, st⟩]) (d.pick i) := by
  refine h.pick hi (fun _ _ _ _ _ hmade ↦ ?_) (fun j ↦ ?_) (fun j ↦ ?_) fun j ↦ ?_
  · exact mem_concat_of_made hmade fun _ _ _ _ hpolled ↦ by cases hpolled
  · exact (settlement?_concat ..).trans Option.or_none
  · exact concluded_concat_polled
  · rw [assigned_concat, hnone, Option.toList_none, ite_self]
    rfl

/-- Somebody looks at an assignment that has a value, and writes it. -/
theorem meet (h : es.Agenda d) (hi : i ∈ d.queue) {v : Value}
    (hvalue : es.settlement? i = some (some v)) (s : SignalId) (st x : LiveState C H) :
    Agenda (es ++ [⟨.polled i, st⟩] ++ [⟨.wrote s v (some i), x⟩]) (d.pick i) := by
  refine h.pick hi (fun _ _ _ _ _ hmade ↦ ?_) (fun j ↦ ?_) (fun j ↦ ?_) fun j ↦ ?_
  · refine (mem_concat_of_made hmade fun _ _ _ _ hwrote ↦ by cases hwrote).trans ?_
    exact mem_concat_of_made hmade fun _ _ _ _ hpolled ↦ by cases hpolled
  · rw [settlement?_concat, settlement?_concat]
    exact Option.or_none.trans Option.or_none
  · refine concluded_concat.trans (.trans (or_iff_left fun hpolled ↦ ?_) concluded_concat_polled)
    cases hpolled.1
  · rw [assigned_concat, assigned_concat, hvalue]
    change es.assigned j ++ [] ++ (if i = j then some v else none).toList = _
    by_cases hji : j = i
    · simp [hji]
    · simp [hji, Ne.symm hji]

/-- Something arrives where something has arrived before, so that it does not count. -/
theorem settle_again (h : es.Agenda d) (hi : i.index < d.assignments.size) {first : Option Value}
    (hold : es.settlement? i = some first) (value : Option Value) (st : LiveState C H) :
    Agenda (es ++ [⟨.settled i value, st⟩]) (d.arrive i (value.elim .rejected .fulfilled)) := by
  have hne : (d.get i).arrival ≠ .open := by
    rw [h.arrival i hi, hold]
    cases first <;> exact Arrival.noConfusion
  rw [Deferred.arrive_of_ne hne]
  refine h.congr (fun e _ vm field before hwhat ↦ ?_) (fun j ↦ ?_) (fun j ↦ ?_) fun j ↦ ?_
  · exact mem_concat_of_made hwhat fun _ _ _ _ hsettled ↦ by cases hsettled
  · by_cases hji : j = i
    · rw [settlement?_concat, hji, hold]
      rfl
    · exact settlement?_concat_of_ne hji
  · exact concluded_concat.trans (or_iff_left fun hpolled ↦ by cases hpolled.1)
  · exact (assigned_concat ..).trans (List.append_nil _)

/-- Something arrives for an assignment, which is now to be looked at. -/
theorem settle_first (h : es.Agenda d) (hi : i.index < d.assignments.size)
    (hold : es.settlement? i = none) (value : Option Value) (st : LiveState C H) :
    Agenda (es ++ [⟨.settled i value, st⟩]) (d.arrive i (value.elim .rejected .fulfilled)) := by
  have hconcluded (j : AssignmentId) :
      Concluded (es ++ [⟨.settled i value, st⟩]) j ↔ es.Concluded j :=
    concluded_concat.trans (or_iff_left fun hpolled ↦ by cases hpolled.1)
  have hassigned (j : AssignmentId) :
      assigned (es ++ [⟨.settled i value, st⟩]) j = es.assigned j :=
    (assigned_concat ..).trans (List.append_nil _)
  have hfirst : settlement? (es ++ [⟨.settled i value, st⟩]) i = some value := by
    rw [settlement?_concat, hold, Option.none_or, Deal.settles, if_pos rfl]
  have hnot : ¬ es.Concluded i := fun hc ↦ by simpa [hold] using hc.isSome
  have hopen : (d.get i).arrival = .open := by rw [h.arrival i hi, hold, Option.elim_none]
  obtain ⟨hnodup, hqueue⟩ := Deferred.queue_arrive_of_open hopen h.nodup (h.awake i)
    (h.asleep i hi hold) (value.elim .rejected .fulfilled)
  have hget := Deferred.get_arrive_of_open hopen hi (value.elim .rejected .fulfilled)
  constructor
  case toEnlists =>
    refine h.toEnlists.congr (fun _ _ _ _ _ hmade ↦ ?_) (d.size_arrive ..) fun j ↦ ?_
    · exact mem_concat_of_made hmade fun _ _ _ _ hsettled ↦ by cases hsettled
    · rw [hget]
      split
      · rename_i hji
        rw [hji]
        exact ⟨rfl, rfl⟩
      · exact ⟨rfl, rfl⟩
  case arrival =>
    intro j hj
    rw [Deferred.size_arrive] at hj
    rw [hget]
    by_cases hji : j = i
    · rw [if_pos hji, hji, hfirst]
      rfl
    · rw [if_neg hji, settlement?_concat_of_ne hji]
      exact h.arrival j hj
  case known =>
    intro j hj
    rw [Deferred.size_arrive]
    by_cases hji : j = i
    · rwa [hji]
    · rw [hqueue, settlement?_concat_of_ne hji] at hj
      exact h.known j (hj.imp_left fun hj ↦ hj.resolve_right hji)
  case nodup => exact hnodup
  case awake =>
    intro j hj
    rw [hget]
    split
    · rfl
    · rename_i hji
      exact h.awake j (((hqueue j).mp hj).resolve_right hji)
  case asleep =>
    intro j hj hnone
    have hji : j ≠ i := by
      rintro rfl
      rw [hfirst] at hnone
      contradiction
    rw [Deferred.size_arrive] at hj
    rw [settlement?_concat_of_ne hji] at hnone
    rw [hqueue, hget, if_neg hji]
    exact (h.asleep j hj hnone).imp_left .inl
  case queued =>
    intro j hsome
    rw [hqueue, hconcluded]
    by_cases hji : j = i
    · exact iff_of_true (.inr hji) (hji ▸ hnot)
    · rw [settlement?_concat_of_ne hji] at hsome
      rw [h.queued j hsome, or_iff_left hji]
  case concluded =>
    intro j hj
    rw [hconcluded] at hj
    have hji : j ≠ i := by
      rintro rfl
      exact hnot hj
    rw [hassigned, settlement?_concat_of_ne hji]
    exact h.concluded j hj
  case pending =>
    intro j hj
    rw [hconcluded] at hj
    rw [hassigned]
    exact h.pending j hj

theorem settle (h : es.Agenda d) (hi : i.index < d.assignments.size) (value : Option Value)
    (st : LiveState C H) :
    Agenda (es ++ [⟨.settled i value, st⟩]) (d.arrive i (value.elim .rejected .fulfilled)) := by
  cases hold : es.settlement? i with
  | some first => exact h.settle_again hi hold value st
  | none => exact h.settle_first hi hold value st

/-- A new assignment is the next one, for which nothing has arrived. -/
theorem make (h : es.Agenda d) (vm : ViewModelId) (field : String) (before after : LiveState C H) :
    Agenda (es ++ [⟨.made (d.add vm field).1 vm field before, after⟩]) (d.add vm field).2 := by
  have hsettlement (j : AssignmentId) :
      settlement? (es ++ [⟨.made (d.add vm field).1 vm field before, after⟩]) j =
        es.settlement? j := (settlement?_concat ..).trans Option.or_none
  have hconcluded (j : AssignmentId) :
      Concluded (es ++ [⟨.made (d.add vm field).1 vm field before, after⟩]) j ↔ es.Concluded j :=
    concluded_concat.trans (or_iff_left fun hpolled ↦ by cases hpolled.1)
  have hassigned (j : AssignmentId) :
      assigned (es ++ [⟨.made (d.add vm field).1 vm field before, after⟩]) j = es.assigned j :=
    (assigned_concat ..).trans (List.append_nil _)
  have hnew : es.settlement? (d.add vm field).1 = none := by
    refine Option.not_isSome_iff_eq_none.mp fun hsome ↦ ?_
    exact Nat.lt_irrefl _ (h.known _ (.inr hsome))
  have hget {j : AssignmentId} (hj : j.index < d.assignments.size) :
      (d.add vm field).2.get j = d.get j := Deferred.get_add_of_lt hj vm field
  have hself := d.get_add_self vm field
  constructor
  case toEnlists => exact h.toEnlists.make vm field before after
  case arrival =>
    intro j hj
    rw [hsettlement]
    rcases Deferred.lt_or_eq_of_lt_add hj with hj | rfl
    · rw [hget hj]
      exact h.arrival j hj
    · rw [hself, hnew]
      rfl
  case known =>
    intro j hj
    rw [Deferred.queue_add, List.mem_append, hsettlement] at hj
    rw [Deferred.size_add]
    rcases hj with (hj | hj) | hj
    · exact Nat.lt_succ_of_lt (h.known j (.inl hj))
    · obtain rfl := List.mem_singleton.mp hj
      exact Nat.lt_succ_self _
    · exact Nat.lt_succ_of_lt (h.known j (.inr hj))
  case nodup =>
    rw [Deferred.queue_add]
    have hqueue : (d.add vm field).1 ∉ d.queue := fun hi ↦ Nat.lt_irrefl _ (h.known _ (.inl hi))
    exact (List.perm_append_singleton ..).nodup_iff.mpr (List.nodup_cons.mpr ⟨hqueue, h.nodup⟩)
  case awake =>
    intro j hj
    rw [Deferred.queue_add, List.mem_append] at hj
    rcases hj with hj | hj
    · rw [hget (h.known j (.inl hj))]
      exact h.awake j hj
    · rw [List.mem_singleton.mp hj, hself]
  case asleep =>
    intro j hj hnone
    rw [hsettlement] at hnone
    rw [Deferred.queue_add, List.mem_append]
    rcases Deferred.lt_or_eq_of_lt_add hj with hj | rfl
    · rw [hget hj]
      exact (h.asleep j hj hnone).imp_left .inl
    · exact .inl (.inr List.mem_cons_self)
  case queued =>
    intro j hsome
    rw [hsettlement] at hsome
    have hne : j ∉ [(d.add vm field).1] := fun hj ↦ by
      rw [List.mem_singleton.mp hj, hnew] at hsome
      contradiction
    rw [Deferred.queue_add, List.mem_append, or_iff_left hne, hconcluded]
    exact h.queued j hsome
  case concluded =>
    intro j hj
    rw [hconcluded] at hj
    rw [hassigned, hsettlement]
    exact h.concluded j hj
  case pending =>
    intro j hj
    rw [hconcluded] at hj
    rw [hassigned]
    exact h.pending j hj

end Agenda

end Log

end LiveMarkup
