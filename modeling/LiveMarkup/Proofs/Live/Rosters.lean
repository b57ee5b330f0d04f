import Mathlib.Data.List.Perm.Basic
import LiveMarkup.Live.World

/-!
# Rosters

A roster keeps track of lifecycle hooks: a record of what has happened to them, the hooks that wait,
and the runs of hooks that are under way, one within the other, each with the hooks it has taken out
and not yet performed. Hooks are numbered as they are registered, so that each registration can be
told from every other one, also if the same code is registered twice.

`Roster.Step` says what can happen: a hook is registered, a run takes out all hooks that wait for a
moment, the innermost run performs its next hook, and is over when none is left. Hooks are
registered, and runs begin, only outside of any run or while a hook is performed.

Every registered hook is at one place: it waits, it was taken out by a run under way, or it has
begun (`Roster.Sound`). What follows from that is stated about the record alone
(`HookRecord.Account`).
-/

namespace LiveMarkup

variable {C : Type}

/-- A hook that was registered. -/
structure Hook (C : Type) where
  number : Nat
  lifecycle : LifecycleId
  moment : Moment
  code : C

/-- Whether a hook waits for a moment of a lifecycle. -/
def Hook.isFor (l : LifecycleId) (m : Moment) (h : Hook C) : Bool :=
  decide (h.lifecycle = l ∧ h.moment = m)

/-- What happens to hooks. -/
inductive HookEvent (C : Type) where
  /-- A hook was registered. -/
  | registered (h : Hook C)
  /-- A run of the hooks for a moment has begun, and has taken them out. -/
  | opened (run : Nat) (l : LifecycleId) (m : Moment)
  /-- A hook begins to be performed in a run. -/
  | began (run : Nat) (h : Hook C)
  /-- It has been performed. -/
  | ended (run : Nat) (h : Hook C)
  /-- A run is over. -/
  | closed (run : Nat)

namespace HookEvent

/-- The hook that was registered. -/
@[simp] def registered? : HookEvent C → Option (Hook C)
  | .registered h => some h
  | _ => none

/-- The run that has begun. -/
@[simp] def opened? : HookEvent C → Option Nat
  | .opened r _ _ => some r
  | _ => none

/-- The hook that begins to be performed. -/
@[simp] def began? : HookEvent C → Option (Hook C)
  | .began _ h => some h
  | _ => none

/-- The hook that begins to be performed, if that is in the given run. -/
@[simp] def beganIn? (r : Nat) : HookEvent C → Option (Hook C)
  | .began r' h => if r' = r then some h else none
  | _ => none

/-- The hook that has been performed. -/
@[simp] def ended? : HookEvent C → Option (Hook C)
  | .ended _ h => some h
  | _ => none

end HookEvent

/-- What has happened to hooks, in order. -/
abbrev HookRecord (C : Type) : Type := List (HookEvent C)

namespace HookRecord

/-- The hooks that were registered. -/
def registered (es : HookRecord C) : List (Hook C) := es.filterMap HookEvent.registered?

/-- The runs that have begun. -/
def opened (es : HookRecord C) : List Nat := es.filterMap HookEvent.opened?

/-- The hooks that have begun to be performed. -/
def begun (es : HookRecord C) : List (Hook C) := es.filterMap HookEvent.began?

/-- The hooks that have begun to be performed in a run. -/
def begunIn (r : Nat) (es : HookRecord C) : List (Hook C) := es.filterMap (HookEvent.beganIn? r)

/-- The hooks that have been performed. -/
def ended (es : HookRecord C) : List (Hook C) := es.filterMap HookEvent.ended?

variable (es es' : HookRecord C)

@[simp] theorem registered_append : registered (es ++ es') = registered es ++ registered es' :=
  List.filterMap_append

@[simp] theorem registered_singleton (e : HookEvent C) :
    registered [e] = e.registered?.toList := by
  cases e <;> rfl

@[simp] theorem opened_append : opened (es ++ es') = opened es ++ opened es' :=
  List.filterMap_append

@[simp] theorem opened_singleton (e : HookEvent C) : opened [e] = e.opened?.toList := by
  cases e <;> rfl

@[simp] theorem begun_append : begun (es ++ es') = begun es ++ begun es' := List.filterMap_append

@[simp] theorem begun_singleton (e : HookEvent C) : begun [e] = e.began?.toList := by
  cases e <;> rfl

@[simp] theorem begunIn_append (r : Nat) :
    begunIn r (es ++ es') = begunIn r es ++ begunIn r es' := List.filterMap_append

@[simp] theorem begunIn_singleton (r : Nat) (e : HookEvent C) :
    begunIn r [e] = (e.beganIn? r).toList := by
  rw [begunIn, List.filterMap_cons]
  cases e.beganIn? r <;> rfl

@[simp] theorem ended_append : ended (es ++ es') = ended es ++ ended es' := List.filterMap_append

@[simp] theorem ended_singleton (e : HookEvent C) : ended [e] = e.ended?.toList := by
  cases e <;> rfl

variable {es}

/-- Other events than that a hook begins in the run change nothing about the hooks that it has
begun with. -/
theorem begunIn_append_of_none {r : Nat} {e : HookEvent C} (hnone : e.beganIn? r = none) :
    begunIn r (es ++ [e]) = begunIn r es := by
  rw [begunIn_append, begunIn_singleton, hnone]
  exact List.append_nil _

theorem mem_opened {r : Nat} : r ∈ opened es ↔ ∃ l m, .opened r l m ∈ es := by
  rw [opened, List.mem_filterMap]
  constructor
  · rintro ⟨e, he, heq⟩
    cases e with
    | opened r' l m => exact ⟨l, m, Option.some.inj heq ▸ he⟩
    | _ => contradiction
  · exact fun ⟨l, m, he⟩ ↦ ⟨_, he, rfl⟩

theorem mem_begunIn {r : Nat} {h : Hook C} : h ∈ begunIn r es ↔ .began r h ∈ es := by
  rw [begunIn, List.mem_filterMap]
  constructor
  · rintro ⟨e, he, heq⟩
    cases e with
    | began r' h' =>
      obtain ⟨rfl, hhook⟩ := Option.ite_none_right_eq_some.mp heq
      exact Option.some.inj hhook ▸ he
    | _ => contradiction
  · exact fun he ↦ ⟨_, he, if_pos rfl⟩

theorem mem_begun {h : Hook C} : h ∈ begun es ↔ ∃ r, .began r h ∈ es := by
  rw [begun, List.mem_filterMap]
  constructor
  · rintro ⟨e, he, heq⟩
    cases e with
    | began r h' => exact ⟨r, Option.some.inj heq ▸ he⟩
    | _ => contradiction
  · exact fun ⟨r, he⟩ ↦ ⟨_, he, rfl⟩

end HookRecord

/-! ## Rosters -/

/-- A run of hooks that is under way. -/
structure Shift (C : Type) where
  run : Nat
  lifecycle : LifecycleId
  moment : Moment
  /-- The hook that is being performed. -/
  hook? : Option (Hook C)
  /-- The hooks that the run has taken out and that have not begun. -/
  rest : List (Hook C)

/-- What has happened to hooks, those that wait, and the runs that are under way, the innermost
first. -/
structure Roster (C : Type) where
  record : HookRecord C := []
  waiting : List (Hook C) := []
  shifts : List (Shift C) := []

namespace Roster

variable (ro : Roster C)

/-- The hooks that wait for a moment of a lifecycle. -/
def waitingFor (l : LifecycleId) (m : Moment) : List (Hook C) := ro.waiting.filter (Hook.isFor l m)

/-- The hook that is registered next. -/
def nextHook (l : LifecycleId) (m : Moment) (code : C) : Hook C :=
  ⟨ro.record.registered.length, l, m, code⟩

/-- A hook is registered. -/
def register (l : LifecycleId) (m : Moment) (code : C) : Roster C :=
  { ro with
    record := ro.record ++ [.registered (ro.nextHook l m code)]
    waiting := ro.waiting ++ [ro.nextHook l m code] }

/-- The number of the run that begins next. -/
def nextRun : Nat := ro.record.opened.length

/-- A run begins, and takes out hooks. -/
def takeOut (l : LifecycleId) (m : Moment) (hooks : List (Hook C)) : Roster C where
  record := ro.record ++ [.opened ro.nextRun l m]
  waiting := ro.waiting.filter fun h ↦ !h.isFor l m
  shifts := ⟨ro.nextRun, l, m, none, hooks⟩ :: ro.shifts

/-- The innermost run performs its next hook. -/
def begin (r : Nat) (h : Hook C) : Roster C :=
  { ro with
    record := ro.record ++ [.began r h]
    shifts := ro.shifts.modifyHead fun s ↦ { s with hook? := some h, rest := s.rest.tail } }

/-- The hook of the innermost run has been performed. -/
def finish (r : Nat) (h : Hook C) : Roster C :=
  { ro with
    record := ro.record ++ [.ended r h]
    shifts := ro.shifts.modifyHead fun s ↦ { s with hook? := none } }

/-- The innermost run is over. -/
def close (r : Nat) : Roster C :=
  { ro with record := ro.record ++ [.closed r], shifts := ro.shifts.tail }

/-- Whether other code than that of runs is being carried out: no run is under way, or the innermost
one performs a hook. -/
def Speaking : Prop := ∀ s, ro.shifts.head? = some s → s.hook?.isSome = true

/-- What can happen. -/
inductive Step : Roster C → HookEvent C → Roster C → Prop where
  | register {ro : Roster C} (speaking : ro.Speaking) (l : LifecycleId) (m : Moment) (code : C) :
      Step ro (.registered (ro.nextHook l m code)) (ro.register l m code)
  | takeOut {ro : Roster C} (speaking : ro.Speaking) (l : LifecycleId) (m : Moment) :
      Step ro (.opened ro.nextRun l m) (ro.takeOut l m (ro.waitingFor l m))
  | begin {ro : Roster C} {r : Nat} {l : LifecycleId} {m : Moment} {h : Hook C}
      {rest : List (Hook C)} {ss : List (Shift C)}
      (next : ro.shifts = ⟨r, l, m, none, h :: rest⟩ :: ss) : Step ro (.began r h) (ro.begin r h)
  | finish {ro : Roster C} {r : Nat} {l : LifecycleId} {m : Moment} {h : Hook C}
      {rest : List (Hook C)} {ss : List (Shift C)}
      (performed : ro.shifts = ⟨r, l, m, some h, rest⟩ :: ss) :
      Step ro (.ended r h) (ro.finish r h)
  | close {ro : Roster C} {r : Nat} {l : LifecycleId} {m : Moment} {ss : List (Shift C)}
      (last : ro.shifts = ⟨r, l, m, none, []⟩ :: ss) : Step ro (.closed r) (ro.close r)

/-- What can happen one after the other. -/
inductive Steps : Roster C → HookRecord C → Roster C → Prop where
  | refl (ro : Roster C) : Steps ro [] ro
  | tail {ro ro' ro'' : Roster C} {es : HookRecord C} {e : HookEvent C} (before : Steps ro es ro')
      (step : ro'.Step e ro'') : Steps ro (es ++ [e]) ro''

variable {ro ro' ro'' : Roster C} {e : HookEvent C} {es es' : HookRecord C}

theorem Step.record (h : ro.Step e ro') : ro'.record = ro.record ++ [e] := by
  cases h <;> rfl

theorem Steps.record (h : ro.Steps es ro') : ro'.record = ro.record ++ es := by
  induction h with
  | refl => exact (List.append_nil _).symm
  | tail _ hstep ih => rw [hstep.record, ih, List.append_assoc]

/-- What has happened can be taken apart anywhere. -/
theorem Steps.split (h : ro.Steps (es ++ es') ro'') :
    ∃ ro', ro.Steps es ro' ∧ ro'.Steps es' ro'' := by
  generalize hall : es ++ es' = all at h
  induction h generalizing es' with
  | refl =>
    obtain ⟨rfl, rfl⟩ := List.append_eq_nil_iff.mp hall
    exact ⟨_, .refl _, .refl _⟩
  | @tail _ _ all e hbefore hstep ih =>
    rcases List.eq_nil_or_concat es' with rfl | ⟨es', e', rfl⟩
    · rw [List.append_nil] at hall
      exact ⟨_, hall ▸ .tail hbefore hstep, .refl _⟩
    · rw [List.concat_eq_append, ← List.append_assoc] at hall
      obtain ⟨hall, hlast⟩ := List.append_inj' hall rfl
      obtain ⟨ro', hfirst, hrest⟩ := ih hall
      rw [List.concat_eq_append, List.singleton_inj.mp hlast]
      exact ⟨ro', hfirst, .tail hrest hstep⟩

theorem Steps.eq_of_nil (h : ro.Steps [] ro') : ro' = ro := by
  generalize hnil : ([] : HookRecord C) = all at h
  cases h with
  | refl => rfl
  | tail => exact absurd hnil.symm (List.append_ne_nil_of_right_ne_nil _ (List.cons_ne_nil _ _))

theorem Steps.step_of_singleton (h : ro.Steps [e] ro') : ro.Step e ro' := by
  generalize hone : [e] = all at h
  cases h with
  | refl => exact absurd hone (List.cons_ne_nil _ _)
  | @tail ro₁ _ es e' hbefore hstep =>
    have hone : [] ++ [e] = es ++ [e'] := hone
    obtain ⟨hnil, heq⟩ := List.append_inj' hone rfl
    rw [← hnil] at hbefore
    rw [hbefore.eq_of_nil] at hstep
    exact List.singleton_inj.mp heq ▸ hstep

/-- Whether a roster can come about. -/
def Lawful (ro : Roster C) : Prop := Steps {} ro.record ro

theorem Lawful.empty : Lawful ({} : Roster C) := .refl _

theorem Lawful.step (h : ro.Lawful) (hstep : ro.Step e ro') : ro'.Lawful := by
  rw [Lawful, hstep.record]
  exact .tail h hstep

/-- Each event on the record happened to a roster. -/
theorem Lawful.split (h : ro.Lawful) (hrecord : ro.record = es ++ e :: es') :
    ∃ ro₀ ro₁ : Roster C, ro₀.Lawful ∧ ro₀.record = es ∧ ro₀.Step e ro₁ ∧ ro₁.Steps es' ro := by
  rw [Lawful, hrecord] at h
  obtain ⟨ro₀, hbefore, hrest⟩ := h.split
  have hrest : ro₀.Steps ([e] ++ es') ro := hrest
  obtain ⟨ro₁, hstep, hafter⟩ := hrest.split
  have hrecord₀ : ro₀.record = es := hbefore.record
  have hlawful : ro₀.Lawful := by rwa [Lawful, hrecord₀]
  exact ⟨ro₀, ro₁, hlawful, hrecord₀, hstep.step_of_singleton, hafter⟩

/-! ## Every hook has its place -/

/-- The hooks that were taken out by runs under way and have not begun. -/
def takenOut (ro : Roster C) : List (Hook C) := ro.shifts.flatMap Shift.rest

/-- The hooks that are being performed. -/
def performed (ro : Roster C) : List (Hook C) := ro.shifts.filterMap Shift.hook?

/-- Whether every registered hook is at one place, and the runs under way are those that have begun
and are not over. -/
structure Sound (ro : Roster C) : Prop where
  numbers : ro.record.registered.map Hook.number = List.range ro.record.registered.length
  account : ro.record.registered.Perm (ro.record.begun ++ (ro.takenOut ++ ro.waiting))
  finished : ro.record.begun.Perm (ro.record.ended ++ ro.performed)
  waiting : ro.waiting.Sublist ro.record.registered
  runs : ro.record.opened = List.range ro.record.opened.length
  opened : ∀ s ∈ ro.shifts, .opened s.run s.lifecycle s.moment ∈ ro.record
  closed : ∀ r, .closed r ∈ ro.record → r < ro.nextRun
  unclosed : ∀ s ∈ ro.shifts, .closed s.run ∉ ro.record
  rest : ∀ s ∈ ro.shifts, ∀ h ∈ s.rest, h.isFor s.lifecycle s.moment = true
  descending : ro.shifts.Pairwise fun s s' ↦ s'.run < s.run

namespace Sound

theorem empty : Sound ({} : Roster C) where
  numbers := rfl
  account := .nil
  finished := .nil
  waiting := .slnil
  runs := rfl
  opened _ hs := absurd hs List.not_mem_nil
  closed _ hr := absurd hr List.not_mem_nil
  unclosed _ hs := absurd hs List.not_mem_nil
  rest _ hs := absurd hs List.not_mem_nil
  descending := .nil

/-- The runs under way have numbers that were given. -/
theorem run_lt (h : ro.Sound) {s : Shift C} (hs : s ∈ ro.shifts) : s.run < ro.nextRun := by
  have hmem : s.run ∈ ro.record.opened := HookRecord.mem_opened.mpr ⟨_, _, h.opened s hs⟩
  rw [h.runs] at hmem
  exact List.mem_range.mp hmem

theorem nodup_registered (h : ro.Sound) : (ro.record.registered.map Hook.number).Nodup := by
  rw [h.numbers]
  exact List.nodup_range

/-- No hook begins twice. -/
theorem nodup_begun (h : ro.Sound) : (ro.record.begun.map Hook.number).Nodup := by
  have hall := (h.account.map Hook.number).nodup h.nodup_registered
  rw [List.map_append] at hall
  exact (List.nodup_append.mp hall).1

theorem register (h : ro.Sound) (l : LifecycleId) (m : Moment) (code : C) :
    (ro.register l m code).Sound where
  numbers := by
    simp [Roster.register, nextHook, h.numbers, List.range_succ]
  account := by
    have haccount := h.account.append_right [ro.nextHook l m code]
    simpa [Roster.register, takenOut] using haccount
  finished := by
    simpa [Roster.register, performed] using h.finished
  waiting := by
    simpa [Roster.register] using h.waiting.append_right [ro.nextHook l m code]
  runs := by
    simpa [Roster.register] using h.runs
  opened s hs := List.mem_append_left _ (h.opened s hs)
  closed r hr := by
    simpa [Roster.register, nextRun] using h.closed r (by simpa [Roster.register] using hr)
  unclosed s hs := by
    simpa [Roster.register] using h.unclosed s hs
  rest := h.rest
  descending := h.descending

theorem takeOut (h : ro.Sound) (l : LifecycleId) (m : Moment) :
    (ro.takeOut l m (ro.waitingFor l m)).Sound where
  numbers := by
    simpa [Roster.takeOut] using h.numbers
  account := by
    have hwaiting : (ro.takenOut ++ ro.waiting).Perm
        (ro.waitingFor l m ++ ro.takenOut ++ ro.waiting.filter fun h ↦ !h.isFor l m) := by
      refine ((List.filter_append_perm (Hook.isFor l m) ro.waiting).symm.append_left _).trans ?_
      rw [← List.append_assoc]
      exact List.perm_append_comm.append_right _
    simpa [Roster.takeOut, takenOut] using h.account.trans (hwaiting.append_left _)
  finished := by
    simpa [Roster.takeOut, performed] using h.finished
  waiting := by
    simpa [Roster.takeOut] using List.filter_sublist.trans h.waiting
  runs := by
    simp [Roster.takeOut, nextRun, ← h.runs, List.range_succ]
  opened s hs := by
    rcases List.mem_cons.mp hs with rfl | hs
    · exact List.mem_append_right _ List.mem_cons_self
    · exact List.mem_append_left _ (h.opened s hs)
  closed r hr := by
    have hold : r < ro.nextRun := h.closed r (by simpa [Roster.takeOut] using hr)
    simp only [nextRun, Roster.takeOut, HookRecord.opened_append, List.length_append] at hold ⊢
    exact Nat.lt_add_right _ hold
  unclosed s hs := by
    suffices hs : .closed s.run ∉ ro.record by simpa [Roster.takeOut] using hs
    rcases List.mem_cons.mp hs with rfl | hs
    · exact fun hclosed ↦ Nat.lt_irrefl _ (h.closed _ hclosed)
    · exact h.unclosed s hs
  rest s hs hook hhook := by
    rcases List.mem_cons.mp hs with rfl | hs
    · exact (List.mem_filter.mp hhook).2
    · exact h.rest s hs hook hhook
  descending := List.pairwise_cons.mpr ⟨fun _ ↦ h.run_lt, h.descending⟩

section Innermost

variable {r : Nat} {l : LifecycleId} {m : Moment} {hook : Hook C} {rest : List (Hook C)}
  {ss : List (Shift C)}

theorem begin (h : ro.Sound) (hnext : ro.shifts = ⟨r, l, m, none, hook :: rest⟩ :: ss) :
    (ro.begin r hook).Sound := by
  obtain ⟨record, waiting, shifts⟩ := ro
  obtain rfl := hnext
  exact
    { numbers := by simpa [Roster.begin] using h.numbers
      account := by simpa [Roster.begin, takenOut] using h.account
      finished := by
        have hfinished : (record.begun ++ [hook]).Perm (record.ended ++
            hook :: ss.filterMap Shift.hook?) :=
          (List.perm_append_singleton ..).trans
            ((h.finished.cons hook).trans List.perm_middle.symm)
        simpa [Roster.begin, performed] using hfinished
      waiting := by simpa [Roster.begin] using h.waiting
      runs := by simpa [Roster.begin] using h.runs
      opened := by simpa [Roster.begin] using h.opened
      closed := by simpa [Roster.begin, nextRun] using h.closed
      unclosed := by simpa [Roster.begin] using h.unclosed
      rest := by
        have hrest := h.rest
        simp only [List.forall_mem_cons] at hrest
        simpa [Roster.begin] using ⟨hrest.1.2, hrest.2⟩
      descending := by simpa [Roster.begin] using h.descending }

theorem finish (h : ro.Sound) (hperformed : ro.shifts = ⟨r, l, m, some hook, rest⟩ :: ss) :
    (ro.finish r hook).Sound := by
  obtain ⟨record, waiting, shifts⟩ := ro
  obtain rfl := hperformed
  exact
    { numbers := by simpa [Roster.finish] using h.numbers
      account := by simpa [Roster.finish, takenOut] using h.account
      finished := by simpa [Roster.finish, performed] using h.finished
      waiting := by simpa [Roster.finish] using h.waiting
      runs := by simpa [Roster.finish] using h.runs
      opened := by simpa [Roster.finish] using h.opened
      closed := by simpa [Roster.finish, nextRun] using h.closed
      unclosed := by simpa [Roster.finish] using h.unclosed
      rest := by simpa [Roster.finish] using h.rest
      descending := by simpa [Roster.finish] using h.descending }

theorem close (h : ro.Sound) (hover : ro.shifts = ⟨r, l, m, none, []⟩ :: ss) :
    (ro.close r).Sound := by
  obtain ⟨record, waiting, shifts⟩ := ro
  obtain rfl := hover
  exact
    { numbers := by simpa [Roster.close] using h.numbers
      account := by simpa [Roster.close, takenOut] using h.account
      finished := by simpa [Roster.close, performed] using h.finished
      waiting := by simpa [Roster.close] using h.waiting
      runs := by simpa [Roster.close] using h.runs
      opened s hs := List.mem_append_left _ (h.opened s (List.mem_cons_of_mem _ hs))
      closed r' hr' := by
        have hrun : r < record.opened.length := h.run_lt List.mem_cons_self
        have hclosed : .closed r' ∈ record ∨ r' = r := by simpa [Roster.close] using hr'
        suffices hr' : r' < record.opened.length by simpa [Roster.close, nextRun] using hr'
        rcases hclosed with hr' | rfl
        · exact h.closed r' hr'
        · exact hrun
      unclosed s hs := by
        have hdescending : s.run < r := List.rel_of_pairwise_cons h.descending hs
        have hunclosed := h.unclosed s (List.mem_cons_of_mem _ hs)
        simpa [Roster.close] using ⟨hunclosed, Nat.ne_of_lt hdescending⟩
      rest s hs := h.rest s (List.mem_cons_of_mem _ hs)
      descending := h.descending.of_cons }

end Innermost

theorem step (h : ro.Sound) (hstep : ro.Step e ro') : ro'.Sound := by
  cases hstep with
  | register _ l m code => exact h.register l m code
  | takeOut _ l m => exact h.takeOut l m
  | begin hnext => exact h.begin hnext
  | finish hperformed => exact h.finish hperformed
  | close hover => exact h.close hover

theorem steps (h : ro.Sound) (hsteps : ro.Steps es ro') : ro'.Sound := by
  induction hsteps with
  | refl => exact h
  | tail _ hstep ih => exact ih.step hstep

end Sound

theorem Lawful.sound (h : ro.Lawful) : ro.Sound := Sound.empty.steps h

end Roster

end LiveMarkup
