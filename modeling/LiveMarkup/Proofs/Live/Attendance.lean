import Mathlib.Data.List.Nodup
import LiveMarkup.Proofs.Live.Rosters

/-!
# What a record of hooks shows

A run of hooks that has begun is followed to its end (`Roster.Steps.tends`): as long as it is under
way it lies over the runs that were under way when it began, and the hooks that have begun in it,
followed by those that it still has, are those that it has taken out. With the places of all hooks
(`Roster.Sound`) that says what has become of a hook, and it says so of the record alone
(`HookRecord.Proper`): no hook begins twice, it begins only in a run that began after it was
registered, and a run that begins outside of all hooks leaves none behind.

The order in which hooks begin is that of their registration as long as no run for the same moment
begins within another one (`HookRecord.NoReentry`). A run within a run takes out the hooks that were
registered since, and they begin before those that the outer run still has.
-/

namespace LiveMarkup

variable {C : Type}

/-! ## Runs from their beginning to their end -/

/-- Whether every run that has begun is over, and every hook that has begun has been performed. -/
def HookRecord.Settled (es : HookRecord C) : Prop :=
  (∀ r ∈ es.opened, .closed r ∈ es) ∧ ∀ hook ∈ es.begun, hook ∈ es.ended

namespace Roster

variable {ro ro' ro₀ ro₁ : Roster C} {e : HookEvent C} {es es' : HookRecord C} {r : Nat}
  {l : LifecycleId} {m : Moment} {hook : Hook C} {hooks : List (Hook C)} {ss : List (Shift C)}

/-- Whether a run that has taken out hooks, while other runs were under way, is still under way or
is over, after something has happened. -/
inductive Tends (r : Nat) (l : LifecycleId) (m : Moment) (hooks : List (Hook C))
    (ss : List (Shift C)) (es : HookRecord C) (ro : Roster C) : Prop where
  | underway (above : List (Shift C)) (hook? : Option (Hook C)) (rest : List (Hook C))
      (shifts : ro.shifts = above ++ ⟨r, l, m, hook?, rest⟩ :: ss)
      (begun : es.begunIn r ++ rest = hooks)
  | closed (closed : .closed r ∈ es) (begun : es.begunIn r = hooks)

namespace Sound

/-- Of the runs under way only the innermost one has its number. -/
theorem eq_nil_of_head (h : ro.Sound) {s s' : Shift C} {above ss' : List (Shift C)}
    (hhead : ro.shifts = s' :: ss') (hshifts : ro.shifts = above ++ s :: ss)
    (hrun : s'.run = s.run) : above = [] := by
  cases above with
  | nil => rfl
  | cons s'' above =>
    obtain ⟨rfl, -⟩ := List.cons.inj (hhead.symm.trans hshifts)
    have hlt : s.run < s'.run := by
      have hdescending := h.descending
      rw [hshifts] at hdescending
      exact List.rel_of_pairwise_cons hdescending
        (List.mem_append_right _ List.mem_cons_self)
    exact absurd hrun (Nat.ne_of_gt hlt)

end Sound

namespace Tends

theorem step (hro : ro.Sound) (hes : es ⊆ ro.record) (htends : Tends r l m hooks ss es ro)
    (hstep : ro.Step e ro') : Tends r l m hooks ss (es ++ [e]) ro' := by
  cases htends with
  | closed hclosed hbegun =>
    refine .closed (List.mem_append_left _ hclosed) ?_
    rw [HookRecord.begunIn_append_of_none, hbegun]
    cases hstep with
    | begin hnext =>
      refine if_neg fun heq ↦ ?_
      have hunclosed := hro.unclosed _ (hnext ▸ List.mem_cons_self)
      exact hunclosed (heq ▸ hes hclosed)
    | _ => rfl
  | underway above hook? rest hshifts hbegun =>
    have hother (hnone : e.beganIn? r = none) : (es ++ [e]).begunIn r ++ rest = hooks :=
      (HookRecord.begunIn_append_of_none hnone).symm ▸ hbegun
    -- the run changes only if it is the innermost one, that is, if none lies above it
    cases hstep with
    | register => exact .underway above hook? rest hshifts (hother rfl)
    | takeOut =>
      exact .underway (_ :: above) hook? rest (congrArg (List.cons _) hshifts) (hother rfl)
    | @begin r' l' m' h' rest' ss' hnext =>
      cases above with
      | nil =>
        obtain ⟨heq, rfl⟩ := List.cons.inj (hnext.symm.trans hshifts)
        cases heq
        exact .underway [] (some h') rest' (by simp [Roster.begin, hnext]) (by simpa using hbegun)
      | cons s above =>
        have hrun : r' ≠ r := fun heq ↦
          List.cons_ne_nil _ _ (hro.eq_nil_of_head hnext hshifts heq)
        refine .underway ({ s with hook? := some h', rest := s.rest.tail } :: above) hook? rest ?_
          (hother (if_neg hrun))
        exact congrArg (List.modifyHead _) hshifts
    | finish hperformed =>
      cases above with
      | nil => exact .underway [] none rest (by simp [Roster.finish, hshifts]) (hother rfl)
      | cons s above =>
        refine .underway ({ s with hook? := none } :: above) hook? rest ?_ (hother rfl)
        exact congrArg (List.modifyHead _) hshifts
    | close hover =>
      cases above with
      | nil =>
        obtain ⟨heq, rfl⟩ := List.cons.inj (hover.symm.trans hshifts)
        cases heq
        refine .closed (List.mem_append_right _ List.mem_cons_self) ?_
        exact (List.append_nil _).symm.trans (hother rfl)
      | cons s above =>
        exact .underway above hook? rest (congrArg List.tail hshifts) (hother rfl)

end Tends

/-- A run is followed from its beginning. -/
theorem Steps.tends (hro₀ : ro₀.Sound) (hstep : ro₀.Step (.opened r l m) ro₁)
    (hsteps : ro₁.Steps es ro) : Tends r l m (ro₀.waitingFor l m) ro₀.shifts es ro := by
  have hro₁ := hro₀.step hstep
  induction hsteps with
  | refl =>
    cases hstep
    exact .underway [] none _ rfl rfl
  | tail hbefore hnext ih =>
    refine ih.step (hro₁.steps hbefore) ?_ hnext
    exact hbefore.record ▸ List.subset_append_right _ _

/-- A run that is the innermost one under way lies over those that were when it began, and has left
what it has not begun with. -/
theorem Tends.of_head (htends : Tends r l m hooks ss es ro) (hro : ro.Sound) (hes : es ⊆ ro.record)
    {s : Shift C} {ss' : List (Shift C)} (hshifts : ro.shifts = s :: ss') (hrun : s.run = r) :
    ss' = ss ∧ es.begunIn r ++ s.rest = hooks := by
  cases htends with
  | closed hclosed _ =>
    have hunclosed := hro.unclosed s (hshifts ▸ List.mem_cons_self)
    exact absurd (hes hclosed) (hrun ▸ hunclosed)
  | underway above hook? rest hunder hbegun =>
    obtain rfl := hro.eq_nil_of_head hshifts hunder hrun
    obtain ⟨rfl, rfl⟩ := List.cons.inj (hshifts.symm.trans hunder)
    exact ⟨rfl, hbegun⟩

/-- The hooks that a run has begun with are, in order, the first of those it has taken out. -/
theorem Tends.begunIn_prefix (h : Tends r l m hooks ss es ro) : es.begunIn r <+: hooks := by
  cases h with
  | underway _ _ rest _ hbegun => exact ⟨rest, hbegun⟩
  | closed _ hbegun => exact hbegun ▸ List.prefix_refl _

namespace Sound

variable (h : ro.Sound)

include h

/-- Hooks are numbered in the order of registration. -/
theorem ascending {hooks : List (Hook C)} (hhooks : hooks.Sublist ro.record.registered) :
    (hooks.map Hook.number).Pairwise (· < ·) := by
  have hsub := hhooks.map Hook.number
  rw [h.numbers] at hsub
  exact List.pairwise_lt_range.sublist hsub

theorem waitingFor_sublist (l : LifecycleId) (m : Moment) :
    (ro.waitingFor l m).Sublist ro.record.registered := List.filter_sublist.trans h.waiting

/-- A hook that is registered and has neither begun nor been taken out waits. -/
theorem mem_waitingFor (hreg : hook ∈ ro.record.registered)
    (hbegun : hook ∉ ro.record.begun) (hshifts : ro.shifts = [])
    (hfor : hook.isFor l m = true) : hook ∈ ro.waitingFor l m := by
  have hplaces := h.account.mem_iff.mp hreg
  rw [takenOut, hshifts] at hplaces
  exact List.mem_filter.mpr ⟨(List.mem_append.mp hplaces).resolve_left hbegun, hfor⟩

/-- If all hooks that have begun have been performed, none is being performed. -/
theorem performed_eq_nil (hended : ∀ hook ∈ ro.record.begun, hook ∈ ro.record.ended) :
    ro.performed = [] := by
  have hnodup := h.finished.nodup (List.Nodup.of_map _ h.nodup_begun)
  have hdisjoint := (List.nodup_append.mp hnodup).2.2
  refine List.eq_nil_iff_forall_not_mem.mpr fun hook hperformed ↦ ?_
  have hbegun := h.finished.mem_iff.mpr (List.mem_append_right _ hperformed)
  exact hdisjoint hook (hended hook hbegun) hook hperformed rfl

end Sound

theorem Speaking.of_shifts_eq (h : ro.Speaking) (heq : ro'.shifts = ro.shifts) : ro'.Speaking := by
  rwa [Speaking, heq]

/-- While a hook is performed, it is its code that speaks. -/
theorem Speaking.of_hook {rest : List (Hook C)}
    (hshifts : ro.shifts = ⟨r, l, m, some hook, rest⟩ :: ss) : ro.Speaking := by
  rintro s hs
  rw [hshifts] at hs
  exact Option.some.inj hs ▸ rfl

/-- Code that speaks while no hook is performed is not within a run. -/
theorem Speaking.shifts_eq_nil (h : ro.Speaking) (hperformed : ro.performed = []) :
    ro.shifts = [] := by
  cases hshifts : ro.shifts with
  | nil => rfl
  | cons s ss =>
    obtain ⟨hook, hhook⟩ := Option.isSome_iff_exists.mp (h s (by rw [hshifts]; rfl))
    rw [performed, hshifts, List.filterMap_cons_some hhook] at hperformed
    exact absurd hperformed (List.cons_ne_nil _ _)

namespace Lawful

/-- How a run under way began. -/
theorem exists_opened (h : ro.Lawful) {s : Shift C} (hshifts : ro.shifts = s :: ss) :
    ∃ (before after : HookRecord C) (ro₀ : Roster C),
      ro.record = before ++ .opened s.run s.lifecycle s.moment :: after ∧ ro₀.Lawful ∧
      ro₀.record = before ∧
      after.begunIn s.run ++ s.rest = ro₀.waitingFor s.lifecycle s.moment := by
  have hopened := h.sound.opened s (hshifts ▸ List.mem_cons_self)
  obtain ⟨before, after, hrecord⟩ := List.append_of_mem hopened
  obtain ⟨ro₀, ro₁, hro₀, hbefore, hstep, hafter⟩ := h.split hrecord
  have hes : after ⊆ ro.record := hafter.record ▸ List.subset_append_right _ _
  have hbegun := ((hafter.tends hro₀.sound hstep).of_head h.sound hes hshifts rfl).2
  exact ⟨before, after, ro₀, hrecord, hro₀, hbefore, hbegun⟩

/-- A hook begins in a run that has begun after it was registered, and for the moment that it waits
for. -/
theorem exists_opened_of_began (h : ro.Lawful) (hbegan : .began r hook ∈ ro.record) :
    ∃ (before : HookRecord C) (l : LifecycleId) (m : Moment) (after : HookRecord C),
      ro.record = before ++ .opened r l m :: after ∧ hook ∈ before.registered ∧
      hook.isFor l m = true ∧ .began r hook ∈ after := by
  obtain ⟨es, es', hrecord⟩ := List.append_of_mem hbegan
  obtain ⟨roₐ, _, hroₐ, hes, hstep, -⟩ := h.split hrecord
  cases hstep with
  | begin hnext =>
    obtain ⟨before, after, ro₀, hrecordₐ, hro₀, hbefore, hbegun⟩ := hroₐ.exists_opened hnext
    have hwaiting : hook ∈ ro₀.waitingFor _ _ :=
      hbegun ▸ List.mem_append_right _ List.mem_cons_self
    refine ⟨before, _, _, after ++ .began r hook :: es', ?_, ?_, (List.mem_filter.mp hwaiting).2,
      List.mem_append_right _ List.mem_cons_self⟩
    · rw [hrecord, ← hes, hrecordₐ, List.append_assoc]
      rfl
    · exact hbefore ▸ (hro₀.sound.waitingFor_sublist _ _).subset hwaiting

/-- A hook that is registered after a run has begun begins in a run that begins later. -/
theorem mem_opened_of_registered (h : ro.Lawful) {before after : HookRecord C} {r' : Nat}
    (hrecord : ro.record = before ++ .opened r l m :: after) (hhook : hook ∈ after.registered)
    (hbegan : .began r' hook ∈ ro.record) : r' ∈ after.opened := by
  obtain ⟨before', l', m', after', hrecord', hhook', -⟩ := h.exists_opened_of_began hbegan
  -- it was not registered before the one run, but before the other
  have hnew : hook ∉ before.registered := fun hold ↦ by
    have hnodup := h.sound.nodup_registered.of_map
    rw [hrecord, HookRecord.registered_append] at hnodup
    exact (List.nodup_append.mp hnodup).2.2 hook hold hook hhook rfl
  have hprefix : before <+: ro.record := hrecord ▸ List.prefix_append _ _
  have hprefix' : before' <+: ro.record := hrecord' ▸ List.prefix_append _ _
  rcases List.prefix_or_prefix_of_prefix hprefix hprefix' with ⟨between, rfl⟩ | ⟨between, rfl⟩
  · rw [hrecord', List.append_assoc, List.append_cancel_left_eq] at hrecord
    cases between with
    | nil =>
      rw [List.append_nil] at hhook'
      exact absurd hhook' hnew
    | cons e between =>
      obtain ⟨-, rfl⟩ := List.cons.inj hrecord
      exact HookRecord.mem_opened.mpr ⟨l', m', List.mem_append_right _ List.mem_cons_self⟩
  · rw [HookRecord.registered_append] at hnew
    exact absurd (List.mem_append_left _ hhook') hnew

/-- A run begins once. -/
theorem not_mem_opened (h : ro.Lawful) {before after : HookRecord C}
    (hrecord : ro.record = before ++ .opened r l m :: after) : r ∉ after.opened := by
  have hnodup : ro.record.opened.Nodup := h.sound.runs ▸ List.nodup_range
  rw [hrecord, HookRecord.opened_append] at hnodup
  exact (List.nodup_cons.mp (List.nodup_append.mp hnodup).2.1).1

/-- The hooks of a run begin in the order of registration. -/
theorem ascending_begunIn (h : ro.Lawful) (r : Nat) :
    ((ro.record.begunIn r).map Hook.number).Pairwise (· < ·) := by
  cases hbegun : ro.record.begunIn r with
  | nil => exact .nil
  | cons hook hooks =>
    have hbegan : .began r hook ∈ ro.record :=
      HookRecord.mem_begunIn.mp (hbegun ▸ List.mem_cons_self)
    obtain ⟨before, l, m, after, hrecord, -⟩ := h.exists_opened_of_began hbegan
    obtain ⟨ro₀, ro₁, hro₀, hbefore, hstep, hafter⟩ := h.split hrecord
    -- nothing has begun in the run before it opened
    have hnone : before.begunIn r = [] := by
      refine List.eq_nil_iff_forall_not_mem.mpr fun hook' hhook' ↦ ?_
      rw [← hbefore, HookRecord.mem_begunIn] at hhook'
      obtain ⟨before', l', m', after', hrecord', -⟩ := hro₀.exists_opened_of_began hhook'
      have hopened : r ∈ ro₀.record.opened :=
        HookRecord.mem_opened.mpr ⟨l', m', hrecord' ▸ List.mem_append_right _ List.mem_cons_self⟩
      rw [hro₀.sound.runs] at hopened
      cases hstep
      exact Nat.lt_irrefl _ (List.mem_range.mp hopened)
    have htends := hafter.tends hro₀.sound hstep
    have hall : ro.record.begunIn r = after.begunIn r := by
      rw [hrecord, HookRecord.begunIn_append, hnone]
      rfl
    rw [← hbegun, hall]
    exact hro₀.sound.ascending
      (htends.begunIn_prefix.sublist.trans (hro₀.sound.waitingFor_sublist l m))

/-- A hook that has been performed has begun once. -/
theorem count_of_ended (h : ro.Lawful) (hrecord : ro.record = es ++ es')
    (hended : hook ∈ es.ended) : (es.begun.map Hook.number).count hook.number = 1 := by
  have hsteps : Steps {} (es ++ es') ro := hrecord ▸ h
  obtain ⟨ro', hbefore, -⟩ := hsteps.split
  have hrecord' : ro'.record = es := hbefore.record
  have hro' : ro'.Sound := Sound.empty.steps hbefore
  subst hrecord'
  have hbegun := hro'.finished.mem_iff.mpr (List.mem_append_left _ hended)
  exact List.count_eq_one_of_mem hro'.nodup_begun (List.mem_map_of_mem hbegun)

/-- **A run that begins outside of all hooks leaves none behind.** -/
theorem complete (h : ro.Lawful) {before between after : HookRecord C}
    (hrecord : ro.record = before ++ .opened r l m :: (between ++ .closed r :: after))
    (houtside : ∀ hook ∈ before.begun, hook ∈ before.ended) (hreg : hook ∈ before.registered)
    (hfor : hook.isFor l m = true) :
    hook ∈ (before ++ .opened r l m :: between).ended := by
  have hrecord : ro.record = (before ++ .opened r l m :: between) ++ .closed r :: after := by
    rw [hrecord, List.append_assoc]
    rfl
  obtain ⟨ro₂, ro₃, hro₂, hrecord₂, hclose, -⟩ := h.split hrecord
  obtain ⟨ro₀, ro₁, hro₀, hbefore, hstep, hbetween⟩ := hro₂.split hrecord₂
  subst hbefore
  have hshifts₀ : ro₀.shifts = [] := by
    cases hstep with
    | takeOut hspeaking => exact hspeaking.shifts_eq_nil (hro₀.sound.performed_eq_nil houtside)
  cases hclose with
  | close hover =>
    have hes : between ⊆ ro₂.record := hbetween.record ▸ List.subset_append_right _ _
    obtain ⟨rfl, hbegun⟩ := (hbetween.tends hro₀.sound hstep).of_head hro₂.sound hes hover rfl
    -- the run has begun with all that it took out, and none is being performed any more
    have hperformed : ro₂.performed = [] := by rw [performed, hover, hshifts₀]; rfl
    have hended := hro₂.sound.finished
    rw [hperformed, List.append_nil, hrecord₂] at hended
    refine hended.mem_iff.mp ?_
    by_cases hold : hook ∈ ro₀.record.begun
    · rw [HookRecord.begun_append]
      exact List.mem_append_left _ hold
    · have hwaiting := hro₀.sound.mem_waitingFor hreg hold hshifts₀ hfor
      rw [← hbegun, List.append_nil, HookRecord.mem_begunIn] at hwaiting
      exact HookRecord.mem_begun.mpr
        ⟨r, List.mem_append_right _ (List.mem_cons_of_mem _ hwaiting)⟩

/-- Where no run is under way, all are over, and the hooks that have begun have been performed. -/
theorem settled (h : ro.Lawful) (hshifts : ro.shifts = []) : ro.record.Settled := by
  constructor
  · intro r hr
    obtain ⟨l, m, hopened⟩ := HookRecord.mem_opened.mp hr
    obtain ⟨before, after, hrecord⟩ := List.append_of_mem hopened
    obtain ⟨ro₀, ro₁, hro₀, -, hstep, hafter⟩ := h.split hrecord
    cases hafter.tends hro₀.sound hstep with
    | underway above hook? rest hunder _ =>
      rw [hshifts] at hunder
      exact absurd hunder.symm (List.append_ne_nil_of_right_ne_nil _ (List.cons_ne_nil _ _))
    | closed hclosed _ => exact hrecord ▸ List.mem_append_right _ (List.mem_cons_of_mem _ hclosed)
  · intro hook hhook
    have hperformed : ro.performed = [] := by rw [performed, hshifts]; rfl
    have hfinished := h.sound.finished
    rw [hperformed, List.append_nil] at hfinished
    exact hfinished.mem_iff.mp hhook

end Lawful

end Roster

/-! ## Hooks in the order of registration -/

/-- Whether no run of the hooks for a moment begins within another one. -/
def HookRecord.NoReentry (l : LifecycleId) (m : Moment) (es : HookRecord C) : Prop :=
  ∀ before r after, es = before ++ .opened r l m :: after →
    ∀ r', .opened r' l m ∈ before → .closed r' ∈ before

theorem HookRecord.NoReentry.of_append {l : LifecycleId} {m : Moment} {es es' : HookRecord C}
    (h : (es ++ es').NoReentry l m) : es.NoReentry l m := by
  rintro before r after rfl
  exact h before r (after ++ es') (by rw [List.append_assoc]; rfl)

namespace Roster

variable {ro ro' : Roster C} {e : HookEvent C} {es : HookRecord C} {l : LifecycleId} {m : Moment}

/-- Whether the hooks for a moment, in the order of registration, are those that have begun, in the
order in which they have, those that were taken out, and those that wait. -/
def InLine (l : LifecycleId) (m : Moment) (ro : Roster C) : Prop :=
  ro.record.registered.filter (Hook.isFor l m) =
    (ro.record.begun ++ (ro.takenOut ++ ro.waiting)).filter (Hook.isFor l m)

theorem isFor_iff {hook : Hook C} : hook.isFor l m = true ↔ hook.lifecycle = l ∧ hook.moment = m :=
  decide_eq_true_iff

/-- A hook waits for one moment only. -/
theorem isFor_eq_false_of_isFor {l' : LifecycleId} {m' : Moment} {hook : Hook C}
    (hother : ¬(l' = l ∧ m' = m)) (hfor : hook.isFor l m = true) : hook.isFor l' m' = false := by
  obtain ⟨rfl, rfl⟩ := isFor_iff.mp hfor
  exact Bool.eq_false_iff.mpr fun hfor' ↦ hother ((isFor_iff.mp hfor').imp Eq.symm Eq.symm)

/-- Taking out the hooks for one moment leaves those for another. -/
theorem filter_waiting_of_ne {l' : LifecycleId} {m' : Moment} (hother : ¬(l' = l ∧ m' = m)) :
    (ro.waiting.filter fun h ↦ !h.isFor l' m').filter (Hook.isFor l m) = ro.waitingFor l m := by
  rw [waitingFor, List.filter_filter]
  refine List.filter_congr fun hook _ ↦ ?_
  cases hfor : hook.isFor l m with
  | false => rfl
  | true => rw [isFor_eq_false_of_isFor hother hfor]; rfl

/-- If runs for a moment do not begin within each other, none has taken out hooks for it when one
begins. -/
theorem Sound.filter_takenOut_eq_nil (h : ro.Sound) {r : Nat}
    (hnoReentry : HookRecord.NoReentry l m (ro.record ++ [.opened r l m])) :
    ro.takenOut.filter (Hook.isFor l m) = [] := by
  refine List.filter_eq_nil_iff.mpr fun hook hhook hfor ↦ ?_
  obtain ⟨s, hs, hrest⟩ := List.mem_flatMap.mp hhook
  obtain ⟨rfl, rfl⟩ := isFor_iff.mp hfor
  obtain ⟨hlifecycle, hmoment⟩ := isFor_iff.mp (h.rest s hs hook hrest)
  have hopened := h.opened s hs
  rw [← hlifecycle, ← hmoment] at hopened
  exact h.unclosed s hs (hnoReentry _ r [] rfl _ hopened)

theorem InLine.step (hro : ro.Sound) (h : ro.InLine l m) (hstep : ro.Step e ro')
    (hnoReentry : (ro.record ++ [e]).NoReentry l m) : ro'.InLine l m := by
  cases hstep with
  | register _ l' m' code =>
    rw [InLine] at h ⊢
    simp [Roster.register, takenOut, h]
  | takeOut _ l' m' =>
    rw [InLine, takenOut] at h
    by_cases hsame : l' = l ∧ m' = m
    · obtain ⟨rfl, rfl⟩ := hsame
      have htaken := hro.filter_takenOut_eq_nil hnoReentry
      rw [takenOut] at htaken
      simp only [List.filter_append, htaken] at h
      simp [InLine, Roster.takeOut, takenOut, waitingFor, List.filter_filter, htaken, h]
    · have hnone : (ro.waitingFor l' m').filter (Hook.isFor l m) = [] := by
        refine List.filter_eq_nil_iff.mpr fun hook hhook hfor ↦ ?_
        rw [waitingFor, List.mem_filter, isFor_eq_false_of_isFor hsame hfor] at hhook
        exact Bool.false_ne_true hhook.2
      have hrest : (ro.waiting.filter fun h ↦ !h.isFor l' m').filter (Hook.isFor l m) =
          ro.waiting.filter (Hook.isFor l m) := filter_waiting_of_ne hsame
      simpa [InLine, Roster.takeOut, takenOut, hnone, hrest] using h
  | begin hnext =>
    simpa [InLine, Roster.begin, takenOut, hnext] using h
  | finish hperformed =>
    simpa [InLine, Roster.finish, takenOut, hperformed] using h
  | close hover =>
    simpa [InLine, Roster.close, takenOut, hover] using h

theorem Steps.inLine (h : Steps {} es ro) (hnoReentry : es.NoReentry l m) : ro.InLine l m := by
  induction h with
  | refl => rfl
  | tail hbefore hstep ih =>
    refine (ih hnoReentry.of_append).step (Sound.empty.steps hbefore) hstep ?_
    rwa [hbefore.record]

/-- **Without runs within runs, hooks begin in the order of registration.** -/
theorem Lawful.ascending_begun (h : ro.Lawful) (hnoReentry : ro.record.NoReentry l m) :
    ((ro.record.begun.filter (Hook.isFor l m)).map Hook.number).Pairwise (· < ·) := by
  have hline := Steps.inLine h hnoReentry
  rw [InLine, List.filter_append] at hline
  refine h.sound.ascending (.trans ?_ (List.filter_sublist (p := Hook.isFor l m)))
  rw [hline]
  exact List.sublist_append_left _ _

end Roster

/-! ## The account -/

namespace HookRecord

/-- What a record of hooks shows. -/
structure Proper (es : HookRecord C) : Prop where
  /-- No two registrations have the same number. -/
  numbers : (es.registered.map Hook.number).Nodup
  /-- **No hook begins twice.** -/
  once : (es.begun.map Hook.number).Nodup
  /-- A hook begins in a run for its moment that has begun after it was registered. -/
  executed : ∀ r hook, .began r hook ∈ es → ∃ before l m after,
    es = before ++ .opened r l m :: after ∧ hook ∈ registered before ∧
      hook.isFor l m = true ∧ .began r hook ∈ after
  /-- **A hook that is registered after a run has begun does not begin in that run**, but in one
  that begins later, within it or behind it. -/
  later : ∀ before r l m after, es = before ++ .opened r l m :: after →
    ∀ hook ∈ registered after, ∀ r', .began r' hook ∈ es → r' ≠ r ∧ r' ∈ opened after
  /-- **When a run is over that has begun outside of all hooks**, every hook for its moment that was
  registered before has been performed, and has begun once. -/
  complete : ∀ before r l m between after,
    es = before ++ .opened r l m :: (between ++ .closed r :: after) →
      (∀ hook ∈ begun before, hook ∈ ended before) →
        ∀ hook ∈ registered before, hook.isFor l m = true →
          hook ∈ ended (before ++ .opened r l m :: between) ∧
            ((begun (before ++ .opened r l m :: between)).map Hook.number).count hook.number = 1
  /-- The hooks of one run begin in the order of registration. -/
  inTurn : ∀ r, ((es.begunIn r).map Hook.number).Pairwise (· < ·)
  /-- **Without runs within runs, hooks for a moment begin in the order of registration.** -/
  inOrder : ∀ l m, es.NoReentry l m →
    ((es.begun.filter (Hook.isFor l m)).map Hook.number).Pairwise (· < ·)

end HookRecord

/-- What has happened to hooks, whatever that was, is proper. -/
theorem Roster.Lawful.proper {ro : Roster C} (h : ro.Lawful) : ro.record.Proper where
  numbers := h.sound.nodup_registered
  once := h.sound.nodup_begun
  executed r hook hbegan := h.exists_opened_of_began hbegan
  later before r l m after hrecord hook hhook r' hbegan := by
    have hlater := h.mem_opened_of_registered hrecord hhook hbegan
    exact ⟨fun heq ↦ h.not_mem_opened hrecord (heq ▸ hlater), hlater⟩
  complete before r l m between after hrecord houtside hook hreg hfor := by
    have hended := h.complete hrecord houtside hreg hfor
    have hsplit : ro.record = (before ++ .opened r l m :: between) ++ .closed r :: after := by
      rw [hrecord, List.append_assoc]
      rfl
    exact ⟨hended, h.count_of_ended hsplit hended⟩
  inTurn := h.ascending_begunIn
  inOrder l m := h.ascending_begun

end LiveMarkup
