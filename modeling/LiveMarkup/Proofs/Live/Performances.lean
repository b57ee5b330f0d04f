import LiveMarkup.Proofs.Live.Attendance
import LiveMarkup.Proofs.Live.Duties

/-!
# Hooks are performed once

Wherever code with a roster comes to, the roster is one that can come about, and it lists the hooks
whose code waits in the world (`Roster.watch`). Bodies and calls begin while code speaks that is not
that of a run, and leave the runs as they were under way. The one step at which this could fail is
the loop of a run: each hook may do everything that code can do, and run the same hooks again,
before the run goes on with what it has taken out (`Rostered.respects_performAll`).

So what a record of hooks shows holds at every state that code comes to, whether it ends or not
(`Crew.performs_once`).
-/

namespace LiveMarkup

variable {C H α : Type}

/-! ## The hooks that wait -/

namespace World

theorem lifecycle_modifyLifecycle (w : World C H) (i j : LifecycleId)
    (f : Lifecycle C → Lifecycle C) :
    (w.modifyLifecycle i f).lifecycle j =
      if j = i ∧ i.index < w.lifecycles.size then f (w.lifecycle i) else w.lifecycle j := by
  by_cases h : j = i
  · by_cases hlt : i.index < w.lifecycles.size
    · rw [if_pos ⟨h, hlt⟩, h]
      simp [lifecycle, modifyLifecycle, Array.getD, hlt, Array.getElem_modify_self]
    · rw [if_neg fun hc ↦ hlt hc.2, h]
      simp [lifecycle, modifyLifecycle, Array.getD, hlt]
  · rw [if_neg fun hc ↦ h hc.1]
    have hi : i.index ≠ j.index := fun hi ↦ h (congrArg LifecycleId.mk hi.symm)
    simp [lifecycle, modifyLifecycle, Array.getD_eq_getD_getElem?, Array.getElem?_modify, hi]

/-- At an identity that no lifecycle has, no hook waits. -/
theorem pending_of_size_le {w : World C H} {i : LifecycleId} (h : w.lifecycles.size ≤ i.index)
    (m : Moment) : (w.lifecycle i).pending m = [] := by
  rw [lifecycle, Array.getD_eq_getD_getElem?, Array.getElem?_eq_none h]
  cases m <;> rfl

end World

namespace Lifecycle

variable (l : Lifecycle C) (m m' : Moment)

theorem pending_register (code : C) :
    (l.register code m).pending m' = l.pending m' ++ if m' = m then [code] else [] := by
  cases m <;> cases m' <;> simp [register, pending]

theorem drain_fst : (l.drain m).1 = l.pending m := by
  cases m <;> rfl

theorem pending_drain : (l.drain m).2.pending m' = if m' = m then [] else l.pending m' := by
  cases m <;> cases m' <;> rfl

end Lifecycle

namespace Roster

/-- Whether a roster lists the hooks whose code waits in a world. -/
def Lists (ro : Roster C) (w : World C H) : Prop :=
  ∀ l m, (w.lifecycle l).pending m = (ro.waitingFor l m).map Hook.code

namespace Lists

variable {ro : Roster C} {w : World C H}

theorem register (h : ro.Lists w) {l : LifecycleId} (hl : l.index < w.lifecycles.size) (m : Moment)
    (code : C) :
    (ro.register l m code).Lists (w.modifyLifecycle l fun hooks ↦ hooks.register code m) := by
  intro l' m'
  rw [World.lifecycle_modifyLifecycle, waitingFor, Roster.register, List.filter_append,
    List.map_append]
  change _ = (ro.waitingFor l' m').map Hook.code ++ _
  rw [← h l' m']
  by_cases hsame : l = l' ∧ m = m'
  · obtain ⟨rfl, rfl⟩ := hsame
    have hnew : (ro.nextHook l m code).isFor l m = true := isFor_iff.mpr ⟨rfl, rfl⟩
    rw [if_pos ⟨rfl, hl⟩, Lifecycle.pending_register, if_pos rfl, List.filter_cons_of_pos hnew]
    rfl
  · rw [List.filter_cons_of_neg fun hfor ↦ hsame (isFor_iff.mp hfor)]
    split
    · rename_i hl'
      obtain ⟨rfl, -⟩ := hl'
      rw [Lifecycle.pending_register, if_neg fun hm ↦ hsame ⟨rfl, hm.symm⟩]
      rfl
    · exact (List.append_nil _).symm

theorem takeOut (h : ro.Lists w) (l : LifecycleId) (m : Moment) (hooks : List (Hook C)) :
    (ro.takeOut l m hooks).Lists
      (w.modifyLifecycle l fun _ ↦ ((w.lifecycle l).drain m).2) := by
  intro l' m'
  by_cases hsame : l = l' ∧ m = m'
  · obtain ⟨rfl, rfl⟩ := hsame
    have hnone : (ro.takeOut l m hooks).waitingFor l m = [] := by
      simp [waitingFor, Roster.takeOut]
    rw [World.lifecycle_modifyLifecycle, hnone]
    split
    · rw [Lifecycle.pending_drain, if_pos rfl]
      rfl
    · rename_i hl
      exact World.pending_of_size_le (Nat.le_of_not_lt fun hlt ↦ hl ⟨rfl, hlt⟩) m
  · have hrest : (ro.takeOut l m hooks).waitingFor l' m' = ro.waitingFor l' m' :=
      filter_waiting_of_ne hsame
    rw [World.lifecycle_modifyLifecycle, hrest, ← h l' m']
    split
    · rename_i hl
      obtain ⟨rfl, -⟩ := hl
      rw [Lifecycle.pending_drain, if_neg fun hm ↦ hsame ⟨rfl, hm.symm⟩]
    · rfl

end Lists

/-- What is watched while code keeps a roster. -/
def watch : Watch (World C H × Roster C) where
  holds x := x.2.Lawful ∧ x.2.Lists x.1
  admits x := x.2.Speaking
  leaves x y := y.2.shifts = x.2.shifts

end Roster

/-! ## What code with a roster does to it -/

namespace Rostered

variable {β : Type} {x : World C H × Roster C} {post : Unit → World C H × Roster C → Prop}

/-- Whether code keeps what is watched, wherever it may run, and leaves the runs under way. -/
def Keeps (p : Rostered C H α) : Prop :=
  ∀ x (post : α → World C H × Roster C → Prop), Roster.watch.holds x → x.2.Speaking →
    (∀ a y, Roster.watch.holds y → y.2.shifts = x.2.shifts → post a y) →
      p.Respects Roster.watch post x

theorem Keeps.bind {p : Rostered C H α} {f : α → Rostered C H β} (h : Keeps p)
    (hf : ∀ a, Keeps (f a)) : Keeps (p >>= f) := by
  intro x post hx hspeaking hpost
  refine (Script.respects_bind ..).mpr (h x _ hx hspeaking fun a y hy hshifts ↦ ?_)
  refine hf a y post hy (hspeaking.of_shifts_eq hshifts) fun b z hz hrest ↦ ?_
  exact hpost b z hz (hrest.trans hshifts)

/-- Code that leaves hooks alone leaves the roster as it is; bodies and calls may change it. -/
theorem respects_live {p : Live C H α} {post : α → World C H × Roster C → Prop}
    (hp : p.Obeys .sparingHooks (fun _ _ ↦ True) x.1) (hx : Roster.watch.holds x)
    (hspeaking : x.2.Speaking)
    (hpost : ∀ a y, Roster.watch.holds y → y.2.shifts = x.2.shifts → post a y) :
    (live p).Respects Roster.watch post x := by
  induction p generalizing x with
  | done a => exact hpost a x hx rfl
  | look k ih => exact fun g ↦ ih g x.1 (hp g) hx hspeaking hpost
  | change f k ih =>
    have hlists : x.2.Lists (f x.1) := fun l m ↦
      (congrArg (Lifecycle.pending · m) (hp.1 l)).trans (hx.2 l m)
    exact ⟨⟨hx.1, hlists⟩, ih hp.2 ⟨hx.1, hlists⟩ hspeaking hpost⟩
  | newSignal v k ih => exact fun s ↦ ih s (hp s) hx hspeaking hpost
  | read s k ih => exact fun v ↦ ih v (hp v) hx hspeaking hpost
  | write s v k ih =>
    exact ⟨hspeaking, fun y hy hleaves ↦ ih (hp _ trivial) hy (hspeaking.of_shifts_eq hleaves)
      fun a z hz hshifts ↦ hpost a z hz (hshifts.trans hleaves)⟩
  | effect b k ih =>
    exact ⟨hspeaking, fun e y hy hleaves ↦ ih e (hp e _ trivial) hy
      (hspeaking.of_shifts_eq hleaves) fun a z hz hshifts ↦ hpost a z hz (hshifts.trans hleaves)⟩
  | stop e k ih => exact ih hp hx hspeaking hpost
  | call q k ih =>
    exact ⟨hspeaking, fun b y hy hleaves ↦ ih b (hp.2 b _ trivial) hy
      (hspeaking.of_shifts_eq hleaves) fun a z hz hshifts ↦ hpost a z hz (hshifts.trans hleaves)⟩

theorem keeps_live {p : Live C H α} (hp : p.SparesHooks) : Keeps (live p) :=
  fun x _ ↦ respects_live (hp x.1 trivial)

theorem keeps_register (l : LifecycleId) (m : Moment) (code : C) :
    Keeps (register l m code : Rostered C H Unit) := by
  intro x post hx hspeaking hpost
  suffices h : Roster.watch.holds (x.1.modifyLifecycle l fun hooks ↦ hooks.register code m,
      if l.index < x.1.lifecycles.size then x.2.register l m code else x.2) by
    have hshifts : (if l.index < x.1.lifecycles.size then x.2.register l m code
        else x.2).shifts = x.2.shifts := by
      split
      · rfl
      · rfl
    exact ⟨h, hpost () _ h hshifts⟩
  split
  · rename_i hl
    exact ⟨hx.1.step (.register hspeaking l m code), hx.2.register hl m code⟩
  · rename_i hl
    refine ⟨hx.1, fun l' m' ↦ ?_⟩
    rw [World.lifecycle_modifyLifecycle, if_neg fun hc ↦ hl hc.2]
    exact hx.2 l' m'

/-- **The loop of a run.** Whatever a hook does, the run goes on with what it has taken out. -/
theorem respects_performAll {r : Nat} {l : LifecycleId} {m : Moment} {ss : List (Shift C)}
    (hooks : List (Hook C)) (hx : Roster.watch.holds x)
    (hshifts : x.2.shifts = ⟨r, l, m, none, hooks⟩ :: ss)
    (hpost : ∀ y, Roster.watch.holds y → y.2.shifts = ⟨r, l, m, none, []⟩ :: ss → post () y) :
    (performAll r hooks : Rostered C H Unit).Respects Roster.watch post x := by
  induction hooks generalizing x with
  | nil => exact hpost x hx hshifts
  | cons h rest ih =>
    have hbegin : Roster.watch.holds (x.1, x.2.begin r h) := ⟨hx.1.step (.begin hshifts), hx.2⟩
    have hperforms : (x.2.begin r h).shifts = ⟨r, l, m, some h, rest⟩ :: ss :=
      congrArg (List.modifyHead _) hshifts
    refine ⟨hbegin, Roster.Speaking.of_hook hperforms, fun _ y hy hleaves ↦ ?_⟩
    have hperforms : y.2.shifts = ⟨r, l, m, some h, rest⟩ :: ss := hleaves.trans hperforms
    have hfinish : Roster.watch.holds (y.1, y.2.finish r h) :=
      ⟨hy.1.step (.finish hperforms), hy.2⟩
    exact ⟨hfinish, ih hfinish (congrArg (List.modifyHead _) hperforms)⟩

theorem keeps_run (l : LifecycleId) (m : Moment) : Keeps (run l m : Rostered C H Unit) := by
  intro x post hx hspeaking hpost
  have hhooks : Hook.withCode l m (x.2.waitingFor l m) ((x.1.lifecycle l).drain m).1 =
      x.2.waitingFor l m := by
    rw [Lifecycle.drain_fst, hx.2 l m, Hook.withCode_map_code]
  let w := x.1.modifyLifecycle l fun _ ↦ ((x.1.lifecycle l).drain m).2
  have htakeOut : Roster.watch.holds (w, x.2.takeOut l m (x.2.waitingFor l m)) :=
    ⟨hx.1.step (.takeOut hspeaking l m), hx.2.takeOut l m _⟩
  have hperformAll : (performAll x.2.nextRun (x.2.waitingFor l m) : Rostered C H Unit).Respects
      Roster.watch
      (fun _ ↦ (note (·.close x.2.nextRun) : Rostered C H Unit).Respects Roster.watch post)
      (w, x.2.takeOut l m (x.2.waitingFor l m)) := by
    refine respects_performAll _ htakeOut rfl fun y hy hover ↦ ?_
    have hclose : Roster.watch.holds (y.1, y.2.close x.2.nextRun) :=
      ⟨hy.1.step (.close hover), hy.2⟩
    exact ⟨hclose, hpost () _ hclose (congrArg List.tail hover)⟩
  rw [← hhooks] at htakeOut hperformAll
  exact fun _ ↦ ⟨htakeOut, (Script.respects_bind ..).mpr hperformAll⟩

end Rostered

theorem Duty.keeps (code : Duty C H α) : Rostered.Keeps code.rostered := by
  induction code with
  | done a => exact fun x _ hx _ hpost ↦ hpost a x hx rfl
  | live p hp k ih => exact (Rostered.keeps_live hp).bind ih
  | register l m code k ih => exact (Rostered.keeps_register l m code).bind fun _ ↦ ih
  | run l m k ih => exact (Rostered.keeps_run l m).bind fun _ ↦ ih

/-! ## Crews -/

namespace Crew

variable (κ : Crew C H)

theorem keeps_call (q : Call C) : Rostered.Keeps (κ.rostered.call q) :=
  match q with
  | .perform code => (κ.perform code).keeps
  | .bind code scope node descriptor => (κ.bind code scope node descriptor).keeps
  | .link code scope target => (κ.link code scope target).keeps
  | .resume => Rostered.keeps_live .resume

theorem respects : κ.rostered.Respects Roster.watch where
  refl _ := rfl
  trans _ _ _ h h' := h'.trans h
  admits _ _ hspeaking hleaves := Roster.Speaking.of_shifts_eq hspeaking hleaves
  body b x hx hspeaking := Rostered.keeps_live (.script b) x _ hx hspeaking fun _ _ _ hy ↦ hy
  call q x hx hspeaking := κ.keeps_call q x _ hx hspeaking fun _ _ _ hy ↦ hy

/-- **Hooks are performed once.** Wherever code comes to that registers hooks and runs them, in
whatever way hooks do the same, what has happened to the hooks is proper (`HookRecord.Proper`), and
those that wait are those that the roster lists. Each state that the code comes to without a roster
it comes to with one; and if the code ends, all runs are over. -/
theorem performs_once (code : Duty C H α) {st : LiveState C H}
    (hst : ∀ l m, (st.world.lifecycle l).pending m = []) :
    (∀ st' : State Value (Routine C) (World C H × Roster C),
      κ.rostered.Visits (.script code.rostered) (st.beside {}) st' →
        st'.world.2.record.Proper ∧ st'.world.2.Lists st'.world.1) ∧
    (∀ st', κ.client.meaning.Visits (.script code.plain) st st' →
      ∃ ro, κ.rostered.Visits (.script code.rostered) (st.beside {}) (st'.beside ro)) ∧
    ∀ fuel a st', κ.client.run fuel code.plain st = some (a, st') →
      ∃ ro : Roster C, κ.rostered.run fuel code.rostered (st.beside {}) = some (a, st'.beside ro) ∧
        ro.record.Proper ∧ ro.record.Settled := by
  have hlists : ({} : Roster C).Lists st.world := hst
  have hholds : Roster.watch.holds (st.beside ({} : Roster C)).world := ⟨.empty, hlists⟩
  have hspeaking : ({} : Roster C).Speaking := fun _ hs ↦ nomatch hs
  have hcode : code.rostered.Respects Roster.watch (fun _ y ↦ y.2.shifts = []) (st.world, {}) :=
    code.keeps _ _ hholds hspeaking fun _ _ _ hshifts ↦ hshifts
  refine ⟨fun st' hvisits ↦ ?_, fun st' hvisits ↦ ?_, fun fuel a st' hrun ↦ ?_⟩
  · have hst' := hvisits.respects κ.respects hholds hcode
    exact ⟨hst'.1.proper, hst'.2⟩
  · exact κ.notes.visits hvisits (.script code.notes) {}
  · obtain ⟨ro, hro⟩ := κ.notes.exists_run code.notes hrun {}
    obtain ⟨τ, hruns⟩ := (κ.rostered.traces_runner fuel).run hro
    obtain ⟨hst', hover⟩ := hruns.respects κ.respects hholds hcode
    exact ⟨ro, hro, hst'.1.proper, hst'.1.settled hover⟩

end Crew

/-! ### An evening -/

namespace Evening

/-- What hooks do in the course of an evening. -/
inductive Song where
  /-- Announces another song and calls for it at once, then announces one for later. -/
  | opening
  /-- Announces one for the end. -/
  | encore
  | closing

def crew : Crew Song Unit where
  perform
    | .opening => .register ⟨0⟩ .mounted .encore (.run ⟨0⟩ .mounted
        (.register ⟨0⟩ .mounted .closing (.done ())))
    | .encore => .register ⟨0⟩ .destroy .closing (.done ())
    | .closing => .done ()
  bind _ _ _ _ := .done (.error "never")
  link _ _ _ := .done (.ok ())

def programme : Duty Song Unit Unit :=
  .live (Live.act World.addViewModel) .addViewModel fun _ ↦
    .register ⟨0⟩ .mounted .opening (.register ⟨0⟩ .mounted .closing
      (.run ⟨0⟩ .mounted (.run ⟨0⟩ .mounted (.run ⟨0⟩ .destroy (.done ())))))

def stage : LiveState Song Unit := ⟨.empty, { host := () }⟩

/-- The opening song calls for the one that it has just announced, which comes before the other one
that was announced at the beginning. -/
theorem crew_performs_once :
    (∀ l m, (stage.world.lifecycle l).pending m = []) ∧
      ∃ (st' : LiveState Song Unit) (ro : Roster Song),
        crew.client.run 4 programme.plain stage = some ((), st') ∧ ro.record.Proper ∧
          ro.record.Settled ∧ ro.record.begun.map Hook.number = [0, 2, 1, 4, 3] := by
  have hstage (l : LifecycleId) (m : Moment) : (stage.world.lifecycle l).pending m = [] :=
    World.pending_of_size_le (Nat.zero_le _) m
  have hruns : (crew.client.run 4 programme.plain stage).isSome = true := by decide +kernel
  have horder : (crew.rostered.run 4 programme.rostered (stage.beside {})).map (fun x ↦
      x.2.world.2.record.begun.map Hook.number) = some [0, 2, 1, 4, 3] := by decide +kernel
  obtain ⟨⟨a, st'⟩, hrun⟩ := Option.isSome_iff_exists.mp hruns
  obtain ⟨ro, hro, hproper, hover⟩ := (crew.performs_once programme hstage).2.2 4 a st' hrun
  rw [hro] at horder
  exact ⟨hstage, st', ro, hrun, hproper, hover, Option.some.inj horder⟩

end Evening

end LiveMarkup
