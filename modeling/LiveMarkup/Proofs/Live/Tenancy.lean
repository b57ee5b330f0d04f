import LiveMarkup.Proofs.Live.Allowances
import LiveMarkup.Proofs.Live.Tables

/-!
# Mounting while something is being mounted

The code of a directive may itself mount on the table on which its program is being mounted. So what
becomes of a table is told along a run, by induction on fuel (`Workshop.Leaves.upholds`): code of
this library leaves every table alone, except that it calls for the code of directives; a client's
code does so, too, apart from the mounts and unmounts that stand out in it; and these nest as the
calls do, which is what a `Story` is made of.

If no mount begins on a node while another one is under way there, nothing is lost
(`Workshop.Leaves.nothing_lost`). This cannot be left out, as a mount looks whether its node is free
only before its program is carried out (`Tenant.guest_lost`).
-/

namespace LiveMarkup

variable {C H α : Type}

/-- The mount table of an identity, if there is one. -/
def World.table? (w : World C H) (t : TableId) : Option (MountTable C) := w.tables[t.index]?

theorem World.table_of_table? {w : World C H} {t : TableId} {T : MountTable C}
    (h : w.table? t = some T) : w.table t = T := by
  rw [World.table?] at h
  rw [World.table, Array.getD_eq_getD_getElem?, h, Option.getD_some]

theorem World.table?_modifyTable {w : World C H} {t : TableId} {T : MountTable C}
    (h : w.table? t = some T) (f : MountTable C → MountTable C) :
    (w.modifyTable t f).table? t = some (f T) := by
  have hget : (w.modifyTable t f).table? t = (w.table? t).map f :=
    (Array.getElem?_modify ..).trans (if_pos rfl)
  rw [hget, h, Option.map_some]

/-- Whether a mount table is as it was. -/
def World.Leaves (t : TableId) (w w' : World C H) : Prop :=
  ∀ T, w.table? t = some T → w'.table? t = some T

theorem World.Leaves.of_eq {t : TableId} {w w' : World C H} (h : w'.tables = w.tables) :
    w.Leaves t w' := fun T hT ↦ by rw [World.table?, h]; exact hT

/-- The rules for code that leaves a table alone. What calls and the bodies of effects do to it is
not its business. -/
def Rules.leaving (t : TableId) : Rules (World C H) (Call C) Call.Answer where
  own := World.Leaves t
  bodies _ _ := True
  asks _ _ := True
  answers _ _ _ _ := True

/-- Whether the live code in code that mounts leaves the table alone. -/
def Fitting.Leaves (t : TableId) : Fitting C H α → World C H → Prop
  | .done _, _ => True
  | .live p k, w => p.Obeys (.leaving t) (fun b ↦ (k b).Leaves t) w
  | .mount _ _ _ _ k, _ => ∀ answer w', (k answer).Leaves t w'
  | .unmount _ k, _ => ∀ answer w', (k answer).Leaves t w'

/-- Whether a client's code uses a table only to mount on it and to unmount from it. -/
structure Workshop.Leaves (ω : Workshop C H) (t : TableId) : Prop where
  perform : ∀ code w, (ω.perform code).Leaves t w
  bind : ∀ code scope node descriptor w, (ω.bind code scope node descriptor).Leaves t w
  link : ∀ code scope target w, (ω.link code scope target).Leaves t w

/-- Code of this library leaves every table alone. -/
theorem Rules.lenient_leaving (t : TableId) : (Rules.leaving (C := C) (H := H) t).Lenient where
  asks _ _ := trivial
  idle _ _ _ _ htables _ := .of_eq htables
  fields _ _ _ := .of_eq rfl
  register _ _ _ := .of_eq rfl
  remove _ _ _ := .of_eq rfl

/-! ## Runs -/

/-- What has happened at a table meanwhile can be told, and some events are part of that. -/
def Tells (t : TableId) (es : Chronicle C) (x y : World C H × Chronicle C) : Prop :=
  ∀ T, x.1.table? t = some T → ∃ T' h, y.1.table? t = some T' ∧ y.2 = x.2 ++ h ∧
    Story T h T' ∧ es.Sublist h

namespace Tells

variable {t : TableId} {es es' : Chronicle C} {x y z : World C H × Chronicle C}

theorem refl (x : World C H × Chronicle C) : Tells t [] x x :=
  fun T hT ↦ ⟨T, [], hT, (List.append_nil _).symm, .idle T, .slnil⟩

theorem trans (h : Tells t es x y) (h' : Tells t es' y z) : Tells t (es ++ es') x z := by
  intro T hT
  obtain ⟨T', told, hT', htold, hstory, hsub⟩ := h T hT
  obtain ⟨T'', told', hT'', htold', hstory', hsub'⟩ := h' T' hT'
  refine ⟨T'', told ++ told', hT'', ?_, hstory.append hstory', hsub.append hsub'⟩
  rw [htold', htold, List.append_assoc]

theorem of_leaves {w w' : World C H} (h : w.Leaves t w') (m : Chronicle C) :
    Tells t [] (w, m) (w', m) :=
  fun T hT ↦ ⟨T, [], h T hT, (List.append_nil _).symm, .idle T, .slnil⟩

theorem within : (Rules.leaving (C := C) (H := H) t).Within (Tells t []) where
  refl := refl
  trans _ _ _ h h' := h.trans h'
  own _ _ _ h := of_leaves h _
  bodies _ _ _ := trivial

end Tells

section Runs

variable {ω : Workshop C H} {t : TableId} {fuel : Nat}
  {st st' : State Value (Routine C) (World C H × Chronicle C)}

theorem run_note {e : TableEvent C} {u : Unit}
    (hrun : (ω.noted t).run fuel (Noted.note e) st = some (u, st')) :
    st' = st.bare.beside (st.world.2 ++ [e]) := (Prod.mk.inj (Option.some.inj hrun)).2.symm

variable (hup : ((ω.noted t).runner fuel).Upholds (.leaving t) (Tells t []))

include hup

theorem tells_live {p : Live C H α} {a : α} (hp : Live.Triples.Heeds (.leaving t) p)
    (hrun : (ω.noted t).run fuel (Noted.live p) st = some (a, st')) :
    Tells t [] st.world st'.world := by
  have h := hup.run Tells.within hrun (hp st.world.1 trivial)
  exact h.1

/-- Bindings are disposed one after the other, each when it has been noted. -/
theorem tells_disposeAll {vm : ViewModelId} {owned : List (BindingId × Binding C)}
    (hrun : (ω.noted t).run fuel (Noted.disposeAll vm owned) st = some ((), st')) :
    Tells t (owned.map fun e ↦ .disposed vm e.1) st.world st'.world := by
  induction owned generalizing st with
  | nil =>
    obtain ⟨-, rfl⟩ := Prod.mk.inj (Option.some.inj hrun)
    exact .refl _
  | cons e rest ih =>
    obtain ⟨⟨⟩, st₁, hnote, hrest⟩ := Meaning.exists_of_run_bind hrun
    obtain ⟨⟨⟩, st₂, hdispose, hrest⟩ := Meaning.exists_of_run_bind hrest
    have hnoted : Tells t [.disposed vm e.1] st.world st₁.world := by
      obtain rfl := run_note hnote
      exact fun T hT ↦ ⟨T, [.disposed vm e.1], hT, rfl, .disposed T vm e.1, .refl _⟩
    have hdisposed := tells_live hup (.dispose (Rules.lenient_leaving t) e.2) hdispose
    exact hnoted.trans (hdisposed.trans (ih hrest))

/-- What was recorded is disposed. -/
theorem tells_dispose {d : Disposer C}
    (hrun : (ω.noted t).run fuel (Noted.dispose d) st = some ((), st')) :
    Tells t (d.ids.map (TableEvent.disposed d.vm)) st.world st'.world := by
  obtain ⟨⟨⟩, st₁, hholding, hremove⟩ := Meaning.exists_of_run_bind hrun
  obtain ⟨⟨⟩, st₂, hpush, hholding⟩ := Meaning.exists_of_run_bind hholding
  obtain ⟨⟨⟩, st₃, hall, hpop⟩ := Meaning.exists_of_run_bind hholding
  obtain ⟨⟨⟩, st₄, hpopped, hdone⟩ := Meaning.exists_of_run_bind hpop
  obtain ⟨-, rfl⟩ := Prod.mk.inj (Option.some.inj hdone)
  have hleaves := Rules.lenient_leaving (C := C) (H := H) t
  have hpushed := tells_live hup (.holdings hleaves _) hpush
  have hpopped := tells_live hup (.holdings hleaves _) hpopped
  have hremoved := tells_live hup (.change fun w ↦ hleaves.remove w _ d.ids) hremove
  have htells := hpushed.trans ((tells_disposeAll hup hall).trans (hpopped.trans hremoved))
  rw [List.append_nil, List.append_nil, List.nil_append] at htells
  rw [Disposer.ids, List.map_map]
  exact htells

theorem tells_mount {n : NodeId} {program : Option (Program C)} {scope : Scope} {target : Target}
    {answer : Except MountError Unit}
    (hrun : (ω.noted t).run fuel (Noted.mount t n program scope target) st = some (answer, st')) :
    Tells t [] st.world st'.world := by
  obtain ⟨mounted, st₁, hask, hrun⟩ := Meaning.exists_of_run_bind hrun
  obtain ⟨hmounted, rfl⟩ := Prod.mk.inj (Option.some.inj hask)
  intro T hT
  have hmounted : T.isMounted n = mounted := World.table_of_table? hT ▸ hmounted
  cases mounted with
  | true =>
    obtain ⟨⟨⟩, st₂, hnote, hdone⟩ := Meaning.exists_of_run_bind hrun
    obtain rfl := run_note hnote
    obtain ⟨-, rfl⟩ := Prod.mk.inj (Option.some.inj hdone)
    exact ⟨T, [.refused n], hT, rfl, .refused hmounted, List.nil_sublist _⟩
  | false =>
    obtain ⟨⟨⟩, st₂, hnote, hrun⟩ := Meaning.exists_of_run_bind hrun
    obtain rfl := run_note hnote
    obtain ⟨result, st₃, hexecute, hrecord⟩ := Meaning.exists_of_run_bind hrun
    have hfree : T.find? n = none := MountTable.isMounted_eq_false.mp hmounted
    obtain ⟨T', h, hT', hh, hstory, -⟩ :=
      tells_live hup (.execute (Rules.lenient_leaving t) program scope target) hexecute T hT
    cases result with
    | error e =>
      obtain ⟨⟨⟩, st₄, hnote, hdone⟩ := Meaning.exists_of_run_bind hrecord
      obtain rfl := run_note hnote
      obtain ⟨-, rfl⟩ := Prod.mk.inj (Option.some.inj hdone)
      refine ⟨T', .begun n :: (h ++ [.failed n]), hT', ?_, .failed hfree hstory, List.nil_sublist _⟩
      rw [State.world_beside, hh]
      simp
    | ok d =>
      obtain ⟨⟨⟩, st₄, hinsert, hrecord⟩ := Meaning.exists_of_run_bind hrecord
      obtain ⟨-, rfl⟩ := Prod.mk.inj (Option.some.inj hinsert)
      obtain ⟨⟨⟩, st₅, hnote, hdone⟩ := Meaning.exists_of_run_bind hrecord
      obtain rfl := run_note hnote
      obtain ⟨-, rfl⟩ := Prod.mk.inj (Option.some.inj hdone)
      refine ⟨T'.insert n d, .begun n :: (h ++ [.mounted n d]), World.table?_modifyTable hT' _, ?_,
        .mounted d hfree hstory, List.nil_sublist _⟩
      rw [State.world_beside, hh]
      simp

theorem tells_unmount {n : NodeId} {answer : Bool}
    (hrun : (ω.noted t).run fuel (Noted.unmount t n) st = some (answer, st')) :
    Tells t [] st.world st'.world := by
  obtain ⟨found, st₁, htake, hclear⟩ := Meaning.exists_of_run_bind hrun
  obtain ⟨hfound, rfl⟩ := Prod.mk.inj (Option.some.inj htake)
  intro T hT
  have herased := World.table?_modifyTable hT fun T ↦ T.erase n
  have hfound : T.find? n = found := World.table_of_table? hT ▸ hfound
  cases found with
  | none =>
    obtain ⟨-, rfl⟩ := Prod.mk.inj (Option.some.inj hclear)
    rw [MountTable.erase_of_find?_eq_none hfound] at herased
    exact ⟨T, [], herased, (List.append_nil _).symm, .idle T, .slnil⟩
  | some d =>
    obtain ⟨⟨⟩, st₂, hnote, hclear⟩ := Meaning.exists_of_run_bind hclear
    obtain rfl := run_note hnote
    obtain ⟨⟨⟩, st₃, hdispose, hdone⟩ := Meaning.exists_of_run_bind hclear
    obtain ⟨-, rfl⟩ := Prod.mk.inj (Option.some.inj hdone)
    obtain ⟨T', h, hT', hh, hstory, hsub⟩ := tells_dispose hup hdispose _ herased
    refine ⟨T', .unmounted n d :: h, hT', ?_, .unmounted hfound hstory hsub, List.nil_sublist _⟩
    rw [hh, State.world_beside, List.append_assoc, List.singleton_append]

/-- What a client's code does at a table can be told. -/
theorem tells_fitting {code : Fitting C H α} {a : α}
    (hrun : (ω.noted t).run fuel (code.noted t) st = some (a, st'))
    (hcode : code.Leaves t st.world.1) : Tells t [] st.world st'.world := by
  induction code generalizing st with
  | done _ =>
    obtain ⟨-, rfl⟩ := Prod.mk.inj (Option.some.inj hrun)
    exact .refl _
  | live p k ih =>
    obtain ⟨b, st₁, hp, hk⟩ := Meaning.exists_of_run_bind hrun
    obtain ⟨htells, hb⟩ := hup.run Tells.within hp hcode
    exact htells.trans (ih b hk hb)
  | mount n program scope target k ih =>
    obtain ⟨answer, st₁, hmount, hk⟩ := Meaning.exists_of_run_bind hrun
    exact (tells_mount hup hmount).trans (ih answer hk (hcode answer _))
  | unmount n k ih =>
    obtain ⟨answer, st₁, hunmount, hk⟩ := Meaning.exists_of_run_bind hrun
    exact (tells_unmount hup hunmount).trans (ih answer hk (hcode answer _))

end Runs

namespace Workshop.Leaves

variable {ω : Workshop C H} {t : TableId}

theorem upholds (h : ω.Leaves t) (fuel : Nat) :
    ((ω.noted t).runner fuel).Upholds (.leaving t) (Tells t []) := by
  -- What a directive mounts runs within a call, so on less fuel than what it is bound in.
  induction fuel with
  | zero =>
    constructor
    · intro b st st' hrun
      cases hrun
    · intro q st a st' _ hrun
      cases hrun
  | succ fuel ih =>
    constructor
    · intro b st st' hrun
      rw [Meaning.runner_succ_body] at hrun
      obtain ⟨⟨⟨⟩, st₁⟩, hbody, rfl⟩ := Option.map_eq_some_iff.mp hrun
      exact tells_live ih (.script (Rules.lenient_leaving t) b) hbody
    · intro q st a st' _ hrun
      rw [Meaning.runner_succ_call] at hrun
      refine ⟨?_, trivial⟩
      cases q with
      | perform code => exact tells_fitting ih hrun (h.perform code _)
      | bind code scope node descriptor =>
        exact tells_fitting ih hrun (h.bind code scope node descriptor _)
      | link code scope target => exact tells_fitting ih hrun (h.link code scope target _)
      | resume => exact tells_live ih (.resume (Rules.lenient_leaving t)) hrun

/-- **Nothing that is recorded is lost**, if no mount begins on a node while another one is under
way there: each record that the code makes takes nobody's place, and it is either still there in
the end, or was taken out and had its bindings disposed. -/
theorem nothing_lost (h : ω.Leaves t) {fuel : Nat} {code : Fitting C H α} {st st' : LiveState C H}
    {T : MountTable C} {a : α} (hT : st.world.table? t = some T)
    (hcode : code.Leaves t st.world)
    (hrun : (ω.client t).run fuel (code.plain t) st = some (a, st')) :
    ∃ T' es, st'.world.table? t = some T' ∧
      (ω.noted t).run fuel (code.noted t) (st.beside []) = some (a, st'.beside es) ∧
      Story T es T' ∧ (Separate [] es → Lossless T es T') := by
  obtain ⟨es, hnoted⟩ := ω.exists_noted t hrun
  obtain ⟨T', told, hT', htold, hstory, -⟩ := tells_fitting (h.upholds fuel) hnoted hcode T hT
  obtain rfl : es = told := htold
  exact ⟨T', es, hT', hnoted, hstory, hstory.lossless⟩

end Workshop.Leaves

/-! ### A lodger -/

/-- What two directives do: make a binding, or first mount something for another view-model. -/
inductive Tenant where
  | guest
  | host (room : NodeId)

namespace Tenant

def directive (tenant : Tenant) : Directive Tenant :=
  { terminal := true, behaviour := .client tenant }

/-- The second directive lodges the first one in a room. -/
def compiler (room : NodeId) : Compiler Tenant where
  registry := (Registry.builtin.register "guest" guest.directive).register "host"
    (host room).directive

def lodging : Tree NodeId := .element ⟨1⟩ "p" [("v-guest", "")] []

def house : Tree NodeId := .element ⟨2⟩ "q" [("v-host", "")] []

def workshop : Workshop Tenant Unit where
  perform _ := .done ()
  bind tenant _ _ _ :=
    match tenant with
    | guest => .done (.ok (.client guest))
    | host room =>
      .mount room ((compiler room).compile lodging).1 ⟨⟨1⟩, none, none⟩ (.node ⟨1⟩) fun answer ↦
        match answer with
        | .ok () => .done (.ok (.client (host room)))
        | .error _ => .done (.error "no room")
  link _ _ _ := .done (.ok ())

/-- The house is mounted on a node, which is tried again and then unmounted. -/
def stay (room : NodeId) : Fitting Tenant Unit (Bool × Bool × Bool) :=
  .mount ⟨0⟩ ((compiler room).compile house).1 ⟨⟨0⟩, none, none⟩ (.node ⟨2⟩) fun first ↦
    .mount ⟨0⟩ ((compiler room).compile house).1 ⟨⟨0⟩, none, none⟩ (.node ⟨2⟩) fun second ↦
      .unmount ⟨0⟩ fun found ↦ .done (first.isOk, second.isOk, found)

/-- Some nodes, two view-models without fields, and an empty table. -/
def state : LiveState Tenant Unit where
  graph := .empty
  world := {
    nodes := (NodeStore.empty.plant (.fragment ⟨0⟩ [lodging, house, .element ⟨3⟩ "i" [] []])).2
    viewModels := #[⟨[], ⟨0⟩, ⟨0⟩, false, false⟩, ⟨[], ⟨1⟩, ⟨1⟩, false, false⟩]
    ledgers := #[.empty, .empty]
    tables := #[.empty]
    host := () }

theorem workshop_leaves (t : TableId) : workshop.Leaves t := by
  constructor
  · intro tenant w
    trivial
  · intro tenant scope node descriptor w
    cases tenant with
    | guest => trivial
    | host room =>
      intro answer w'
      cases answer with
      | ok u => trivial
      | error e => trivial
  · intro tenant scope target w
    trivial

/-- With a room of its own for the guest, nothing is lost. -/
theorem stay_lossless : ∃ (st' : LiveState Tenant Unit) (T' : MountTable Tenant)
    (es : Chronicle Tenant),
    (workshop.client ⟨0⟩).run 4 ((stay ⟨3⟩).plain ⟨0⟩) state = some ((true, false, true), st') ∧
      Separate [] es ∧ Lossless .empty es T' := by
  have hanswer : ((workshop.client ⟨0⟩).run 4 ((stay ⟨3⟩).plain ⟨0⟩) state).map (·.1) =
      some (true, false, true) := by decide +kernel
  have hseparate : ((workshop.noted ⟨0⟩).run 4 ((stay ⟨3⟩).noted ⟨0⟩) (state.beside [])).map
      (fun x ↦ decide (Separate [] x.2.world.2)) = some true := by decide +kernel
  obtain ⟨⟨answer, st'⟩, hrun, rfl⟩ := Option.map_eq_some_iff.mp hanswer
  have hcode (w : World Tenant Unit) : (stay ⟨3⟩).Leaves ⟨0⟩ w := fun _ _ _ _ _ _ ↦ trivial
  obtain ⟨T', es, -, hnoted, -, hlossless⟩ :=
    (workshop_leaves ⟨0⟩).nothing_lost (T := .empty) rfl (hcode _) hrun
  rw [hnoted] at hseparate
  have hes : Separate [] es := of_decide_eq_true (Option.some.inj hseparate)
  exact ⟨st', T', es, hrun, hes, hlossless hes⟩

/-- What is recorded for a node, or that nothing is any more. -/
def record? : TableEvent Tenant → Option (NodeId × Option (ViewModelId × List BindingId))
  | .mounted n d => some (n, some (d.vm, d.ids))
  | .unmounted n _ => some (n, none)
  | _ => none

/-- In the room of the house, the guest is recorded first and then the house in its place.
Unmounting finds the house, and the guest's binding stays in its ledger. -/
theorem guest_lost :
    ((workshop.noted ⟨0⟩).run 4 ((stay ⟨0⟩).noted ⟨0⟩) (state.beside [])).map
        (fun x ↦ x.2.world.2.filterMap record?) =
      some [(⟨0⟩, some (⟨1⟩, [⟨0⟩])), (⟨0⟩, some (⟨0⟩, [⟨0⟩])), (⟨0⟩, none)] ∧
    ((workshop.client ⟨0⟩).run 4 ((stay ⟨0⟩).plain ⟨0⟩) state).map
        (fun x ↦ (x.1, (x.2.world.table ⟨0⟩).size, (x.2.world.ledgerOf ⟨1⟩).ids)) =
      some ((true, false, true), 0, [⟨0⟩]) := by
  constructor
  · decide +kernel
  · decide +kernel

end Tenant

end LiveMarkup
