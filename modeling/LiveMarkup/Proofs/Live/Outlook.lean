import LiveMarkup.Proofs.Live.Current
import LiveMarkup.Proofs.Model.Ledger

/-!
# What many executions come to

Programs of templates are carried out on live copies, for one view-model or for many; fields are
written in between, and what was executed is disposed, in any order (`Act`). What this comes to can
be foretold without nodes, signals and effects. An `Outlook` knows the fields of each view-model,
the identities in each ledger, and of each copy how far it is, what it is drawn as, and what the
effect of each of its holes has seen. One act makes another outlook of it (`Outlook.step`).

Two things can be read off the steps. An act for one view-model makes no difference to what is for
another (`Outlook.alike_run`). And what is disposed stays as it is, while what is live has seen the
fields as they are, if they were all there at the execution (`Outlook.standing_run_dispose`,
`Outlook.current_run`).
-/

namespace LiveMarkup

variable {C H ι : Type}

/-! ## Ledgers without their bindings -/

namespace Ledger

variable {β : Type}

/-- The identities of a ledger, whatever they are of. -/
def bare (l : Ledger β) : Ledger Unit := ⟨l.entries.map fun e ↦ (e.1, ()), l.next⟩

@[simp] theorem ids_bare (l : Ledger β) : l.bare.ids = l.ids := by
  simp [bare, ids]

@[simp] theorem next_bare (l : Ledger β) : l.bare.next = l.next := rfl

theorem bare_registerAll (l : Ledger β) (bs : List β) :
    (l.registerAll bs).bare = l.bare.registerAll (bs.map fun _ ↦ ()) := by
  induction bs generalizing l with
  | nil => rfl
  | cons b bs ih =>
    have hregister : (l.register b).2.bare = (l.bare.register ()).2 := by
      simp [bare, register]
    rw [List.map_cons]
    exact (ih (l.register b).2).trans (congrArg (registerAll · (bs.map fun _ ↦ ())) hregister)

theorem bare_remove (l : Ledger β) (ids : List BindingId) :
    (l.remove ids).bare = l.bare.remove ids := by
  simp [bare, remove, List.filter_map, Function.comp_def]

/-- Entries stand in the order of their registration, under the identities that come next. -/
theorem entries_registerAll (l : Ledger β) (bs : List β) :
    (l.registerAll bs).entries =
      l.entries ++ (BindingId.issued l.next (l.next + bs.length)).zip bs := by
  induction bs generalizing l with
  | nil => simp [registerAll]
  | cons b bs ih =>
    have hissued : BindingId.issued l.next (l.next + (bs.length + 1)) =
        ⟨l.next⟩ :: BindingId.issued (l.next + 1) (l.next + 1 + bs.length) := by
      rw [← BindingId.issued_append (Nat.le_succ l.next) (by omega), BindingId.issued_succ,
        List.singleton_append, Nat.add_assoc, Nat.add_comm 1]
    rw [registerAll, List.foldl_cons, ← registerAll, ih, entries_register, next_register,
      List.length_cons, hissued, List.zip_cons_cons, List.append_assoc]
    rfl

theorem Sound.registerAll {l : Ledger β} (h : l.Sound) (bs : List β) :
    (l.registerAll bs).Sound := by
  induction bs generalizing l with
  | nil => exact h
  | cons b bs ih => exact ih ((Gains.register l b).sound h)

/-- The entries since a mark are those that were registered since. -/
theorem since_registerAll {l : Ledger β} (h : l.Sound) (bs : List β) :
    (l.registerAll bs).since l.watermark =
      (BindingId.issued l.next (l.next + bs.length)).zip bs := by
  rw [since, entries_registerAll, List.filter_append]
  have hold : l.entries.filter (fun e ↦ l.watermark.index ≤ e.1.index) = [] := by
    refine List.filter_eq_nil_iff.mpr fun e he ↦ ?_
    have hlt := h.lt e.1 (List.mem_map_of_mem he)
    exact fun hle ↦ Nat.not_lt.mpr (of_decide_eq_true hle) hlt
  -- The watermark is the next identity, and identities are issued in ascending order.
  have hnew : ((BindingId.issued l.next (l.next + bs.length)).zip bs).filter
      (fun e ↦ l.watermark.index ≤ e.1.index) = _ :=
    List.filter_eq_self.mpr fun e he ↦
      decide_eq_true (BindingId.mem_issued.mp (List.of_mem_zip he).1).1
  rw [hold, hnew, List.nil_append]

end Ledger

/-! ## Copies of templates -/

/-- A live copy of a template, and for whom the program of the template is carried out on it. -/
structure Copy (C : Type) where
  compiler : Compiler C
  template : Tree NodeId
  live : Tree NodeId
  /-- The node above the copy. -/
  above : Option NodeId
  scope : Scope

namespace Copy

/-- Whether the copy is one, and the template interpolates with the directives of this library
only. -/
structure Sound (c : Copy C) : Prop where
  builtin : c.compiler.registry = .builtin
  interpolates : c.compiler.Interpolates c.template
  plain : c.live.plain = c.template.plain
  nodup : c.live.labels.Nodup

/-- Carries out the program of the template on the copy. -/
def execute (c : Copy C) : Live C H (Except LinkError (Disposer C)) :=
  Live.execute (c.compiler.compile c.template).1 c.scope (.node c.live.label)

/-- What the copy is drawn as. A text that stands nowhere cannot give its place to others. -/
def design (c : Copy C) (frozen : String → Value) : Design :=
  match c.live.kind, c.above with
  | .text, none =>
    if Interpolation.hasExpression c.live.data.toList then Interpolation.beside c.live
    else c.compiler.designAll frozen [c.live]
  | _, _ => c.compiler.designAll frozen [c.live]

end Copy

/-- How far the execution of a program on a copy is, and what it has left to dispose. -/
inductive Progress (C : Type) where
  | pending
  | live (d : Disposer C)
  | disposed

/-- Something that is done to copies or view-models. -/
inductive Act (ι : Type) where
  /-- The program of a copy is carried out. -/
  | execute (i : ι)
  /-- A field is written. -/
  | set (vm : ViewModelId) (name : String) (value : Value)
  /-- What was executed on a copy is disposed. -/
  | dispose (i : ι)

namespace Act

/-- The view-model that an act is for. -/
def vm (copies : ι → Copy C) : Act ι → ViewModelId
  | .execute i | .dispose i => (copies i).scope.vm
  | .set vm _ _ => vm

variable [DecidableEq ι]

/-- The code of an act. A copy is executed once, and disposed once after that. -/
def carry (copies : ι → Copy C) (held : ι → Progress C) : Act ι → Live C H (ι → Progress C)
  | .execute i =>
    match held i with
    | .pending => do
      match ← (copies i).execute with
      | .ok d => return Function.update held i (.live d)
      | .error _ => return Function.update held i .disposed
    | _ => return held
  | .set vm name value => do
    vm.set name value
    return held
  | .dispose i =>
    match held i with
    | .live d => do
      d.dispose
      return Function.update held i .disposed
    | _ => return held

/-- The code of acts, one after the other. -/
def carryAll (copies : ι → Copy C) : List (Act ι) → (ι → Progress C) → Live C H (ι → Progress C)
  | [], held => return held
  | a :: acts, held => do carryAll copies acts (← a.carry copies held)

end Act

/-! ## Outlooks -/

/-- How far a copy is. -/
inductive Stage where
  | pending
  | live
  | disposed

def Progress.stage : Progress C → Stage
  | .pending => .pending
  | .live _ => .live
  | .disposed => .disposed

theorem Progress.of_stage_eq_pending {p : Progress C} (h : p.stage = .pending) : p = .pending := by
  cases p with
  | pending => rfl
  | live d => exact Stage.noConfusion h
  | disposed => exact Stage.noConfusion h

/-- What can be foretold of a copy. -/
structure Standing where
  stage : Stage
  /-- What it is drawn as. -/
  design : Design
  /-- What the effect of each hole saw when it last ran. -/
  seen : Nat → Snapshot
  /-- The identities of what was installed. -/
  owned : List BindingId

namespace Standing

/-- A copy on which nothing was executed. -/
def pending (live : Tree NodeId) : Standing := ⟨.pending, .fixed [live], fun _ _ ↦ none, []⟩

/-- What fills the hole of a number. -/
def text (s : Standing) (k : Nat) : String :=
  (s.design.sketch.holes[k]?).elim "" fun u ↦ u.value (s.seen k).value

/-- How the trees look. -/
def forest (s : Standing) : List (Tree Unit) := s.design.sketch.forest s.text

/-- Whether the effect of a hole waits for a field. -/
def attends (s : Standing) (name : String) (k : Nat) : Bool :=
  (s.design.sketch.holes[k]?).any (fun u ↦ decide (name ∈ u.mentioned)) && (s.seen k name).isSome

/-- A copy once a field was written, and the effects that wait for it have seen the fields. -/
def see (s : Standing) (name : String) (fields : Snapshot) : Standing :=
  { s with seen := fun k ↦ if s.attends name k then fields else s.seen k }

/-- A copy that is left as it is. -/
def rest (s : Standing) : Standing :=
  { s with stage := .disposed, design := .fixed (Tree.mapAll (fun _ ↦ default) s.forest) }

theorem markupAll_forest_rest (s : Standing) :
    Tree.markupAll s.rest.forest = Tree.markupAll s.forest :=
  (Tree.markupAll_mapAll _ _).trans (Tree.markupAll_mapAll _ _)

theorem see_of_still {s : Standing} (h : s.design.sketch.holes = []) (name : String)
    (fields : Snapshot) : s.see name fields = s := by
  have hattends (k : Nat) : s.attends name k = false := by
    rw [attends, h]
    rfl
  simp [see, hattends]

/-- Whether the effects of a copy have seen all fields that they mention, as they are. -/
def Current (s : Standing) (fields : Snapshot) : Prop :=
  ∀ k u, s.design.sketch.holes[k]? = some u → ∀ name ∈ u.mentioned,
    (s.seen k name).isSome ∧ s.seen k name = fields name

/-- A field that is written is seen by whoever mentions it. -/
theorem Current.see {s : Standing} {fields : Snapshot} (h : s.Current fields) (name : String)
    (value : Value) : (s.see name (Function.update fields name (some value))).Current
      (Function.update fields name (some value)) := by
  intro k u hu other hother
  obtain ⟨hsome, hsame⟩ := h k u hu other hother
  change (((if s.attends name k then _ else _) : Snapshot) other).isSome ∧
    ((if s.attends name k then _ else _) : Snapshot) other = _
  -- What has seen all that it mentions waits for the field if it mentions it.
  by_cases hmem : name ∈ u.mentioned
  · have hattends : s.attends name k = true := by
      have hu : s.design.sketch.holes[k]? = some u := hu
      rw [attends, hu, Option.any_some, decide_eq_true hmem, Bool.true_and]
      exact (h k u hu name hmem).1
    rw [if_pos hattends]
    refine ⟨?_, rfl⟩
    by_cases hname : other = name
    · rw [hname, Function.update_self]
      rfl
    · rw [Function.update_of_ne hname]
      exact hsame ▸ hsome
  · have hattends : s.attends name k = false := by
      have hu : s.design.sketch.holes[k]? = some u := hu
      rw [attends, hu, Option.any_some, decide_eq_false hmem, Bool.false_and]
    have hname : other ≠ name := fun he ↦ hmem (he ▸ hother)
    rw [if_neg (Bool.eq_false_iff.mp hattends), Function.update_of_ne hname]
    exact ⟨hsome, hsame⟩

end Standing

/-- What can be foretold: the fields of each view-model, the identities in its ledger, and each
copy. -/
structure Outlook (ι : Type) where
  fields : ViewModelId → Snapshot
  ledgers : ViewModelId → Ledger Unit
  standing : ι → Standing

namespace Outlook

/-- How things are before anything is executed. -/
def start (copies : ι → Copy C) (st : LiveState C H) : Outlook ι where
  fields := st.snapshot
  ledgers w := (st.world.ledgerOf w).bare
  standing i := .pending (copies i).live

variable [DecidableEq ι] (copies : ι → Copy C)

/-- What an act comes to. -/
def step (A : Outlook ι) : Act ι → Outlook ι
  | .execute i =>
    match (A.standing i).stage with
    | .pending =>
      let vm := (copies i).scope.vm
      let design := (copies i).design (A.fields vm).value
      let ledger := A.ledgers vm
      { A with
        ledgers := Function.update A.ledgers vm
          (ledger.registerAll (design.sketch.holes.map fun _ ↦ ()))
        standing := Function.update A.standing i ⟨.live, design, fun _ ↦ A.fields vm,
          BindingId.issued ledger.next (ledger.next + design.sketch.holes.length)⟩ }
    | _ => A
  | .set vm name value =>
    let fields := Function.update (A.fields vm) name (some value)
    { A with
      fields := Function.update A.fields vm fields
      standing := fun i ↦
        if (copies i).scope.vm = vm then (A.standing i).see name fields else A.standing i }
  | .dispose i =>
    match (A.standing i).stage with
    | .live =>
      let vm := (copies i).scope.vm
      { A with
        ledgers := Function.update A.ledgers vm ((A.ledgers vm).remove (A.standing i).owned)
        standing := Function.update A.standing i (A.standing i).rest }
    | _ => A

/-- What acts come to, one after the other. -/
def run (A : Outlook ι) (acts : List (Act ι)) : Outlook ι := acts.foldl (step copies) A

@[simp] theorem run_nil (A : Outlook ι) : A.run copies [] = A := rfl

@[simp] theorem run_cons (A : Outlook ι) (a : Act ι) (acts : List (Act ι)) :
    A.run copies (a :: acts) = (A.step copies a).run copies acts := rfl

variable {copies} {A B : Outlook ι} {i : ι} {a : Act ι}

theorem step_execute (h : (A.standing i).stage = .pending) : A.step copies (.execute i) =
    { A with
      ledgers := Function.update A.ledgers (copies i).scope.vm
        ((A.ledgers (copies i).scope.vm).registerAll (((copies i).design
          (A.fields (copies i).scope.vm).value).sketch.holes.map fun _ ↦ ()))
      standing := Function.update A.standing i ⟨.live,
        (copies i).design (A.fields (copies i).scope.vm).value,
        fun _ ↦ A.fields (copies i).scope.vm,
        BindingId.issued (A.ledgers (copies i).scope.vm).next
          ((A.ledgers (copies i).scope.vm).next + ((copies i).design
            (A.fields (copies i).scope.vm).value).sketch.holes.length)⟩ } := by
  rw [step, h]

theorem step_dispose (h : (A.standing i).stage = .live) : A.step copies (.dispose i) =
    { A with
      ledgers := Function.update A.ledgers (copies i).scope.vm
        ((A.ledgers (copies i).scope.vm).remove (A.standing i).owned)
      standing := Function.update A.standing i (A.standing i).rest } := by
  rw [step, h]

theorem step_execute_of_ne (h : (A.standing i).stage ≠ .pending) :
    A.step copies (.execute i) = A := by
  rw [step]
  cases hstage : (A.standing i).stage with
  | pending => exact absurd hstage h
  | live => rfl
  | disposed => rfl

theorem step_dispose_of_ne (h : (A.standing i).stage ≠ .live) :
    A.step copies (.dispose i) = A := by
  rw [step]
  cases hstage : (A.standing i).stage with
  | live => exact absurd hstage h
  | pending => rfl
  | disposed => rfl

/-! ### View-models apart -/

/-- Whether two outlooks are the same as far as one view-model is concerned. -/
structure Alike (copies : ι → Copy C) (w : ViewModelId) (A B : Outlook ι) : Prop where
  fields : A.fields w = B.fields w
  ledgers : A.ledgers w = B.ledgers w
  standing : ∀ i, (copies i).scope.vm = w → A.standing i = B.standing i

omit [DecidableEq ι] in
theorem Alike.refl (copies : ι → Copy C) (w : ViewModelId) (A : Outlook ι) : Alike copies w A A :=
  ⟨rfl, rfl, fun _ _ ↦ rfl⟩

/-- An act for another view-model makes no difference. -/
theorem alike_step_of_ne {w : ViewModelId} (h : a.vm copies ≠ w) :
    Alike copies w (A.step copies a) A := by
  cases a with
  | execute i =>
    have h : (copies i).scope.vm ≠ w := h
    by_cases hstage : (A.standing i).stage = .pending
    · rw [step_execute hstage]
      refine ⟨rfl, Function.update_of_ne (Ne.symm h) _ _, fun j hj ↦ Function.update_of_ne ?_ _ _⟩
      rintro rfl
      exact h hj
    · rw [step_execute_of_ne hstage]
      exact .refl copies w A
  | set vm name value =>
    have h : vm ≠ w := h
    refine ⟨Function.update_of_ne (Ne.symm h) _ _, rfl, fun j hj ↦ if_neg fun hc ↦ h ?_⟩
    exact hc.symm.trans hj
  | dispose i =>
    have h : (copies i).scope.vm ≠ w := h
    by_cases hstage : (A.standing i).stage = .live
    · rw [step_dispose hstage]
      refine ⟨rfl, Function.update_of_ne (Ne.symm h) _ _, fun j hj ↦ Function.update_of_ne ?_ _ _⟩
      rintro rfl
      exact h hj
    · rw [step_dispose_of_ne hstage]
      exact .refl copies w A

/-- An act for the view-model comes to the same. -/
theorem Alike.step {w : ViewModelId} (h : Alike copies w A B) (ha : a.vm copies = w) :
    Alike copies w (A.step copies a) (B.step copies a) := by
  have hupdate {i : ι} {s t : Standing} (hst : s = t) (j : ι) (hj : (copies j).scope.vm = w) :
      Function.update A.standing i s j = Function.update B.standing i t j := by
    rw [Function.update_apply, Function.update_apply, hst, h.standing j hj]
  cases a with
  | execute i =>
    have hsame := h.standing i ha
    obtain rfl : (copies i).scope.vm = w := ha
    by_cases hstage : (A.standing i).stage = .pending
    · rw [step_execute hstage, step_execute (hsame ▸ hstage)]
      refine ⟨h.fields, ?_, hupdate ?_⟩
      · simp only [Function.update_self, h.fields, h.ledgers]
      · simp only [h.fields, h.ledgers]
    · rw [step_execute_of_ne hstage, step_execute_of_ne (hsame ▸ hstage)]
      exact h
  | set vm name value =>
    obtain rfl : vm = w := ha
    refine ⟨?_, h.ledgers, fun j hj ↦ ?_⟩
    · simp only [Outlook.step, Function.update_self, h.fields]
    · simp only [Outlook.step, if_pos hj, h.fields, h.standing j hj]
  | dispose i =>
    have hsame := h.standing i ha
    obtain rfl : (copies i).scope.vm = w := ha
    by_cases hstage : (A.standing i).stage = .live
    · rw [step_dispose hstage, step_dispose (hsame ▸ hstage)]
      refine ⟨h.fields, ?_, hupdate ?_⟩
      · simp only [Function.update_self, h.ledgers, hsame]
      · rw [hsame]
    · rw [step_dispose_of_ne hstage, step_dispose_of_ne (hsame ▸ hstage)]
      exact h

omit [DecidableEq ι] in
theorem Alike.trans {w : ViewModelId} {D : Outlook ι} (h : Alike copies w A B)
    (h' : Alike copies w B D) : Alike copies w A D :=
  ⟨h.fields.trans h'.fields, h.ledgers.trans h'.ledgers,
    fun i hi ↦ (h.standing i hi).trans (h'.standing i hi)⟩

/-- **View-models are apart.** As far as one view-model is concerned, acts come to the same as those
among them that are for it. -/
theorem alike_run {w : ViewModelId} (h : Alike copies w A B) (acts : List (Act ι)) :
    Alike copies w (A.run copies acts)
      (B.run copies (acts.filter fun a ↦ decide (a.vm copies = w))) := by
  -- An act for the view-model is taken on both sides, any other one on the left only.
  induction acts generalizing A B with
  | nil => exact h
  | cons a acts ih =>
    by_cases ha : a.vm copies = w
    · rw [List.filter_cons, if_pos (decide_eq_true ha), run_cons, run_cons]
      exact ih (h.step ha)
    · rw [List.filter_cons, if_neg (by simpa using ha), run_cons]
      exact ih ((alike_step_of_ne ha).trans h)

/-! ### Copies that are pending, live, and disposed -/

variable (copies)

/-- A copy that has just been executed is live, and its effects have seen the fields. -/
theorem standing_step_execute (h : (A.standing i).stage = .pending) :
    ∃ owned, (A.step copies (.execute i)).standing i =
        ⟨.live, (copies i).design (A.fields (copies i).scope.vm).value,
          fun _ ↦ A.fields (copies i).scope.vm, owned⟩ ∧
      (A.step copies (.execute i)).fields = A.fields := by
  rw [step_execute h]
  exact ⟨_, Function.update_self .., rfl⟩

/-- Executing another copy, or disposing it, changes nothing of a copy, nor do acts that come too
early or too late. -/
theorem standing_step (hexecute : a = .execute i → (A.standing i).stage ≠ .pending)
    (hdispose : a = .dispose i → (A.standing i).stage ≠ .live) :
    (A.step copies a).standing i = A.standing i ∧ (A.step copies a).fields = A.fields ∨
      ∃ vm name value, a = .set vm name value := by
  cases a with
  | execute j =>
    left
    by_cases hstage : (A.standing j).stage = .pending
    · have hne : i ≠ j := by
        rintro rfl
        exact hexecute rfl hstage
      rw [step_execute hstage]
      exact ⟨Function.update_of_ne hne _ _, rfl⟩
    · rw [step_execute_of_ne hstage]
      exact ⟨rfl, rfl⟩
  | set vm name value => exact .inr ⟨vm, name, value, rfl⟩
  | dispose j =>
    left
    by_cases hstage : (A.standing j).stage = .live
    · have hne : i ≠ j := by
        rintro rfl
        exact hdispose rfl hstage
      rw [step_dispose hstage]
      exact ⟨Function.update_of_ne hne _ _, rfl⟩
    · rw [step_dispose_of_ne hstage]
      exact ⟨rfl, rfl⟩

/-- No act makes a copy pending. -/
theorem stage_step_of_ne (h : (A.standing i).stage ≠ .pending) (a : Act ι) :
    ((A.step copies a).standing i).stage ≠ .pending := by
  by_cases hdispose : a = .dispose i ∧ (A.standing i).stage = .live
  · obtain ⟨rfl, hlive⟩ := hdispose
    rw [step_dispose hlive]
    simp only [Function.update_self]
    exact Stage.noConfusion
  · rcases standing_step copies (a := a) (fun _ ↦ h)
      (fun ha hlive ↦ hdispose ⟨ha, hlive⟩) with ⟨hsame, -⟩ | ⟨vm, name, value, rfl⟩
    · rwa [hsame]
    · simp only [step]
      split
      · exact h
      · exact h

/-- A copy that nothing is executed on, or that was disposed, stays as it is. -/
theorem standing_run_of_still (hholes : (A.standing i).design.sketch.holes = [])
    (hlive : (A.standing i).stage ≠ .live) {acts : List (Act ι)}
    (hacts : (A.standing i).stage = .pending → Act.execute i ∉ acts) :
    (A.run copies acts).standing i = A.standing i := by
  induction acts generalizing A with
  | nil => rfl
  | cons a acts ih =>
    have hstep : (A.step copies a).standing i = A.standing i := by
      rcases standing_step copies (a := a)
        (fun ha hpending ↦ hacts hpending (ha ▸ List.mem_cons_self)) (fun _ ↦ hlive)
        with ⟨hsame, -⟩ | ⟨vm, name, value, rfl⟩
      · exact hsame
      · -- A write is seen by effects only, and there are none.
        simp only [step]
        split
        · exact Standing.see_of_still hholes _ _
        · rfl
    rw [run_cons, ih (hstep ▸ hholes) (hstep ▸ hlive), hstep]
    rw [hstep]
    exact fun hpending hmem ↦ hacts hpending (List.mem_cons_of_mem a hmem)

/-- Once it is disposed, a copy is left as it is for good. -/
theorem standing_run_dispose (h : (A.standing i).stage = .live) (acts : List (Act ι)) :
    (A.run copies (.dispose i :: acts)).standing i = (A.standing i).rest := by
  have hstep : (A.step copies (.dispose i)).standing i = (A.standing i).rest := by
    rw [step_dispose h]
    exact Function.update_self ..
  rw [run_cons, standing_run_of_still, hstep]
  · rw [hstep]
    rfl
  · rw [hstep]
    exact Stage.noConfusion
  · rw [hstep]
    exact Stage.noConfusion

/-- What an act does to a copy that is live, unless it disposes it, is that it sees a field that was
written. -/
theorem current_step (h : (A.standing i).stage = .live) (ha : a ≠ .dispose i) :
    ((A.step copies a).standing i).stage = .live ∧
      ((A.step copies a).standing i).design = (A.standing i).design ∧
      ((A.standing i).Current (A.fields (copies i).scope.vm) →
        ((A.step copies a).standing i).Current
          ((A.step copies a).fields (copies i).scope.vm)) := by
  rcases standing_step copies (fun _ hpending ↦ Stage.noConfusion (h.symm.trans hpending))
    (fun he ↦ absurd he ha) with ⟨hsame, hfields⟩ | ⟨vm, name, value, rfl⟩
  · rw [hsame, hfields]
    exact ⟨h, rfl, id⟩
  · simp only [step]
    by_cases hvm : (copies i).scope.vm = vm
    · subst hvm
      rw [if_pos rfl, Function.update_self]
      exact ⟨h, rfl, fun hcurrent ↦ hcurrent.see name value⟩
    · rw [if_neg hvm, Function.update_of_ne hvm]
      exact ⟨h, rfl, id⟩

/-- A copy that is live is live until it is disposed, and has seen the fields as they are, if it had
before. -/
theorem current_run (h : (A.standing i).stage = .live) {acts : List (Act ι)}
    (hacts : Act.dispose i ∉ acts) :
    ((A.run copies acts).standing i).stage = .live ∧
      ((A.run copies acts).standing i).design = (A.standing i).design ∧
      ((A.standing i).Current (A.fields (copies i).scope.vm) →
        ((A.run copies acts).standing i).Current
          ((A.run copies acts).fields (copies i).scope.vm)) := by
  induction acts generalizing A with
  | nil => exact ⟨h, rfl, id⟩
  | cons a acts ih =>
    rw [List.mem_cons, not_or] at hacts
    obtain ⟨hlive, hdesign, hseen⟩ := current_step copies h (Ne.symm hacts.1)
    obtain ⟨hlive, hdesign', hseen'⟩ := ih hlive hacts.2
    exact ⟨hlive, hdesign'.trans hdesign, fun hcurrent ↦ hseen' (hseen hcurrent)⟩

end Outlook

end LiveMarkup
