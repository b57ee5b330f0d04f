import LiveMarkup.Proofs.Live.Exhibit
import LiveMarkup.Proofs.Reactive.Fuel

/-!
# Many copies side by side

What is foretold of many copies of templates comes true. `Exhibits` says of a state that all copies
stand as an outlook says, that no two have a node in common, and that the fields and the ledgers are
as foretold. Every act keeps this up (`Exhibits.carry`), and so do acts one after the other
(`Exhibits.carryAll`).

An act that is for one copy leaves the others alone for three reasons: no effect of the one works on
nodes of another, an effect subscribes to nothing but the fields it mentions, and stopping the
effects of one drops no other.
-/

namespace LiveMarkup

variable {C H ι : Type}

namespace Client

variable {α β : Type} {client : Client C H}

/-- Whether code ends with an answer in a state, if it is given enough fuel. -/
def Leads (client : Client C H) (p : Live C H α) (st : LiveState C H) (a : α)
    (st' : LiveState C H) : Prop :=
  ∃ bound, ∀ fuel, bound < fuel → client.run fuel p st = some (a, st')

namespace Leads

variable {p : Live C H α} {st st₁ st₂ : LiveState C H} {a a' : α} {b : β}

theorem of_run {fuel : Nat} (h : client.run fuel p st = some (a, st₁)) :
    client.Leads p st a st₁ :=
  ⟨fuel, fun _ hfuel ↦ client.meaning.run_mono (Nat.le_of_lt hfuel) h⟩

theorem done (a : α) (st : LiveState C H) : client.Leads (pure a) st a st := ⟨0, fun _ _ ↦ rfl⟩

theorem bind {f : α → Live C H β} (h : client.Leads p st a st₁)
    (h' : client.Leads (f a) st₁ b st₂) : client.Leads (p >>= f) st b st₂ := by
  obtain ⟨bound, hp⟩ := h
  obtain ⟨bound', hf⟩ := h'
  refine ⟨max bound bound', fun fuel hfuel ↦ ?_⟩
  obtain ⟨hbound, hbound'⟩ := Nat.max_lt.mp hfuel
  exact Runner.Yields.bind (hp fuel hbound) (hf fuel hbound')

theorem map (f : α → β) (h : client.Leads p st a st₁) : client.Leads (f <$> p) st (f a) st₁ :=
  h.bind (.done (f a) st₁)

/-- Code ends in one way only. -/
theorem unique (h : client.Leads p st a st₁) (h' : client.Leads p st a' st₂) :
    a = a' ∧ st₁ = st₂ := by
  obtain ⟨bound, hp⟩ := h
  obtain ⟨bound', hp'⟩ := h'
  have hfuel := Nat.max_lt.mp (Nat.lt_succ_self (max bound bound'))
  exact Prod.mk.inj (Option.some.inj ((hp _ hfuel.1).symm.trans (hp' _ hfuel.2)))

end Leads

end Client

/-! ## The steps -/

/-- Whether a state has copies as an outlook says, with pictures of them, what their effects have
seen, and how far their executions are. -/
structure Exhibits (copies : ι → Copy C) (known : List ViewModelId) (P : ι → Picture)
    (seen : ι → EffectId → Snapshot) (held : ι → Progress C) (A : Outlook ι) (st : LiveState C H) :
    Prop where
  sound : ∀ i, (copies i).Sound
  mem : ∀ i, (copies i).scope.vm ∈ known
  stands : ∀ i, (copies i).Stands known (P i) (seen i) (A.standing i) (held i) st
  apart : ∀ i j, i ≠ j → List.Disjoint (P i).labels (P j).labels
  regular : st.Regular known
  idle : st.graph.Idle
  fields : ∀ w ∈ known, st.snapshot w = A.fields w
  ledgers : ∀ w ∈ known, (st.world.ledgerOf w).bare = A.ledgers w

namespace Exhibits

variable {copies : ι → Copy C} {known : List ViewModelId} {P : ι → Picture}
  {seen : ι → EffectId → Snapshot} {held : ι → Progress C} {A : Outlook ι} {st st' : LiveState C H}
  {i j : ι}

/-- Effects of different copies are different. -/
theorem not_mem_holes (h : Exhibits copies known P seen held A st) (hij : i ≠ j) :
    ∀ x ∈ (P i).holes, x.1 ∉ (P j).holes.map Prod.fst := by
  intro x hx hmem
  obtain ⟨y, hy, hyx⟩ := List.mem_map.mp hmem
  have hbody := ((h.stands j).keeps.hole y hy).2.2
  rw [hyx, ((h.stands i).keeps.hole x hx).2.2] at hbody
  have hsame : x.2 = y.2 := Upkeep.routine_injective (Option.some.inj hbody)
  refine h.apart i j hij ((h.stands i).fits.sound.node_mem hx) ?_
  exact hsame ▸ (h.stands j).fits.sound.node_mem hy

variable [DecidableEq ι]

/-- Copies are apart once one is drawn anew, if that one is apart from the others. -/
theorem apart_update (h : Exhibits copies known P seen held A st) {Q : Picture}
    (hQ : ∀ j, j ≠ i → List.Disjoint (P j).labels Q.labels) (j k : ι) (hjk : j ≠ k) :
    List.Disjoint (Function.update P i Q j).labels (Function.update P i Q k).labels := by
  by_cases hj : j = i
  · subst hj
    rw [Function.update_self, Function.update_of_ne hjk.symm]
    exact (hQ k hjk.symm).symm
  · by_cases hk : k = i
    · subst hk
      rw [Function.update_self, Function.update_of_ne hj]
      exact hQ j hj
    · rw [Function.update_of_ne hj, Function.update_of_ne hk]
      exact h.apart j k hjk

variable (client : Client C H)

/-- Writing a field. -/
theorem set [Nonempty ι] (h : Exhibits copies known P seen held A st) {w : ViewModelId}
    (hw : w ∈ known) (name : String) (value : Value) :
    ∃ st' seen', client.Leads (w.set name value) st () st' ∧
      Exhibits copies known P seen' held (A.step copies (.set w name value)) st' := by
  obtain ⟨st', bound, hset, hkeeps, hworks, hqueue⟩ := State.Keeps.set client
    (fun i ↦ (h.stands i).fillable) (fun i ↦ (h.stands i).keeps) h.idle.queue h.idle.flushing hw
    name value
  have hregular := h.regular.written hw name value
  -- Every copy stands, whether or not it is one for the view-model.
  have hstands (i : ι) :=
    (h.stands i).set h.regular h.idle (h.mem i) hw name value (hkeeps i) hworks
  rw [h.fields w hw] at hstands
  refine ⟨st', _, .of_run (hset bound (bound + 1) (Nat.le_succ bound)), ⟨h.sound, h.mem, hstands,
    h.apart, hregular.of_reworks hworks, ?_, fun w' hw' ↦ ?_, fun w' hw' ↦ ?_⟩⟩
  · obtain ⟨i⟩ := ‹Nonempty ι›
    exact hworks.idle h.idle (hkeeps i).flagged hqueue
  · rw [hworks.snapshot, h.regular.snapshot_written hw hw', Outlook.step]
    dsimp only
    rw [Function.update_apply, h.fields w hw, h.fields w' hw']
  · have hledger : st'.world.ledgerOf w' = (st.written w name value).world.ledgerOf w' := by
      rw [hworks.world]
      rfl
    rw [hledger, State.Regular.ledgerOf_written]
    exact h.ledgers w' hw'

/-- Executing a copy. -/
theorem execute (h : Exhibits copies known P seen held A st) (hheld : held i = .pending) :
    ∃ st' Q d, client.Leads (copies i).execute st (.ok d) st' ∧
      Exhibits copies known (Function.update P i Q)
        (Function.update seen i fun _ ↦ A.fields (copies i).scope.vm)
        (Function.update held i (.live d)) (A.step copies (.execute i)) st' ∧
      (((copies i).live.kind = .text → (copies i).above ≠ none) →
        (copies i).Succeeds st.world.nodes st'.world.nodes Q.roots) := by
  have hi := h.stands i
  rw [hheld] at hi
  obtain ⟨hstage, hP, hst⟩ := hi.shows_live
  obtain ⟨st', X, Q, hlinks, hdrawn⟩ := hi.exists_drawn client 0 1 (h.sound i)
  have hdraws := hdrawn.draws
  refine ⟨st', Q, _, .of_run (Runner.Yields.execute hlinks), ?_, hdrawn.succeeds⟩
  rw [Outlook.step_execute hstage]
  refine ⟨h.sound, h.mem, fun j ↦ ?_, h.apart_update fun j hj ↦
      (h.stands j).disjoint_drawn hi hdrawn (h.apart j i hj),
    h.regular.of_installs (h.mem i) hdraws.installs h.idle.current, hdraws.idle h.idle,
    fun w hw ↦ (hdraws.snapshot w).trans (h.fields w hw), fun w hw ↦ ?_⟩
  · -- The copy itself has just been executed, and the others are left alone.
    by_cases hj : j = i
    · subst hj
      have hstands := hi.executed (h.sound j) h.regular h.idle (h.mem j) hdrawn
      simp only [Function.update_self]
      rwa [h.fields _ (h.mem j), ← Ledger.next_bare, h.ledgers _ (h.mem j)] at hstands
    · simp only [Function.update_of_ne hj]
      exact (h.stands j).of_drawn hi h.idle hdrawn (h.apart j i hj)
  · dsimp only
    rw [h.regular.ledgerOf_of_installs (h.mem i) hw hdraws.installs, Function.update_apply]
    split
    · -- The ledger gains an entry for each hole, as was foretold of the design.
      have hfollows := hdrawn.fits.follows
      rw [h.fields _ (h.mem i)] at hfollows
      rw [Ledger.bare_registerAll, h.ledgers _ (h.mem i), ← hfollows.holes, effectBindings,
        List.map_map, List.map_map]
      rfl
    · exact h.ledgers w hw

/-- Disposing what was executed on a copy. -/
theorem dispose (h : Exhibits copies known P seen held A st) {d : Disposer C}
    (hheld : held i = .live d) :
    ∃ st' Q, client.Leads d.dispose st () st' ∧
      Exhibits copies known (Function.update P i Q) seen (Function.update held i .disposed)
        (A.step copies (.dispose i)) st' ∧
      Q.roots = (P i).roots := by
  have hi := h.stands i
  rw [hheld] at hi
  -- What is disposed are the effects of the picture.
  obtain ⟨hstage, hvm, hids, howned⟩ := hi.progresses
  have howned : d.owned.map Prod.snd =
      ((P i).holes.map Prod.fst).map Binding.effect := by
    rw [howned, effectBindings, List.map_map]
    rfl
  obtain ⟨Q, hstands, hlabels, hroots⟩ := hi.disposed_own d.vm d.ids
  have hrun : client.run 1 d.dispose st =
      some ((), st.disposed d.vm ((P i).holes.map Prod.fst) d.ids) :=
    Runner.Yields.dispose howned st
  refine ⟨_, Q, .of_run hrun, ?_, hroots⟩
  rw [Outlook.step_dispose hstage]
  refine ⟨h.sound, h.mem, fun j ↦ ?_, h.apart_update fun j hj ↦ hlabels ▸ h.apart j i hj,
    h.regular.disposed (hvm ▸ h.mem i) _ _, h.idle.stopAll _,
    fun w hw ↦ (State.snapshot_disposed ..).trans (h.fields w hw), fun w hw ↦ ?_⟩
  · by_cases hj : j = i
    · subst hj
      simp only [Function.update_self]
      exact hstands
    · simp only [Function.update_of_ne hj]
      exact (h.stands j).disposed_other d.vm (h.not_mem_holes hj) d.ids
  · dsimp only
    rw [h.regular.ledgerOf_disposed (hvm ▸ h.mem i) hw, hvm, hids, Function.update_apply]
    split
    · rw [Ledger.bare_remove, h.ledgers _ (h.mem i)]
    · exact h.ledgers w hw

/-! ## Runs -/

omit [DecidableEq ι] in
/-- Copies that are shown apart from each other, before anything is executed. -/
theorem start (h : ∀ i, (copies i).Awaits known st)
    (hapart : ∀ i j, i ≠ j → List.Disjoint (copies i).live.labels (copies j).live.labels)
    (hregular : st.Regular known) (hidle : st.graph.Idle) :
    Exhibits copies known (fun i ↦ .still [(copies i).live]) (fun _ _ _ ↦ none)
      (fun _ ↦ .pending) (Outlook.start copies st) st where
  sound i := (h i).sound
  mem i := (h i).mem
  stands i := (h i).stands hidle _
  apart i j hij := by
    have hlabels (i : ι) : (Picture.still [(copies i).live]).labels = (copies i).live.labels :=
      Tree.labelsAll_singleton _
    rw [hlabels, hlabels]
    exact hapart i j hij
  regular := hregular
  idle := hidle
  fields _ _ := rfl
  ledgers _ _ := rfl

omit [DecidableEq ι] in
/-- How far an execution is can be foretold. -/
theorem stage_eq (h : Exhibits copies known P seen held A st) (i : ι) :
    (A.standing i).stage = (held i).stage := by
  have hprogresses := (h.stands i).progresses
  cases hheld : held i with
  | pending =>
    rw [hheld] at hprogresses
    exact hprogresses.1
  | live d =>
    rw [hheld] at hprogresses
    exact hprogresses.1
  | disposed =>
    rw [hheld] at hprogresses
    exact hprogresses

/-- **An act comes to what is foretold.** The nodes that stand where a copy stood change only with
its execution. -/
theorem carry [Nonempty ι] (h : Exhibits copies known P seen held A st) {a : Act ι}
    (ha : a.vm copies ∈ known) :
    ∃ st' P' seen' held', client.Leads (a.carry copies held) st held' st' ∧
      Exhibits copies known P' seen' held' (A.step copies a) st' ∧
      ∀ i, (A.standing i).stage ≠ .pending → (P' i).roots = (P i).roots := by
  -- What comes too early or too late does nothing.
  have hidle (hcarry : a.carry copies held = (pure held : Live C H _))
      (hstep : A.step copies a = A) : ∃ st' P' seen' held', client.Leads (a.carry copies held) st held' st' ∧
        Exhibits copies known P' seen' held' (A.step copies a) st' ∧
        ∀ i, (A.standing i).stage ≠ .pending → (P' i).roots = (P i).roots := by
    rw [hcarry, hstep]
    exact ⟨st, P, seen, held, .done held st, h, fun _ _ ↦ rfl⟩
  cases a with
  | execute i =>
    have hstage := h.stage_eq i
    cases hheld : held i with
    | pending =>
      rw [hheld] at hstage
      obtain ⟨st', Q, d, hleads, hexhibits, -⟩ := h.execute client hheld
      refine ⟨st', _, _, _, ?_, hexhibits, fun j hj ↦ ?_⟩
      · rw [Act.carry, hheld]
        exact hleads.bind (.done _ _)
      · have hne : j ≠ i := by
          rintro rfl
          exact hj hstage
        rw [Function.update_of_ne hne]
    | live _ | disposed =>
      rw [hheld] at hstage
      refine hidle (by rw [Act.carry, hheld]) (Outlook.step_execute_of_ne ?_)
      exact hstage ▸ Stage.noConfusion
  | set vm name value =>
    obtain ⟨st', seen', hleads, hexhibits⟩ := h.set client ha name value
    exact ⟨st', P, seen', held, hleads.bind (.done _ _), hexhibits, fun _ _ ↦ rfl⟩
  | dispose i =>
    have hstage := h.stage_eq i
    cases hheld : held i with
    | live d =>
      obtain ⟨st', Q, hleads, hexhibits, hroots⟩ := h.dispose client hheld
      refine ⟨st', _, _, _, ?_, hexhibits, fun j _ ↦ ?_⟩
      · rw [Act.carry, hheld]
        exact hleads.bind (.done _ _)
      · by_cases hj : j = i
        · rw [hj, Function.update_self, hroots]
        · rw [Function.update_of_ne hj]
    | pending | disposed =>
      rw [hheld] at hstage
      refine hidle (by rw [Act.carry, hheld]) (Outlook.step_dispose_of_ne ?_)
      exact hstage ▸ Stage.noConfusion

/-- **Acts come to what is foretold.** -/
theorem carryAll [Nonempty ι] (h : Exhibits copies known P seen held A st) {acts : List (Act ι)}
    (hacts : ∀ a ∈ acts, a.vm copies ∈ known) :
    ∃ st' P' seen' held', client.Leads (Act.carryAll copies acts held) st held' st' ∧
      Exhibits copies known P' seen' held' (A.run copies acts) st' ∧
      ∀ i, (A.standing i).stage ≠ .pending → (P' i).roots = (P i).roots := by
  induction acts generalizing P seen held A st with
  | nil => exact ⟨st, P, seen, held, .done held st, h, fun _ _ ↦ rfl⟩
  | cons a acts ih =>
    obtain ⟨ha, hrest⟩ := List.forall_mem_cons.mp hacts
    obtain ⟨st₁, P₁, seen₁, held₁, hleads, h₁, hroots⟩ := h.carry client ha
    obtain ⟨st', P', seen', held', hleads', h', hroots'⟩ := ih h₁ hrest
    refine ⟨st', P', seen', held', hleads.bind hleads', h', fun i hi ↦ ?_⟩
    exact (hroots' i (Outlook.stage_step_of_ne copies hi a)).trans (hroots i hi)

end Exhibits

end LiveMarkup
