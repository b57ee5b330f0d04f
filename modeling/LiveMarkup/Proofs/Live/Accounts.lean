import LiveMarkup.Proofs.Live.Entering

/-!
# Accounting for bindings

While disciplined code runs, the ledger of a view-model only gains: what stood in it stays, new
entries stand behind it, and every identity that was handed out meanwhile either has its entry there
or was disposed, once (`Tallies`). The induction is on fuel (`Practice.Abides.upholds`): if this
holds across all bodies and calls that run on less, then it holds across the code of a program, and
an execution knows what it has installed, because the entries since its mark are the new ones
(`run_execute`). It holds across code that executes, too, since the disposers which such code holds
are for new entries, no two of them for the same (`run_carry`).
-/

namespace LiveMarkup

variable {C H α : Type}

/-- What became of the ledger of a view-model, and of the minutes beside the world: the entries that
are new, and the identities that were handed out but were disposed. -/
structure Tallies (client : Client C H) (vm : ViewModelId) (x y : World C H × Minutes)
    (l l' : Ledger (Binding C)) (new : List (BindingId × Binding C)) (gone : List BindingId) :
    Prop where
  continues : x.1.Continues y.1
  before : x.1.ledger? vm = some l
  after : y.1.ledger? vm = some l'
  gains : l.Gains l' new gone
  minutes : y.2 = x.2 ++ gone
  gentle : ∀ e ∈ new, e.2.Gentle client vm y.1

/-- Whether every identity that was handed out can be accounted for. -/
def Accounts (client : Client C H) (vm : ViewModelId) (x y : World C H × Minutes) : Prop :=
  x.1.Hosts vm → ∃ l l' new gone, Tallies client vm x y l l' new gone

/-- What code may do to a world that enters gentle bindings for a view-model. -/
def World.Enters (client : Client C H) (vm : ViewModelId) (w w' : World C H) : Prop :=
  w.Spares vm w' ∨ ∃ b, Binding.Gentle client vm w b ∧ w' = w.register vm b

variable {client : Client C H} {vm : ViewModelId} {x y z : World C H × Minutes}
  {l l' l'' : Ledger (Binding C)} {new new' : List (BindingId × Binding C)}
  {gone gone' : List BindingId}

namespace Tallies

theorem of_spares {w w' : World C H} (h : w.Spares vm w') (hl : w.ledger? vm = some l)
    (m : Minutes) : Tallies client vm (w, m) (w', m) l l [] [] where
  continues := h.continues
  before := hl
  after := h.ledger?.trans hl
  gains := .refl l
  minutes := (List.append_nil m).symm
  gentle _ he := absurd he List.not_mem_nil

theorem of_register {w : World C H} {b : Binding C} (hb : b.Gentle client vm w)
    (hl : w.ledger? vm = some l) (m : Minutes) :
    Tallies client vm (w, m) (w.register vm b, m) l (l.register b).2 [(l.watermark, b)] [] where
  continues := w.continues_register vm b
  before := hl
  after := World.ledger?_modifyLedger_self hl _
  gains := .register l b
  minutes := (List.append_nil m).symm
  gentle e he := by
    obtain rfl := List.mem_singleton.mp he
    exact hb.of_continues (w.continues_register vm b)

theorem trans (h : Tallies client vm x y l l' new gone)
    (h' : Tallies client vm y z l' l'' new' gone') :
    Tallies client vm x z l l'' (new ++ new') (gone ++ gone') where
  continues := h.continues.trans h'.continues
  before := h.before
  after := h'.after
  gains := h.gains.trans h'.gains
  minutes := by rw [h'.minutes, h.minutes, List.append_assoc]
  gentle e he := by
    rcases List.mem_append.mp he with he | he
    · exact (h.gentle e he).of_continues h'.continues
    · exact h'.gentle e he

/-- Whoever leaves the ledger alone has disposed nothing. -/
theorem minutes_of_spares (h : Tallies client vm x y l l' new gone)
    (hspares : x.1.Spares vm y.1) : y.2 = x.2 := by
  have hledger : l' = l := by
    have hafter := h.after
    rw [hspares.ledger?, h.before] at hafter
    exact (Option.some.inj hafter).symm
  have hissued := h.gains.issued
  rw [hledger, BindingId.issued_self, List.perm_nil] at hissued
  obtain ⟨rfl, -⟩ := List.append_eq_nil_iff.mp hissued
  rw [h.minutes, List.append_nil]

/-- Bindings that were new are disposed, and their entries removed. -/
theorem remove (h : Tallies client vm x y l l' new gone) (hl : l.Sound)
    {part : List (BindingId × Binding C)} (hpart : part.Sublist new) (hz : y.1.Continues z.1)
    (hledger : z.1.ledger? vm = some (l'.remove (part.map Prod.fst)))
    (hminutes : z.2 = y.2 ++ part.map Prod.fst) :
    Tallies client vm x z l (l'.remove (part.map Prod.fst))
      (new.filter fun e ↦ !(part.map Prod.fst).contains e.1) (gone ++ part.map Prod.fst) where
  continues := h.continues.trans hz
  before := h.before
  after := hledger
  gains := h.gains.remove hl hpart
  minutes := by rw [hminutes, h.minutes, List.append_assoc]
  gentle e he := (h.gentle e (List.mem_of_mem_filter he)).of_continues hz

end Tallies

namespace Accounts

theorem refl (x : World C H × Minutes) : Accounts client vm x x := by
  intro hx
  obtain ⟨l, hl, -⟩ := hx.ledger
  exact ⟨l, l, [], [], .of_spares (.refl vm x.1) hl x.2⟩

theorem continues (h : Accounts client vm x y) (hx : x.1.Hosts vm) : x.1.Continues y.1 := by
  obtain ⟨l, l', new, gone, htally⟩ := h hx
  exact htally.continues

/-- The account begins with the ledger that there is. -/
theorem tally (h : Accounts client vm x y) (hx : x.1.Hosts vm) (hl : x.1.ledger? vm = some l) :
    ∃ l' new gone, Tallies client vm x y l l' new gone := by
  obtain ⟨l₀, l', new, gone, htally⟩ := h hx
  obtain rfl : l₀ = l := Option.some.inj (htally.before.symm.trans hl)
  exact ⟨l', new, gone, htally⟩

theorem trans (h : Accounts client vm x y) (h' : Accounts client vm y z) :
    Accounts client vm x z := by
  intro hx
  obtain ⟨l, l', new, gone, htally⟩ := h hx
  obtain ⟨l'', new', gone', htally'⟩ :=
    h'.tally (hx.of_continues htally.continues) htally.after
  exact ⟨l, l'', new ++ new', gone ++ gone', htally.trans htally'⟩

/-- Entering gentle bindings can be accounted for. -/
theorem of_enters {w w' : World C H} (h : w.Enters client vm w') (m : Minutes) :
    Accounts client vm (w, m) (w', m) := by
  intro hw
  obtain ⟨l, hl, -⟩ := hw.ledger
  rcases h with h | ⟨b, hb, rfl⟩
  · exact ⟨l, l, [], [], .of_spares h hl m⟩
  · exact ⟨l, _, _, [], .of_register hb hl m⟩

/-- The rules for disciplined code, whether it enters bindings or not, allow only what can be
accounted for. -/
theorem within {own : World C H → World C H → Prop}
    (hown : ∀ w w', own w w' → w.Enters client vm w') :
    (Rules.around client vm own).Within (Accounts client vm) where
  refl := refl
  trans _ _ _ := trans
  own w w' m h := of_enters (hown w w' h) m
  bodies _ _ h := h.continues

end Accounts

/-! ## Disposers that are held -/

/-- Whether disposers are for the entries of a view-model that are new, no two of them for the same
entry. -/
structure Disposer.AllHold (vm : ViewModelId) (new : List (BindingId × Binding C))
    (ds : List (Disposer C)) : Prop where
  vm : ∀ d ∈ ds, d.vm = vm
  owned : ∀ d ∈ ds, d.owned.Sublist new
  apart : ds.Pairwise fun d d' ↦ d.ids.Disjoint d'.ids

namespace Disposer.AllHold

variable {ds : List (Disposer C)}

theorem nil (vm : ViewModelId) (new : List (BindingId × Binding C)) : AllHold vm new [] :=
  ⟨fun _ h ↦ absurd h List.not_mem_nil, fun _ h ↦ absurd h List.not_mem_nil, .nil⟩

theorem append (h : AllHold vm new ds) (new' : List (BindingId × Binding C)) :
    AllHold vm (new ++ new') ds :=
  ⟨h.vm, fun d hd ↦ (h.owned d hd).trans (List.sublist_append_left _ _), h.apart⟩

/-- One more disposer is held, for entries that came after all others. -/
theorem hold (h : AllHold vm new ds) (hnodup : ((new ++ new').map Prod.fst).Nodup) :
    AllHold vm (new ++ new') (ds ++ [⟨vm, new'⟩]) where
  vm d hd := by
    rcases List.mem_append.mp hd with hd | hd
    · exact h.vm d hd
    · rw [List.mem_singleton.mp hd]
  owned d hd := by
    rcases List.mem_append.mp hd with hd | hd
    · exact (h.append new').owned d hd
    · rw [List.mem_singleton.mp hd]
      exact List.sublist_append_right _ _
  apart := by
    rw [List.map_append] at hnodup
    have hdisjoint := List.disjoint_of_nodup_append hnodup
    refine List.pairwise_append.mpr ⟨h.apart, List.pairwise_singleton _ _, fun d hd d' hd' ↦ ?_⟩
    rw [List.mem_singleton.mp hd']
    exact List.disjoint_of_subset_left ((h.owned d hd).map Prod.fst).subset hdisjoint

/-- One of the disposers is consumed, and the others hold what they held. -/
theorem consume (h : AllHold vm new ds) {i : Nat} {d : Disposer C} (hd : ds[i]? = some d) :
    AllHold vm (new.filter fun e ↦ !(d.owned.map Prod.fst).contains e.1) (ds.eraseIdx i) where
  vm d' hd' := h.vm d' (List.mem_of_mem_eraseIdx hd')
  owned d' hd' := by
    obtain ⟨hi, rfl⟩ := List.getElem?_eq_some_iff.mp hd
    -- Which one is consumed does not matter, so it may be the first.
    have hapart := h.apart.perm (List.getElem_cons_eraseIdx_perm hi).symm
      fun hdisjoint ↦ List.disjoint_comm.mp hdisjoint
    have hdisjoint := (List.pairwise_cons.mp hapart).1 d' hd'
    have hothers : ∀ e ∈ d'.owned, e.1 ∉ ds[i].owned.map Prod.fst := fun e he hmem ↦
      hdisjoint hmem (List.mem_map_of_mem he)
    have hsub := (h.owned d' (List.mem_of_mem_eraseIdx hd')).filter
      fun e ↦ !(ds[i].owned.map Prod.fst).contains e.1
    rwa [Ledger.filter_not_contains_eq hothers] at hsub
  apart := h.apart.sublist (List.eraseIdx_sublist ..)

end Disposer.AllHold

/-! ## Disposing -/

theorem Binding.keeps_dispose {vm' : ViewModelId} {own : World C H → World C H → Prop}
    (b : Binding C) : Live.Keeps client vm vm' own b.dispose := by
  cases b with
  | effect e => exact .stop e
  | client code => exact .perform code

section Runs

variable {π : Practice C H} {fuel : Nat} {st st' : State Value (Routine C) (World C H × Minutes)}
  (hup : ((π.minuted vm).runner fuel).Upholds
    (.around (π.client vm) vm (World.Enters (π.client vm) vm)) (Accounts (π.client vm) vm))

include hup

/-- Code that leaves the ledger alone can be accounted for as well. -/
theorem Runner.Upholds.sparing : ((π.minuted vm).runner fuel).Upholds
    (.around (π.client vm) vm (World.Spares vm)) (Accounts (π.client vm) vm) := ⟨hup.body, hup.call⟩

/-- A gentle binding is disposed, and neither the ledger nor the minutes show it. -/
theorem run_dispose_gentle {b : Binding C}
    (hrun : (π.minuted vm).run fuel (Minuted.live b.dispose) st = some ((), st'))
    (hst : st.world.1.Hosts vm) (hb : b.Gentle (π.client vm) vm st.world.1) :
    st.world.1.Spares vm st'.world.1 ∧ st'.world.2 = st.world.2 := by
  have hplain := ((π.mirrors_runner vm fuel).beside fuel b.dispose st).symm.trans
    (congrArg (Option.map (Prod.map id State.bare)) hrun)
  have hspares : st.world.1.Spares vm st'.world.1 := hb fuel _ _ (.refl _) hplain
  have hkeeps : Script.Obeys (.around (π.client vm) vm (World.Spares vm)) (fun _ _ ↦ True)
      b.dispose st.world.1 := b.keeps_dispose _ _ (.self hst) fun _ _ _ ↦ trivial
  obtain ⟨haccounts, -⟩ := hup.sparing.run (Accounts.within fun _ _ h ↦ .inl h) hrun hkeeps
  obtain ⟨l, l', new, gone, htally⟩ := haccounts hst
  exact ⟨hspares, htally.minutes_of_spares hspares⟩

/-- Bindings are disposed one after the other, each when it has been noted. -/
theorem run_disposeAll {owned : List (BindingId × Binding C)}
    (hrun : (π.minuted vm).run fuel (Minuted.disposeAll owned) st = some ((), st'))
    (hst : st.world.1.Hosts vm)
    (howned : ∀ e ∈ owned, e.2.Gentle (π.client vm) vm st.world.1) :
    st.world.1.Spares vm st'.world.1 ∧ st'.world.2 = st.world.2 ++ owned.map Prod.fst := by
  induction owned generalizing st with
  | nil =>
    obtain ⟨-, rfl⟩ := Prod.mk.inj (Option.some.inj hrun)
    exact ⟨.refl vm _, (List.append_nil _).symm⟩
  | cons e rest ih =>
    obtain ⟨he, hrest⟩ := List.forall_mem_cons.mp howned
    have hnoted : (π.minuted vm).run fuel
        (Minuted.live e.2.dispose >>= fun _ ↦ Minuted.disposeAll rest)
        (st.bare.beside (st.world.2 ++ [e.1])) = some ((), st') := hrun
    obtain ⟨⟨⟩, st₁, hdispose, hrest'⟩ := Meaning.exists_of_run_bind hnoted
    obtain ⟨hspares, hminutes⟩ := run_dispose_gentle hup hdispose hst he
    obtain ⟨hspares', hminutes'⟩ := ih hrest' (hst.of_continues hspares.continues)
      fun x hx ↦ (hrest x hx).of_continues hspares.continues
    refine ⟨hspares.trans hspares', ?_⟩
    rw [hminutes', hminutes, State.world_beside, List.append_assoc, List.map_cons,
      List.singleton_append]

/-- A disposer is consumed: its bindings are disposed in order, and their entries go. -/
theorem run_dispose {d : Disposer C} (hd : d.vm = vm)
    (hrun : (π.minuted vm).run fuel (Minuted.dispose d) st = some ((), st'))
    (hst : st.world.1.Hosts vm) (hl : st.world.1.ledger? vm = some l)
    (howned : ∀ e ∈ d.owned, e.2.Gentle (π.client vm) vm st.world.1) :
    st.world.1.Continues st'.world.1 ∧ st'.world.1.ledger? vm = some (l.remove d.ids) ∧
      st'.world.2 = st.world.2 ++ d.ids := by
  subst hd
  obtain ⟨⟨⟩, st₁, hholding, hremove⟩ := Meaning.exists_of_run_bind hrun
  obtain ⟨⟨⟩, st₂, hpush, hheld⟩ := Meaning.exists_of_run_bind hholding
  obtain ⟨⟨⟩, st₃, hall, hpop⟩ := Meaning.exists_of_run_bind hheld
  have hspares₂ : st.world.1.Spares d.vm st₂.world.1 := by
    obtain ⟨-, rfl⟩ := Prod.mk.inj (Option.some.inj hpush)
    exact .of_eq d.vm rfl rfl
  obtain ⟨hspares₃, hminutes₃⟩ := run_disposeAll hup hall (hst.of_continues hspares₂.continues)
    fun e he ↦ (howned e he).of_continues hspares₂.continues
  have hspares₁ : st₃.world.1.Spares d.vm st₁.world.1 := by
    obtain ⟨-, rfl⟩ := Prod.mk.inj (Option.some.inj hpop)
    exact .of_eq d.vm rfl rfl
  have hspares := (hspares₂.trans hspares₃).trans hspares₁
  have hminutes₂ : st₂.world.2 = st.world.2 := by
    obtain ⟨-, rfl⟩ := Prod.mk.inj (Option.some.inj hpush)
    rfl
  have hminutes₁ : st₁.world.2 = st₃.world.2 := by
    obtain ⟨-, rfl⟩ := Prod.mk.inj (Option.some.inj hpop)
    rfl
  obtain ⟨-, rfl⟩ := Prod.mk.inj (Option.some.inj hremove)
  refine ⟨hspares.continues.trans (.modifyLedger _ _ fun l hl ↦ hl.remove _), ?_, ?_⟩
  · exact World.ledger?_modifyLedger_self (hspares.ledger?.trans hl) _
  · exact hminutes₁.trans (hminutes₃.trans (hminutes₂ ▸ rfl))

/-! ## Executing -/

omit hup in
theorem Program.keeps_linkIfAny {scope : Scope} (target : Target) (program : Option (Program C)) :
    Live.Keeps client scope.vm scope.vm (World.Enters client scope.vm)
      (Program.linkIfAny scope target program) := by
  cases program with
  | none => exact .done _
  | some p =>
    have hown (w w' : World C H) (h : w.Spares scope.vm w') : w.Enters client scope.vm w' := .inl h
    exact Program.keeps_link hown (fun w b _ hb ↦ .inr ⟨b, hb, rfl⟩) target p

/-- An execution ends when its program has: either it answers what is new in the ledger, or it
disposes that, and nothing is new. -/
theorem run_execute {program : Option (Program C)} {scope : Scope} {target : Target}
    {result : Except LinkError (Disposer C)} (hscope : scope.vm = vm)
    (hrun : (π.minuted vm).run fuel (Manner.minuted.execute program scope target) st =
      some (result, st')) (hst : st.world.1.Hosts vm) (hl : st.world.1.ledger? vm = some l) :
    ∃ l₁ new gone linked st₁,
      (π.minuted vm).run fuel (Minuted.live (Program.linkIfAny scope target program)) st =
        some (linked, st₁) ∧
      Tallies (π.client vm) vm st.world st₁.world l l₁ new gone ∧
      (linked = .ok () ∧ result = .ok ⟨vm, new⟩ ∧ st' = st₁ ∨
        ∃ e, linked = .error e ∧ result = .error e ∧ Tallies (π.client vm) vm st.world st'.world l
          (l₁.remove (new.map Prod.fst)) [] (gone ++ new.map Prod.fst)) := by
  subst hscope
  obtain ⟨mark, st₀, hmark, hrest⟩ := Meaning.exists_of_run_bind hrun
  obtain ⟨rfl, rfl⟩ := Prod.mk.inj (Option.some.inj hmark)
  obtain ⟨linked, st₁, hlink, hsettle⟩ := Meaning.exists_of_run_bind hrest
  have hkeeps : Script.Obeys (.around (π.client scope.vm) scope.vm
      (World.Enters (π.client scope.vm) scope.vm)) (fun _ _ ↦ True)
      (Program.linkIfAny scope target program) st.world.1 :=
    Program.keeps_linkIfAny target program _ _ (.self hst) fun _ _ _ ↦ trivial
  obtain ⟨haccounts, -⟩ := hup.run (Accounts.within fun _ _ h ↦ h) hlink hkeeps
  obtain ⟨l₁, new, gone, htally⟩ := haccounts.tally hst hl
  have hsound : l.Sound := hst.sound hl
  refine ⟨l₁, new, gone, linked, st₁, hlink, htally, ?_⟩
  -- What was registered since the mark is what is new in the ledger.
  have howned : (st₁.world.1.ledgerOf scope.vm).since (st.world.1.ledgerOf scope.vm).watermark =
      new := by
    rw [World.ledgerOf_of_ledger? htally.before, World.ledgerOf_of_ledger? htally.after]
    exact htally.gains.since_eq hsound
  cases linked with
  | ok u =>
    obtain ⟨d, st₂, hd, hdone⟩ := Meaning.exists_of_run_bind hsettle
    obtain ⟨rfl, rfl⟩ := Prod.mk.inj (Option.some.inj hd)
    obtain ⟨rfl, rfl⟩ := Prod.mk.inj (Option.some.inj hdone)
    exact .inl ⟨rfl, congrArg (fun owned ↦ Except.ok (Disposer.mk scope.vm owned)) howned, rfl⟩
  | error e =>
    obtain ⟨d, st₂, hd, hdispose⟩ := Meaning.exists_of_run_bind hsettle
    obtain ⟨rfl, rfl⟩ := Prod.mk.inj (Option.some.inj hd)
    obtain ⟨⟨⟩, st₃, hundo, hdone⟩ := Meaning.exists_of_run_bind hdispose
    obtain ⟨rfl, rfl⟩ := Prod.mk.inj (Option.some.inj hdone)
    have hst₁ := hst.of_continues htally.continues
    have hdispose : (π.minuted scope.vm).run fuel (Minuted.dispose ⟨scope.vm,
        (st₁.world.1.ledgerOf scope.vm).since (st.world.1.ledgerOf scope.vm).watermark⟩) st₁ =
      some ((), st₃) := hundo
    rw [howned] at hdispose
    obtain ⟨hcontinues, hledger, hminutes⟩ :=
      run_dispose hup rfl hdispose hst₁ htally.after htally.gentle
    have hfailed := htally.remove hsound (List.Sublist.refl new) hcontinues hledger hminutes
    rw [Ledger.filter_not_contains_self] at hfailed
    exact .inr ⟨e, rfl, rfl, hfailed⟩

/-! ## Code that holds disposers -/

/-- Code is carried out that executes for the view-model and holds disposers: what it has installed
and not disposed again is new, and what it has disposed is gone. -/
theorem run_carry {post : α → World C H → Prop} {code : Conduct C H α} {ds : List (Disposer C)}
    {a : α} (hrun : (π.minuted vm).run fuel (code.carry .minuted vm ds) st = some (a, st'))
    (hx : x.1.Hosts vm) (htally : Tallies (π.client vm) vm x st.world l l' new gone)
    (hds : Disposer.AllHold vm new ds)
    (hcode : code.Obeys (.around (π.client vm) vm (World.Spares vm)) post st.world.1) :
    Accounts (π.client vm) vm x st'.world ∧ post a st'.world.1 := by
  have hl : l.Sound := hx.sound htally.before
  have hst := hx.of_continues htally.continues
  -- The tally is always taken from the beginning, because the disposers are for all that is new.
  induction code generalizing ds st l' new gone with
  | done _ =>
    obtain ⟨rfl, rfl⟩ := Prod.mk.inj (Option.some.inj hrun)
    exact ⟨fun _ ↦ ⟨l, l', new, gone, htally⟩, hcode⟩
  | live p k ih =>
    obtain ⟨b, st₁, hlive, hrest⟩ := Meaning.exists_of_run_bind hrun
    obtain ⟨haccounts, hcode'⟩ := hup.sparing.run (Accounts.within fun _ _ h ↦ .inl h) hlive hcode
    obtain ⟨l₁, new₁, gone₁, htally₁⟩ := haccounts.tally hst htally.after
    have htally' := htally.trans htally₁
    exact ih b hrest htally' (hds.append new₁) hcode' (hx.of_continues htally'.continues)
  | execute program owner placeholder target k ih =>
    rw [Conduct.carry] at hrun
    obtain ⟨answer, st₁, hexecute, hrest⟩ := Meaning.exists_of_run_bind hrun
    obtain ⟨l₁, new₁, gone₁, linked, st₂, -, htally₁, hanswer⟩ :=
      run_execute hup rfl hexecute hst htally.after
    rcases hanswer with ⟨-, rfl, rfl⟩ | ⟨e, -, rfl, hfailed⟩
    · -- The new disposer is for what came last, so it shares nothing with those that are held.
      have htally' := htally.trans htally₁
      refine ih _ hrest htally' (hds.hold htally'.gains.ascending.nodup) ?_
        (hx.of_continues htally'.continues)
      exact hcode _ _ htally₁.continues
    · have htally' := htally.trans hfailed
      refine ih _ hrest htally' (hds.append []) ?_ (hx.of_continues htally'.continues)
      exact hcode _ _ hfailed.continues
  | dispose i k ih =>
    -- What the disposer owns is new and still there, since no other disposer owns it.
    rw [Conduct.carry] at hrun
    cases hd : ds[i]? with
    | none =>
      rw [hd] at hrun
      exact ih hrun htally hds (hcode _ (.refl _)) hst
    | some d =>
      rw [hd] at hrun
      obtain ⟨⟨⟩, st₁, hdispose, hrest⟩ := Meaning.exists_of_run_bind hrun
      have hmem : d ∈ ds := List.mem_of_getElem? hd
      obtain ⟨hcontinues, hledger, hminutes⟩ := run_dispose hup (hds.vm d hmem) hdispose hst
        htally.after fun e he ↦ htally.gentle e ((hds.owned d hmem).subset he)
      have htally' := htally.remove hl (hds.owned d hmem) hcontinues hledger hminutes
      exact ih hrest htally' (hds.consume hd) (hcode _ hcontinues)
        (hx.of_continues htally'.continues)

/-- A call whose code starts without disposers is carried out. -/
theorem run_call {post : α → World C H → Prop} {code : Conduct C H α} {a : α}
    (hrun : (π.minuted vm).run fuel (code.carry .minuted vm []) st = some (a, st'))
    (hcode : st.world.1.Hosts vm →
      code.Obeys (.around (π.client vm) vm (World.Spares vm)) post st.world.1) :
    Accounts (π.client vm) vm st.world st'.world ∧
      (st.world.1.Hosts vm → st.world.1.Continues st'.world.1 ∧ post a st'.world.1) := by
  have hcarry (hst : st.world.1.Hosts vm) :
      Accounts (π.client vm) vm st.world st'.world ∧ post a st'.world.1 := by
    obtain ⟨l, hl, -⟩ := hst.ledger
    have hstart : Tallies (π.client vm) vm st.world st.world l l [] [] :=
      .of_spares (.refl vm _) hl st.world.2
    exact run_carry hup hrun hst hstart (.nil vm []) (hcode hst)
  have haccounts : Accounts (π.client vm) vm st.world st'.world := fun hst ↦ (hcarry hst).1 hst
  exact ⟨haccounts, fun hst ↦ ⟨haccounts.continues hst, (hcarry hst).2⟩⟩

end Runs

/-- **Everything can be accounted for** that bodies and calls of a disciplined practice do. -/
theorem Practice.Abides.upholds {π : Practice C H} (h : π.Abides vm) (fuel : Nat) :
    ((π.minuted vm).runner fuel).Upholds
      (.around (π.client vm) vm (World.Enters (π.client vm) vm)) (Accounts (π.client vm) vm) := by
  have hown (w w' : World C H) (hw : w.Spares vm w') : w.Spares vm w' := hw
  have hwithin : (Rules.around (π.client vm) vm (World.Spares vm)).Within
      (Accounts (π.client vm) vm) := Accounts.within fun _ _ hw ↦ .inl hw
  -- Nested executions are within calls, so they run on less fuel than what they are nested in.
  induction fuel with
  | zero =>
    constructor
    · intro b st st' hrun
      cases hrun
    · intro q st a st' _ hrun
      cases hrun
  | succ fuel ih =>
    constructor
    · intro b st st' hrun hst
      rw [Meaning.runner_succ_body] at hrun
      obtain ⟨⟨⟨⟩, st₁⟩, hbody, rfl⟩ := Option.map_eq_some_iff.mp hrun
      have hkeeps : Script.Obeys (.around (π.client vm) vm (World.Spares vm)) (fun _ _ ↦ True)
          b.script st.world.1 :=
        Live.Keeps.script hown b _ _ (.self hst) fun _ _ _ ↦ trivial
      exact (ih.sparing.run hwithin hbody hkeeps).1 hst
    · intro q st a st' hasks hrun
      rw [Meaning.runner_succ_call] at hrun
      cases q with
      | perform code =>
        exact (run_call ih hrun fun hst ↦ h.perform code _ hst).imp_right fun hcode hst ↦
          (hcode hst).1
      | bind code scope node descriptor =>
        exact run_call ih hrun fun _ ↦ h.bind code scope node descriptor _ hasks
      | link code scope target =>
        exact (run_call ih hrun fun _ ↦ h.link code scope target _ hasks).imp_right
          fun hcode hst ↦ (hcode hst).1
      | resume =>
        have hkeeps (hst : st.world.1.Hosts vm) :
            Script.Obeys (.around (π.client vm) vm (World.Spares vm)) (fun _ _ ↦ True)
              Live.resume st.world.1 :=
          Live.Keeps.resume hown _ _ (.self hst) fun _ _ _ ↦ trivial
        have haccounts : Accounts (π.client vm) vm st.world st'.world := fun hst ↦
          (ih.sparing.run hwithin hrun (hkeeps hst)).1 hst
        exact ⟨haccounts, haccounts.continues⟩

end LiveMarkup
