import LiveMarkup.Proofs.Live.Minutes
import LiveMarkup.Proofs.Model.Ledger
import LiveMarkup.Proofs.Reactive.Rules

/-!
# Code that leaves a ledger alone

Whose bindings stand in the ledger of a view-model can only be told if the code of directives does
not touch that ledger behind the back of executions. `Practice.Abides` says so: but for the
executions that stand out in it, none of its steps changes the ledger of the view-model, and the
bindings that it makes can be disposed without touching it (`Binding.Gentle`). Everything else such
code may do: work on nodes, fields and other ledgers, make effects and run them, call other
directives, and execute for other view-models.

That the ledger of one view-model is left alone when something is entered into the ledger of another
holds because no two view-models share one. This and that view-models keep their ledgers is all that
has to be known of the worlds in which such code runs (`World.Continues`, `World.Serves`).
-/

namespace LiveMarkup

variable {C H α β : Type}

namespace World

/-- Whether every view-model is still there, with the ledger it had, and every ledger is, in order
if it was. -/
structure Continues (w w' : World C H) : Prop where
  viewModels : w.viewModels.size ≤ w'.viewModels.size
  ledger : ∀ vm, vm.index < w.viewModels.size → (w'.viewModel vm).ledger = (w.viewModel vm).ledger
  sound : ∀ (i : Nat) (l : Ledger (Binding C)), w.ledgers[i]? = some l → l.Sound →
    ∃ l' : Ledger (Binding C), w'.ledgers[i]? = some l' ∧ l'.Sound

/-- Whether a world has a view-model, and its ledger, which is in order. -/
structure Hosts (w : World C H) (vm : ViewModelId) : Prop where
  viewModel : vm.index < w.viewModels.size
  ledger : ∃ l, w.ledger? vm = some l ∧ l.Sound

/-- Whether the ledger of a view-model is as it was, with all that goes on. -/
structure Spares (vm : ViewModelId) (w w' : World C H) : Prop where
  continues : w.Continues w'
  ledger? : w'.ledger? vm = w.ledger? vm

/-- Whether a world has a view-model, and another one is that or has a ledger of its own. -/
structure Serves (vm vm' : ViewModelId) (w : World C H) : Prop where
  hosts : w.Hosts vm
  apart : vm' = vm ∨ w.Hosts vm' ∧ (w.viewModel vm').ledger ≠ (w.viewModel vm).ledger

/-- The world in which a binding was entered into the ledger of a view-model. -/
def register (vm : ViewModelId) (b : Binding C) (w : World C H) : World C H :=
  w.modifyLedger (w.viewModel vm).ledger fun l ↦ (l.register b).2

variable {vm vm' : ViewModelId} {w w' w'' : World C H}

namespace Continues

theorem refl (w : World C H) : w.Continues w :=
  ⟨Nat.le_refl _, fun _ _ ↦ rfl, fun _ l hl hsound ↦ ⟨l, hl, hsound⟩⟩

theorem trans (h : w.Continues w') (h' : w'.Continues w'') : w.Continues w'' where
  viewModels := Nat.le_trans h.viewModels h'.viewModels
  ledger vm hvm := (h'.ledger vm (Nat.lt_of_lt_of_le hvm h.viewModels)).trans (h.ledger vm hvm)
  sound i l hl hsound := by
    obtain ⟨l', hl', hsound'⟩ := h.sound i l hl hsound
    exact h'.sound i l' hl' hsound'

theorem modifyLedger (w : World C H) (i : LedgerId)
    {f : Ledger (Binding C) → Ledger (Binding C)} (hf : ∀ l, l.Sound → (f l).Sound) :
    w.Continues (w.modifyLedger i f) := by
  refine ⟨Nat.le_refl _, fun _ _ ↦ rfl, fun j l hl hsound ↦ ?_⟩
  have hget : (w.modifyLedger i f).ledgers[j]? =
    if i.index = j then w.ledgers[j]?.map f else w.ledgers[j]? := Array.getElem?_modify ..
  by_cases hij : i.index = j
  · rw [if_pos hij, hl] at hget
    exact ⟨f l, hget, hf l hsound⟩
  · rw [if_neg hij, hl] at hget
    exact ⟨l, hget, hsound⟩

end Continues

namespace Hosts

theorem of_continues (h : w.Hosts vm) (h' : w.Continues w') : w'.Hosts vm where
  viewModel := Nat.lt_of_lt_of_le h.viewModel h'.viewModels
  ledger := by
    obtain ⟨l, hl, hsound⟩ := h.ledger
    rw [World.ledger?, h'.ledger vm h.viewModel]
    exact h'.sound _ l hl hsound

theorem sound {l : Ledger (Binding C)} (h : w.Hosts vm) (hl : w.ledger? vm = some l) :
    l.Sound := by
  obtain ⟨l', hl', hsound⟩ := h.ledger
  obtain rfl : l' = l := Option.some.inj (hl'.symm.trans hl)
  exact hsound

end Hosts

namespace Serves

theorem self (h : w.Hosts vm) : w.Serves vm vm := ⟨h, .inl rfl⟩

theorem of_continues (h : w.Serves vm vm') (h' : w.Continues w') : w'.Serves vm vm' where
  hosts := h.hosts.of_continues h'
  apart := by
    refine h.apart.imp_right fun ⟨hvm', hne⟩ ↦ ⟨hvm'.of_continues h', ?_⟩
    rw [h'.ledger vm' hvm'.viewModel, h'.ledger vm h.hosts.viewModel]
    exact hne

end Serves

theorem ledger?_modifyLedger (w : World C H) (i : LedgerId)
    (f : Ledger (Binding C) → Ledger (Binding C)) (vm : ViewModelId) :
    (w.modifyLedger i f).ledger? vm =
      if (w.viewModel vm).ledger = i then (w.ledger? vm).map f else w.ledger? vm := by
  have hvm : (w.modifyLedger i f).viewModel vm = w.viewModel vm := rfl
  rw [ledger?, hvm, ledger?]
  refine (Array.getElem?_modify ..).trans ?_
  by_cases h : (w.viewModel vm).ledger = i
  · rw [if_pos h, if_pos (congrArg LedgerId.index h).symm]
  · have hne : i.index ≠ (w.viewModel vm).ledger.index := fun heq ↦
      h (congrArg LedgerId.mk heq).symm
    rw [if_neg h, if_neg hne]

/-- Whoever changes the ledger of a view-model changes it for that view-model. -/
theorem ledger?_modifyLedger_self {l : Ledger (Binding C)} (h : w.ledger? vm = some l)
    (f : Ledger (Binding C) → Ledger (Binding C)) :
    (w.modifyLedger (w.viewModel vm).ledger f).ledger? vm = some (f l) := by
  rw [ledger?_modifyLedger, if_pos rfl, h]
  rfl

theorem continues_register (w : World C H) (vm : ViewModelId) (b : Binding C) :
    w.Continues (w.register vm b) :=
  .modifyLedger w _ fun l ↦ (Ledger.Gains.register l b).sound

namespace Spares

theorem refl (vm : ViewModelId) (w : World C H) : w.Spares vm w := ⟨.refl w, rfl⟩

theorem trans (h : w.Spares vm w') (h' : w'.Spares vm w'') : w.Spares vm w'' :=
  ⟨h.continues.trans h'.continues, h'.ledger?.trans h.ledger?⟩

/-- Whoever touches neither view-models nor ledgers spares them all. -/
theorem of_eq (vm : ViewModelId) (hvm : w'.viewModels = w.viewModels)
    (hledgers : w'.ledgers = w.ledgers) : w.Spares vm w' := by
  have heq (vm' : ViewModelId) : w'.viewModel vm' = w.viewModel vm' := by
    rw [viewModel, viewModel, hvm]
  refine ⟨⟨Nat.le_of_eq (congrArg Array.size hvm.symm), fun vm' _ ↦ ?_, fun i l hl hsound ↦ ?_⟩, ?_⟩
  · rw [heq]
  · exact ⟨l, hledgers ▸ hl, hsound⟩
  · rw [World.ledger?, World.ledger?, heq, hledgers]

theorem modifyViewModel (vm vm' : ViewModelId) {f : ViewModel → ViewModel}
    (hf : ∀ m, (f m).ledger = m.ledger) (w : World C H) :
    w.Spares vm (w.modifyViewModel vm' f) := by
  have hledger (vm₁ : ViewModelId) :
      ((w.modifyViewModel vm' f).viewModel vm₁).ledger = (w.viewModel vm₁).ledger := by
    rw [viewModel, viewModel, World.modifyViewModel, Array.getD_eq_getD_getElem?,
      Array.getD_eq_getD_getElem?, Array.getElem?_modify]
    split
    · cases w.viewModels[vm₁.index]? with
      | none => rfl
      | some m => exact hf m
    · rfl
  refine ⟨⟨Nat.le_of_eq (Array.size_modify ..).symm, fun vm₁ _ ↦ hledger vm₁,
    fun _ l hl hsound ↦ ⟨l, hl, hsound⟩⟩, ?_⟩
  rw [World.ledger?, hledger]
  rfl

end Spares

end World

/-! ## Bindings and calls -/

/-- Whether a binding can be disposed, from a world on, without the ledger of a view-model being
touched. -/
def Binding.Gentle (client : Client C H) (vm : ViewModelId) (w : World C H) (b : Binding C) :
    Prop :=
  ∀ fuel st st', w.Continues st.world → client.run fuel b.dispose st = some ((), st') →
    st.world.Spares vm st'.world

theorem Binding.Gentle.of_continues {client : Client C H} {vm : ViewModelId} {w w' : World C H}
    {b : Binding C} (h : b.Gentle client vm w) (h' : w.Continues w') : b.Gentle client vm w' :=
  fun fuel st st' hst hrun ↦ h fuel st st' (h'.trans hst) hrun

/-- Stopping an effect touches no ledger. -/
theorem Binding.gentle_effect (client : Client C H) (vm : ViewModelId) (w : World C H)
    (e : EffectId) : (Binding.effect e).Gentle client vm w := by
  intro fuel st st' _ hrun
  obtain ⟨-, rfl⟩ := Prod.mk.inj (Option.some.inj hrun)
  exact .refl vm _

/-- A binding is gentle if nothing is done to dispose it. -/
theorem Practice.gentle_client (π : Practice C H) {vm : ViewModelId} {code : C}
    (h : π.perform code = .done ()) (w : World C H) :
    (Binding.client code).Gentle (π.client vm) vm w := by
  intro fuel st st' _ hrun
  cases fuel with
  | zero => cases hrun
  | succ fuel =>
    have hcall : ((π.client vm).meaning.runner (fuel + 1)).call (.perform code) st =
        ((π.client vm).meaning.runner fuel).run fuel ((π.perform code).carry .plain vm []) st := rfl
    have hdone : (π.client vm).run (fuel + 1) (Live.perform code) st = some ((), st) := by
      refine (congrArg (Option.bind · _) hcall).trans ?_
      rw [h]
      rfl
    obtain ⟨-, rfl⟩ := Prod.mk.inj (Option.some.inj (hdone.symm.trans hrun))
    exact .refl vm _

namespace Call

/-- When a call may be asked for: what is bound or carried out for a scope, is so for the given
view-model or for another with a ledger of its own. -/
def Permits (vm : ViewModelId) : Call C → World C H → Prop
  | .bind _ scope _ _, w | .link _ scope _, w => w.Serves vm scope.vm
  | .perform _, _ | .resume, _ => True

/-- What a call may answer: the bindings that it makes are gentle. -/
def Meets (client : Client C H) (vm : ViewModelId) :
    (q : Call C) → World C H → q.Answer → World C H → Prop
  | .bind .., w, answer, w' =>
    w.Continues w' ∧ ∀ b, answer = Except.ok b → b.Gentle client vm w'
  | .perform _, w, _, w' | .link .., w, _, w' | .resume, w, _, w' => w.Continues w'

end Call

/-! ## Disciplined code -/

/-- The rules for code around the ledger of a view-model, given what it may change itself. -/
def Rules.around (client : Client C H) (vm : ViewModelId)
    (own : World C H → World C H → Prop) : Rules (World C H) (Call C) Call.Answer where
  own := own
  bodies w w' := w.Hosts vm → w.Continues w'
  asks q w := q.Permits vm w
  answers q w answer w' := w.Hosts vm → q.Meets client vm w answer w'

/-- Whether the live code in a conduct keeps to rules from a world on, and what holds at its end. -/
def Conduct.Obeys (ρ : Rules (World C H) (Call C) Call.Answer) (post : α → World C H → Prop) :
    Conduct C H α → World C H → Prop
  | .done a, w => post a w
  | .live p k, w => p.Obeys ρ (fun b ↦ (k b).Obeys ρ post) w
  | .execute _ _ _ _ k, w => ∀ answer w', w.Continues w' → (k answer).Obeys ρ post w'
  | .dispose _ k, w => ∀ w', w.Continues w' → k.Obeys ρ post w'

/-- Whether the code of a practice, but for its executions for a view-model, leaves the ledger of
that view-model alone, and makes gentle bindings. -/
structure Practice.Abides (π : Practice C H) (vm : ViewModelId) : Prop where
  perform : ∀ code w, w.Hosts vm →
    (π.perform code).Obeys (.around (π.client vm) vm (World.Spares vm)) (fun _ _ ↦ True) w
  bind : ∀ code scope node descriptor w, w.Serves vm scope.vm →
    (π.bind code scope node descriptor).Obeys (.around (π.client vm) vm (World.Spares vm))
      (fun answer w' ↦ ∀ b, answer = .ok b → b.Gentle (π.client vm) vm w') w
  link : ∀ code scope target w, w.Serves vm scope.vm →
    (π.link code scope target).Obeys (.around (π.client vm) vm (World.Spares vm))
      (fun _ _ ↦ True) w

end LiveMarkup
