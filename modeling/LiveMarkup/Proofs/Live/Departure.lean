import LiveMarkup.Proofs.Live.Passages
import LiveMarkup.Proofs.Live.Residence

/-!
# Who has left does not come back

Hooks may mount and unmount components, also while others are being unmounted. What is known of a
component is kept along all steps of such a run (`Journal.Accounts`): what is under way is a row of
unmounts whose destroy hooks run, but for the innermost phase; of the component itself at most one
phase is under way, and then it is not taken for mounted; and what was recorded for it stays in the
table until it is taken out, and is disposed then.

So whenever an unmount answers that the component was mounted, its view-model is disposed, it is not
mounted, nothing of it is left in the ledger, and it is not mounted later
(`Household.Rests.departs_for_good`). This holds if the component is not mounted while it is being
unmounted, which only a destroy hook can do: the view-model is disposed at the end only, so such a
mount is not refused (`Revenant.comes_back`).
-/

namespace LiveMarkup

variable {C H α : Type}

namespace Passage

/-- Whether what begins here is begun by hooks, if anything is under way. -/
def InHooks : Passage C H → Prop
  | .entering _ phases | .leaving _ phases => ∀ f ∈ phases, f.isLeaving = true
  | .mounted .. | .left .. => True

/-- Whether this is no mount of a component with which something is under way. -/
def Patient (c : ComponentId) : Passage C H → Prop
  | .entering c' phases => c' = c → ∀ f ∈ phases, f.component ≠ c
  | .mounted .. | .leaving .. | .left .. => True

instance (p : Passage C H) : Decidable p.InHooks :=
  match p with
  | .entering _ phases | .leaving _ phases =>
    inferInstanceAs (Decidable (∀ f ∈ phases, f.isLeaving = true))
  | .mounted .. | .left .. => .isTrue trivial

instance (c : ComponentId) (p : Passage C H) : Decidable (p.Patient c) :=
  match p with
  | .entering c' phases => inferInstanceAs (Decidable (c' = c → ∀ f ∈ phases, f.component ≠ c))
  | .mounted .. | .leaving .. | .left .. => .isTrue trivial

/-- Whether one passage may stand before another one: a component that has left or was mounted
before is not mounted, and when it leaves, nothing is left of what was recorded. -/
def Precedes (c : ComponentId) : Passage C H → Passage C H → Prop
  | .left c₁ _ _, .mounted c₂ _ _ _ _ | .mounted c₁ _ _ _ _, .mounted c₂ _ _ _ _ =>
    c₁ = c → c₂ ≠ c
  | .mounted c₁ t₁ _ d w₁, .left c₂ t₂ w₂ => c₁ = c → c₂ = c →
    d.vm = (w₂.component c).vm ∧ (t₁ = t₂ → t₁.index < w₁.tables.size → w₂.Lacks d)
  | _, _ => True

end Passage

namespace World

variable {w w' : World C H} {c : ComponentId} {t : TableId} {n : NodeId} {d : Disposer C}

theorem of_refusal?_eq_none (h : w.refusal? c t n = none) :
    (w.component c).mounted = none ∧ (w.viewModel (w.component c).vm).disposed = false ∧
      (w.table t).find? n = none := by
  cases htemplate : (w.component c).template with
  | none =>
    rw [refusal?, htemplate] at h
    contradiction
  | some template =>
    obtain ⟨hmounted, hdisposed, hfree⟩ := (refusal?_eq_none htemplate).mp h
    exact ⟨hmounted, hdisposed, MountTable.isMounted_eq_false.mp hfree⟩

theorem table_of_not_lt (h : ¬ t.index < w.tables.size) : w.table t = .empty := by
  simp [table, Array.getD_eq_getD_getElem?, h]
  rfl

/-- What is taken out of a table is not there. -/
theorem find?_erased (w : World C H) (t : TableId) (n : NodeId) :
    ((w.modifyTable t fun T ↦ T.erase n).table t).find? n = none := by
  rw [table_modifyTable]
  split
  case isTrue => exact MountTable.find?_erase_self _ n
  case isFalse h =>
    rw [table_of_not_lt fun hlt ↦ h ⟨rfl, hlt⟩]
    rfl

/-- What is taken out is what was found, and everything else stays. -/
theorem find?_erased_of_ne {t' : TableId} {n' : NodeId} (h : ¬ (t' = t ∧ n' = n)) :
    ((w.modifyTable t fun T ↦ T.erase n).table t').find? n' = (w.table t').find? n' := by
  rw [table_modifyTable]
  split
  case isTrue ht => exact MountTable.find?_erase_of_ne _ fun hn ↦ h ⟨ht.1, hn⟩
  case isFalse => rfl

/-- Who has departed cannot be mounted. -/
theorem Departed.refusal? (h : w.Departed c) (t : TableId) (n : NodeId) :
    ∃ e, w.refusal? c t n = some e := by
  refine Option.ne_none_iff_exists'.mp fun hnone ↦ ?_
  exact Bool.false_ne_true ((of_refusal?_eq_none hnone).2.1.symm.trans h.2)

theorem Departed.of_grows (h : w.Departed c) (h' : w.Grows w') (hc : c.index < w.components.size)
    (hmounted : (w'.component c).mounted = (w.component c).mounted) : w'.Departed c :=
  ⟨hmounted.trans h.1, h'.disposed _ (h'.vm c hc ▸ h.2)⟩

/-- What was removed does not come back. -/
theorem Lacks.of_grows (h : w.Lacks d) (h' : w.Grows w') (hvm : w.Hosts d.vm)
    (hissued : ∀ i ∈ d.ids, i.index < (w.ledgerOf d.vm).next) : w'.Lacks d :=
  fun i hi hmem ↦ h i hi ((h'.ledgerOf hvm).old i hmem (hissued i hi))

end World

namespace Journal

variable {w w' : World C H} {j j' : Journal C H} {x y : World C H × Journal C H}
  {c : ComponentId} {t : TableId} {n : NodeId} {d : Disposer C}

/-- Whether mounts and unmounts that begin while others are under way are begun by hooks, and a
component is not mounted while something is under way with it. -/
structure Fair (c : ComponentId) (j : Journal C H) : Prop where
  inHooks : ∀ p ∈ j.passages, p.InHooks
  patient : ∀ p ∈ j.passages, p.Patient c

/-! ## What is under way -/

/-- Whether only the innermost phase is anything but waiting for destroy hooks, and nothing is
recorded where something is carried out, or has been taken out. -/
structure Queues (w : World C H) (j : Journal C H) : Prop where
  waiting : ∀ f ∈ j.underWay.tail, f.isLeaving = true
  free : ∀ c t n, .carrying c t n ∈ j.underWay → (w.table t).find? n = none
  cleared : ∀ c t n found, .clearing c t n found ∈ j.underWay → (w.table t).find? n = none

namespace Queues

/-- Where destroy hooks run, nothing else has to be known. -/
theorem of_leaving (h : ∀ f ∈ j.underWay, f.isLeaving = true) : Queues w j where
  waiting f hf := h f (List.mem_of_mem_tail hf)
  free _ _ _ hf := nomatch h _ hf
  cleared _ _ _ _ hf := nomatch h _ hf

/-- What is innermost is looked at by itself. -/
theorem of_cons {f : Phase C} {phases : List (Phase C)} (hj : j.underWay = f :: phases)
    (hphases : ∀ f ∈ phases, f.isLeaving = true)
    (hfree : ∀ c t n, f = .carrying c t n → (w.table t).find? n = none)
    (hcleared : ∀ c t n found, f = .clearing c t n found → (w.table t).find? n = none) :
    Queues w j where
  waiting := by rwa [hj]
  free c t n hmem := by
    rw [hj] at hmem
    rcases List.mem_cons.mp hmem with heq | hmem
    · exact hfree c t n heq.symm
    · exact nomatch hphases _ hmem
  cleared c t n found hmem := by
    rw [hj] at hmem
    rcases List.mem_cons.mp hmem with heq | hmem
    · exact hcleared c t n found heq.symm
    · exact nomatch hphases _ hmem

/-- Only the innermost phase is not waiting for destroy hooks. -/
theorem eq_of_mem {f g : Phase C} {phases : List (Phase C)} (h : Queues w j)
    (hj : j.underWay = f :: phases) (hg : g ∈ j.underWay) (hleaving : g.isLeaving = false) :
    g = f := by
  have hwaiting := h.waiting
  rw [hj] at hwaiting hg
  rcases List.mem_cons.mp hg with heq | hmem
  · exact heq
  · exact absurd (hwaiting g hmem) (Bool.eq_false_iff.mp hleaving)

theorem step (h : Queues x.1 x.2) (hstep : Step x y) (hhooks : ∀ p ∈ y.2.passages, p.InHooks) :
    Queues y.1 y.2 := by
  cases hstep with
  | rest hrests =>
    refine ⟨h.waiting, fun c t n hf ↦ ?_, fun c t n found hf ↦ ?_⟩
    · rw [hrests.table]
      exact h.free c t n hf
    · rw [hrests.table]
      exact h.cleared c t n found hf
  | @enter w j c t n hfree =>
    have hleaving : ∀ f ∈ j.underWay, f.isLeaving = true :=
      hhooks (.entering c j.underWay) (List.mem_append_right _ List.mem_cons_self)
    refine of_cons rfl hleaving ?_ fun _ _ _ _ ↦ nofun
    rintro _ _ _ ⟨⟩
    exact (World.of_refusal?_eq_none hfree).2.2
  | fail _ => exact of_leaving h.waiting
  | settle _ _ _ _ => exact of_leaving h.waiting
  | @leave w j c t n _ _ =>
    have hleaving : ∀ f ∈ j.underWay, f.isLeaving = true :=
      hhooks (.leaving c j.underWay) (List.mem_append_right _ List.mem_cons_self)
    exact of_cons rfl hleaving (fun _ _ _ ↦ nofun) fun _ _ _ _ ↦ nofun
  | @clear w j c t n phases hinnermost =>
    have hleaving : ∀ f ∈ phases, f.isLeaving = true := by
      have hwaiting := h.waiting
      rwa [hinnermost] at hwaiting
    refine of_cons (congrArg (_ :: List.tail ·) hinnermost) hleaving (fun _ _ _ ↦ nofun) ?_
    rintro _ _ _ _ ⟨⟩
    exact World.find?_erased w t n
  | finish _ _ _ => exact of_leaving h.waiting

end Queues

/-! ## Where a component is -/

/-- The components with which something is under way. -/
def busy (j : Journal C H) : List ComponentId := j.underWay.map Phase.component

theorem mem_busy {f : Phase C} {phases : List (Phase C)} (hj : j.underWay = f :: phases) :
    f.component ∈ j.busy := List.mem_map.mpr ⟨f, hj ▸ List.mem_cons_self, rfl⟩

theorem mem_tail {f g : Phase C} {phases : List (Phase C)} (hj : j.underWay = f :: phases)
    (hg : g ∈ j.underWay) (hne : g ≠ f) : g ∈ j.underWay.tail := by
  rw [hj] at hg ⊢
  exact (List.mem_cons.mp hg).resolve_left hne

theorem of_mem_concat {ps : List (Passage C H)} {p q : Passage C H} (h : p ∈ ps ++ [q])
    (hne : p ≠ q) : p ∈ ps :=
  (List.mem_append.mp h).resolve_right fun hmem ↦ hne (List.mem_singleton.mp hmem)

/-- Whether at most one thing is under way with a component, which is not taken for mounted then and
has not left; and it has departed if it has left. -/
structure Places (c : ComponentId) (w : World C H) (j : Journal C H) : Prop where
  single : j.busy.count c ≤ 1
  out : c ∈ j.busy → (w.component c).mounted = none ∧ ∀ t w', .left c t w' ∉ j.passages
  left : ∀ t w', .left c t w' ∈ j.passages → c.index < w.components.size ∧ w.Departed c

namespace Places

/-- With a component nothing has changed. -/
theorem of_grows (h : Places c w j) (hgrows : w.Grows w')
    (hmounted : (w'.component c).mounted = (w.component c).mounted)
    (hbusy : j'.busy.count c ≤ j.busy.count c)
    (hleft : ∀ t w', .left c t w' ∈ j'.passages → .left c t w' ∈ j.passages) : Places c w' j' where
  single := Nat.le_trans hbusy h.single
  out hmem := by
    obtain ⟨hnone, hnot⟩ := h.out
      (List.count_pos_iff.mp (Nat.lt_of_lt_of_le (List.count_pos_iff.mpr hmem) hbusy))
    exact ⟨hmounted.trans hnone, fun t w' hl ↦ hnot t w' (hleft t w' hl)⟩
  left t w' hl := by
    obtain ⟨hlt, hdeparted⟩ := h.left t w' (hleft t w' hl)
    exact ⟨Nat.lt_of_lt_of_le hlt hgrows.components, hdeparted.of_grows hgrows hlt hmounted⟩

/-- Nothing else is under way with the component of the innermost phase. -/
theorem not_mem_tail (h : Places c w j) {f : Phase C} {phases : List (Phase C)}
    (hj : j.underWay = f :: phases) (hf : f.component = c) :
    c ∉ j.underWay.tail.map Phase.component := by
  have hsingle := h.single
  rw [busy, hj, List.map_cons, hf, List.count_cons_self] at hsingle
  rw [hj, List.tail_cons]
  exact List.count_eq_zero.mp (by omega)

theorem eq_of_mem (h : Places c w j) {f g : Phase C} {phases : List (Phase C)}
    (hj : j.underWay = f :: phases) (hf : f.component = c) (hg : g ∈ j.underWay)
    (hgc : g.component = c) : g = f := by
  by_contra hne
  exact h.not_mem_tail hj hf (List.mem_map.mpr ⟨g, mem_tail hj hg hne, hgc⟩)

/-- What begins with a component is the only thing that is under way with it. -/
theorem count_cons_self (hbusy : c ∉ j.busy) : (c :: j.busy).count c ≤ 1 := by
  rw [List.count_cons_self]
  exact Nat.le_of_eq (congrArg (· + 1) (List.count_eq_zero.mpr hbusy))

theorem enter {c' : ComponentId} (h : Places c w j) (hfree : w.refusal? c' t n = none)
    (hpatient : Passage.Patient c (.entering c' j.underWay : Passage C H)) :
    Places c w (j.enter c' t n) := by
  have hleft (t' : TableId) (w' : World C H) (hl : .left c t' w' ∈ (j.enter c' t n).passages) :
      .left c t' w' ∈ j.passages := of_mem_concat hl nofun
  by_cases hc : c' = c
  · subst hc
    obtain ⟨hmounted, hdisposed, -⟩ := World.of_refusal?_eq_none hfree
    have hbusy : c' ∉ j.busy := fun hmem ↦ by
      obtain ⟨f, hf, heq⟩ := List.mem_map.mp hmem
      exact hpatient rfl f hf heq
    refine ⟨count_cons_self hbusy, fun _ ↦ ⟨hmounted, fun t' w' hl ↦ ?_⟩,
      fun t' w' hl ↦ h.left t' w' (hleft t' w' hl)⟩
    exact Bool.false_ne_true (hdisposed.symm.trans (h.left t' w' (hleft t' w' hl)).2.2)
  · exact h.of_grows (.refl w) rfl (Nat.le_of_eq (List.count_cons_of_ne hc)) hleft

theorem settle {c' : ComponentId} {copy : NodeId} {phases : List (Phase C)} {w₁ : World C H}
    (h : Places c w j) (hinnermost : j.underWay = .carrying c' t n :: phases)
    (hgrows : w.Grows (w.settled c' t n copy d)) :
    Places c (w.settled c' t n copy d) (j.settle c' t n d w₁) := by
  have htail : (j.settle c' t n d w₁).busy.count c ≤ j.busy.count c :=
    ((List.tail_sublist _).map _).count_le c
  have hleft (t' : TableId) (w' : World C H)
      (hl : .left c t' w' ∈ (j.settle c' t n d w₁).passages) : .left c t' w' ∈ j.passages :=
    of_mem_concat hl nofun
  by_cases hc : c' = c
  · subst hc
    have hbusy : c' ∈ j.busy := mem_busy hinnermost
    exact ⟨Nat.le_trans htail h.single, fun hmem ↦ absurd hmem (h.not_mem_tail hinnermost rfl),
      fun t' w' hl ↦ absurd (hleft t' w' hl) ((h.out hbusy).2 t' w')⟩
  · refine h.of_grows hgrows ?_ htail hleft
    exact congrArg Component.mounted (World.component_modifyComponent_of_ne (Ne.symm hc) _)

theorem leave {c' : ComponentId} {roots : List NodeId} (h : Places c w j)
    (hmounted : (w.component c').mounted = some (n, roots)) :
    Places c (w.modifyComponent c' fun k ↦ { k with mounted := none }) (j.leave c' t n) := by
  have hleft (t' : TableId) (w' : World C H) (hl : .left c t' w' ∈ (j.leave c' t n).passages) :
      .left c t' w' ∈ j.passages := of_mem_concat hl nofun
  by_cases hc : c' = c
  · subst hc
    have hbusy : c' ∉ j.busy := fun hmem ↦ nomatch hmounted.symm.trans (h.out hmem).1
    have hnot (t' : TableId) (w' : World C H) : .left c' t' w' ∉ (j.leave c' t n).passages :=
      fun hl ↦ nomatch hmounted.symm.trans (h.left t' w' (hleft t' w' hl)).2.1
    refine ⟨count_cons_self hbusy, fun _ ↦ ⟨?_, hnot⟩, fun t' w' hl ↦ absurd hl (hnot t' w')⟩
    rw [World.component_modifyComponent_self (World.lt_of_mounted hmounted)]
  · refine h.of_grows (.modifyComponent w c' _) ?_ (Nat.le_of_eq (List.count_cons_of_ne hc)) hleft
    exact congrArg Component.mounted (World.component_modifyComponent_of_ne (Ne.symm hc) _)

theorem finish {c' : ComponentId} {found : Option (Disposer C)} {roots : List NodeId}
    {phases : List (Phase C)} {w₁ : World C H} (h : Places c w j)
    (hinnermost : j.underWay = .clearing c' t n found :: phases)
    (hknown : c'.index < w.components.size) (hhosts : w.Hosts (w.component c').vm)
    (hgrows : w.Grows (w.cleared (w.component c').vm roots)) :
    Places c (w.cleared (w.component c').vm roots) (j.finish c' t w₁) := by
  have htail : (j.finish c' t w₁).busy.count c ≤ j.busy.count c :=
    ((List.tail_sublist _).map _).count_le c
  by_cases hc : c' = c
  · subst hc
    have hbusy : c' ∈ j.busy := mem_busy hinnermost
    refine ⟨Nat.le_trans htail h.single, fun hmem ↦ absurd hmem (h.not_mem_tail hinnermost rfl),
      fun _ _ _ ↦ ⟨hknown, (h.out hbusy).1, ?_⟩⟩
    exact (congrArg ViewModel.disposed (World.viewModel_modifyViewModel ..)).trans
      (congrArg ViewModel.disposed (if_pos ⟨rfl, hhosts.viewModel⟩))
  · refine h.of_grows hgrows rfl htail fun t' w' hl ↦ ?_
    exact of_mem_concat hl fun heq ↦ hc (Passage.left.inj heq).1.symm

theorem step (h : Places c x.1 x.2) (hhoused : x.1.Housed) (hstep : Step x y)
    (hpatient : ∀ p ∈ y.2.passages, p.Patient c) : Places c y.1 y.2 := by
  have hgrows := hstep.grows
  cases hstep with
  | rest hrests => exact h.of_grows hgrows (hrests.mounted c) (Nat.le_refl _) fun _ _ hl ↦ hl
  | enter hfree =>
    exact h.enter hfree (hpatient _ (List.mem_append_right _ List.mem_cons_self))
  | fail _ =>
    refine h.of_grows hgrows rfl ?_ fun _ _ hl ↦ hl
    exact ((List.tail_sublist _).map _).count_le c
  | settle hinnermost _ _ _ => exact h.settle hinnermost hgrows
  | leave hmounted => exact h.leave hmounted
  | @clear w j c' t n phases hinnermost =>
    refine h.of_grows hgrows rfl (Nat.le_of_eq ?_) fun _ _ hl ↦ hl
    rw [busy, busy, clear, hinnermost]
    rfl
  | finish hinnermost hknown _ => exact h.finish hinnermost hknown (hhoused _ hknown) hgrows

end Places

/-- Where a component is that was mounted on a node. -/
inductive Whereabouts (c : ComponentId) (n : NodeId) (w : World C H) (j : Journal C H) : Prop where
  | mounted (roots : List NodeId) (h : (w.component c).mounted = some (n, roots))
  | leaving (t : TableId) (h : .leaving c t n ∈ j.underWay)
  | clearing (t : TableId) (found : Option (Disposer C)) (h : .clearing c t n found ∈ j.underWay)
  | left (t : TableId) (w' : World C H) (h : .left c t w' ∈ j.passages)

namespace Whereabouts

/-- What has not happened to a component leaves it where it is. -/
theorem mono (h : Whereabouts c n w j)
    (hmounted : (w'.component c).mounted = (w.component c).mounted)
    (hphases : ∀ f ∈ j.underWay, f.isGoing = true → f.component = c → f ∈ j'.underWay)
    (hleft : ∀ t w₁, .left c t w₁ ∈ j.passages → .left c t w₁ ∈ j'.passages) :
    Whereabouts c n w' j' := by
  cases h with
  | mounted roots h => exact .mounted roots (hmounted.trans h)
  | leaving t h => exact .leaving t (hphases _ h rfl rfl)
  | clearing t found h => exact .clearing t found (hphases _ h rfl rfl)
  | left t w₁ h => exact .left t w₁ (hleft t w₁ h)

/-- If the innermost phase is a component's, the component is being unmounted. -/
theorem of_innermost {f : Phase C} {phases : List (Phase C)} (h : Whereabouts c n w j)
    (hplaces : Places c w j) (hj : j.underWay = f :: phases) (hf : f.component = c) :
    (∃ t, f = .leaving c t n) ∨ ∃ t found, f = .clearing c t n found := by
  obtain ⟨hmounted, hleft⟩ := hplaces.out (hf ▸ mem_busy hj)
  cases h with
  | mounted roots h => exact nomatch h.symm.trans hmounted
  | leaving t h => exact .inl ⟨t, (hplaces.eq_of_mem hj hf h rfl).symm⟩
  | clearing t found h => exact .inr ⟨t, found, (hplaces.eq_of_mem hj hf h rfl).symm⟩
  | left t w' h => exact absurd h (hleft t w')

/-- So it is not being mounted. -/
theorem not_carrying {n' : NodeId} {phases : List (Phase C)} (h : Whereabouts c n w j)
    (hplaces : Places c w j) (hinnermost : j.underWay = .carrying c t n' :: phases) : False := by
  obtain ⟨t', heq⟩ | ⟨t', found, heq⟩ := h.of_innermost hplaces hinnermost rfl
  · contradiction
  · contradiction

/-- Who is mounted is nowhere else. -/
theorem eq_of_mounted {n' : NodeId} {roots : List NodeId} (h : Whereabouts c n w j)
    (hplaces : Places c w j) (hmounted : (w.component c).mounted = some (n', roots)) : n = n' := by
  have hidle : c ∉ j.busy := fun hmem ↦ nomatch hmounted.symm.trans (hplaces.out hmem).1
  cases h with
  | mounted roots h => exact (Prod.mk.inj (Option.some.inj (h.symm.trans hmounted))).1
  | leaving t h => exact absurd (List.mem_map.mpr ⟨_, h, rfl⟩) hidle
  | clearing t found h => exact absurd (List.mem_map.mpr ⟨_, h, rfl⟩) hidle
  | left t w' h => exact nomatch hmounted.symm.trans (hplaces.left t w' h).2.1

theorem step (h : Whereabouts c n x.1 x.2) (hplaces : Places c x.1 x.2) (hstep : Step x y) :
    Whereabouts c n y.1 y.2 := by
  cases hstep with
  | rest hrests => exact h.mono (hrests.mounted c) (fun _ hf _ _ ↦ hf) fun _ _ hl ↦ hl
  | enter _ =>
    exact h.mono rfl (fun _ hf _ _ ↦ List.mem_cons_of_mem _ hf)
      fun _ _ hl ↦ List.mem_append_left _ hl
  | fail hinnermost =>
    refine h.mono rfl (fun f hf hgoing _ ↦ mem_tail hinnermost hf ?_) fun _ _ hl ↦ hl
    rintro rfl
    contradiction
  | @settle w j c' t' n' copy d phases hinnermost _ _ _ =>
    have hc : c ≠ c' := by
      rintro rfl
      exact h.not_carrying hplaces hinnermost
    refine h.mono ?_ (fun f hf hgoing _ ↦ mem_tail hinnermost hf ?_)
      fun _ _ hl ↦ List.mem_append_left _ hl
    · exact congrArg Component.mounted (World.component_modifyComponent_of_ne hc _)
    · rintro rfl
      contradiction
  | @leave w j c' t' n' roots' hmounted =>
    by_cases hc : c = c'
    · subst hc
      obtain rfl := h.eq_of_mounted hplaces hmounted
      exact .leaving t' List.mem_cons_self
    · refine h.mono ?_ (fun _ hf _ _ ↦ List.mem_cons_of_mem _ hf)
        fun _ _ hl ↦ List.mem_append_left _ hl
      exact congrArg Component.mounted (World.component_modifyComponent_of_ne hc _)
  | @clear w j c' t' n' phases hinnermost =>
    by_cases hc : c' = c
    · obtain ⟨t, heq⟩ | ⟨t, found, heq⟩ := h.of_innermost hplaces hinnermost hc
      · obtain ⟨rfl, rfl, rfl⟩ := Phase.leaving.inj heq
        exact .clearing t' _ List.mem_cons_self
      · contradiction
    · refine h.mono rfl (fun f hf _ hfc ↦ ?_) fun _ _ hl ↦ hl
      refine List.mem_cons_of_mem _ (mem_tail hinnermost hf ?_)
      rintro rfl
      exact hc hfc
  | @finish w j c' t' n' found' roots phases hinnermost _ _ =>
    by_cases hc : c' = c
    · obtain ⟨t, heq⟩ | ⟨t, found, heq⟩ := h.of_innermost hplaces hinnermost hc
      · contradiction
      · obtain ⟨rfl, rfl, rfl, rfl⟩ := Phase.clearing.inj heq
        exact .left t' _ (List.mem_append_right _ List.mem_cons_self)
    · refine h.mono rfl (fun f hf _ hfc ↦ mem_tail hinnermost hf ?_)
        fun _ _ hl ↦ List.mem_append_left _ hl
      rintro rfl
      exact hc hfc

/-- Only a mount brings a component to a node. -/
theorem of_step (h : Whereabouts c n y.1 y.2) (hstep : Step x y) :
    (∃ n', Whereabouts c n' x.1 x.2) ∨
      ∃ t n' d w', .mounted c t n' d w' ∈ y.2.passages := by
  cases hstep with
  | rest hrests =>
    exact .inl ⟨n, h.mono (hrests.mounted c).symm (fun _ hf _ _ ↦ hf) fun _ _ hl ↦ hl⟩
  | enter _ =>
    refine .inl ⟨n, h.mono rfl (fun f hf hgoing _ ↦ (List.mem_cons.mp hf).resolve_left ?_)
      fun _ _ hl ↦ of_mem_concat hl nofun⟩
    rintro rfl
    contradiction
  | fail _ =>
    exact .inl ⟨n, h.mono rfl (fun _ hf _ _ ↦ List.mem_of_mem_tail hf) fun _ _ hl ↦ hl⟩
  | @settle w j c' t' n' copy d phases _ _ _ _ =>
    by_cases hc : c = c'
    · subst hc
      exact .inr ⟨t', n', d, _, List.mem_append_right _ List.mem_cons_self⟩
    · refine .inl ⟨n, h.mono ?_ (fun _ hf _ _ ↦ List.mem_of_mem_tail hf)
        fun _ _ hl ↦ of_mem_concat hl nofun⟩
      exact congrArg Component.mounted (World.component_modifyComponent_of_ne hc _).symm
  | @leave w j c' t' n' roots' hmounted =>
    by_cases hc : c' = c
    · exact .inl ⟨n', .mounted roots' (hc ▸ hmounted)⟩
    · refine .inl ⟨n, h.mono ?_ (fun f hf _ hfc ↦ (List.mem_cons.mp hf).resolve_left ?_)
        fun _ _ hl ↦ of_mem_concat hl nofun⟩
      · exact congrArg Component.mounted
          (World.component_modifyComponent_of_ne (Ne.symm hc) _).symm
      · rintro rfl
        exact hc hfc
  | @clear w j c' t' n' phases hinnermost =>
    by_cases hc : c' = c
    · subst hc
      exact .inl ⟨n', .leaving t' (hinnermost ▸ List.mem_cons_self)⟩
    · refine .inl ⟨n, h.mono rfl (fun f hf _ hfc ↦ ?_) fun _ _ hl ↦ hl⟩
      refine List.mem_of_mem_tail ((List.mem_cons.mp hf).resolve_left ?_)
      rintro rfl
      exact hc hfc
  | @finish w j c' t' n' found' roots phases hinnermost _ _ =>
    by_cases hc : c' = c
    · subst hc
      exact .inl ⟨n', .clearing t' found' (hinnermost ▸ List.mem_cons_self)⟩
    · refine .inl ⟨n, h.mono rfl (fun _ hf _ _ ↦ List.mem_of_mem_tail hf) fun _ _ hl ↦ ?_⟩
      exact of_mem_concat hl fun heq ↦ hc (Passage.left.inj heq).1.symm

end Whereabouts

/-! ## What was recorded -/

/-- What has become of a record. -/
inductive Record (t : TableId) (n : NodeId) (d : Disposer C) (w : World C H) (j : Journal C H) :
    Prop where
  | stands (h : (w.table t).find? n = some d)
  | clearing (c : ComponentId) (h : .clearing c t n (some d) ∈ j.underWay)
  | gone (h : w.Lacks d)

namespace Record

/-- What has not happened to a record leaves it as it is. -/
theorem mono (h : Record t n d w j) (hlacks : w.Lacks d → w'.Lacks d)
    (hstands : (w.table t).find? n = some d → (w'.table t).find? n = some d)
    (hphases : ∀ c, .clearing c t n (some d) ∈ j.underWay →
      .clearing c t n (some d) ∈ j'.underWay) : Record t n d w' j' := by
  cases h with
  | stands h => exact .stands (hstands h)
  | clearing c h => exact .clearing c (hphases c h)
  | gone h => exact .gone (hlacks h)

theorem step (h : Record t n d x.1 x.2) (hqueues : Queues x.1 x.2) (hvm : x.1.Hosts d.vm)
    (hissued : ∀ i ∈ d.ids, i.index < (x.1.ledgerOf d.vm).next) (hstep : Step x y) :
    Record t n d y.1 y.2 := by
  have hlacks (h : x.1.Lacks d) : y.1.Lacks d := h.of_grows hstep.grows hvm hissued
  cases hstep with
  | rest hrests => exact h.mono hlacks (fun h ↦ hrests.table t ▸ h) fun _ hf ↦ hf
  | enter _ => exact h.mono hlacks (fun h ↦ h) fun _ hf ↦ List.mem_cons_of_mem _ hf
  | fail hinnermost => exact h.mono hlacks (fun h ↦ h) fun _ hf ↦ mem_tail hinnermost hf nofun
  | @settle w j c' t' n' copy d' phases hinnermost _ _ _ =>
    refine h.mono hlacks (fun h ↦ ?_) fun _ hf ↦ mem_tail hinnermost hf nofun
    -- The node of the component that is being mounted is free.
    have hfree : (w.table t').find? n' = none :=
      hqueues.free c' t' n' (hinnermost ▸ List.mem_cons_self)
    have hne : ¬ (t = t' ∧ n = n') := by
      rintro ⟨rfl, rfl⟩
      exact nomatch h.symm.trans hfree
    refine Eq.trans ?_ h
    change ((w.modifyTable t' fun T ↦ T.insert n' d').table t).find? n = _
    rw [World.table_modifyTable]
    split
    case isTrue ht => exact MountTable.find?_insert_of_ne _ (fun hn ↦ hne ⟨ht.1, hn⟩) d'
    case isFalse => rfl
  | leave _ => exact h.mono hlacks (fun h ↦ h) fun _ hf ↦ List.mem_cons_of_mem _ hf
  | @clear w j c' t' n' phases hinnermost =>
    cases h with
    | stands h =>
      by_cases heq : t = t' ∧ n = n'
      · obtain ⟨rfl, rfl⟩ := heq
        refine .clearing c' ?_
        rw [← h]
        exact List.mem_cons_self
      · exact .stands ((World.find?_erased_of_ne heq).trans h)
    | clearing c h => exact .clearing c (List.mem_cons_of_mem _ (mem_tail hinnermost h nofun))
    | gone h => exact .gone (hlacks h)
  | @finish w j c' t' n' found' roots phases hinnermost _ hremoved =>
    cases h with
    | stands h => exact .stands h
    | clearing c h =>
      by_cases heq : Phase.clearing c t n (some d) = .clearing c' t' n' found'
      · obtain ⟨rfl, rfl, rfl, rfl⟩ := Phase.clearing.inj heq
        exact .gone (hlacks (hremoved d rfl))
      · exact .clearing c (mem_tail hinnermost h heq)
    | gone h => exact .gone (hlacks h)

end Record

/-- What is known of a component that was mounted, and of what was recorded, in a world, then. -/
structure Traces (c : ComponentId) (t : TableId) (n : NodeId) (d : Disposer C) (w₁ w : World C H)
    (j : Journal C H) : Prop where
  known : c.index < w.components.size
  vm : d.vm = (w.component c).vm
  issued : ∀ i ∈ d.ids, i.index < (w.ledgerOf d.vm).next
  whereabouts : Whereabouts c n w j
  record : t.index < w₁.tables.size → Record t n d w j

namespace Traces

variable {w₁ : World C H} {phases : List (Phase C)}

theorem step (h : Traces c t n d w₁ x.1 x.2) (hhoused : x.1.Housed) (hqueues : Queues x.1 x.2)
    (hplaces : Places c x.1 x.2) (hstep : Step x y) : Traces c t n d w₁ y.1 y.2 := by
  have hgrows := hstep.grows
  have hhosts : x.1.Hosts d.vm := h.vm ▸ hhoused c h.known
  exact {
    known := Nat.lt_of_lt_of_le h.known hgrows.components
    vm := h.vm.trans (hgrows.vm c h.known).symm
    issued := fun i hi ↦ Nat.lt_of_lt_of_le (h.issued i hi) (hgrows.ledgerOf hhosts).next
    whereabouts := h.whereabouts.step hplaces hstep
    record := fun ht ↦ (h.record ht).step hqueues hhosts h.issued hstep }

/-- What was just recorded stands in the table, if there is one. -/
theorem of_settle {copy : NodeId} (hhoused : w.Housed) (hknown : c.index < w.components.size)
    (hvm : d.vm = (w.component c).vm) (hrecorded : d.ids ⊆ (w.ledgerOf d.vm).ids)
    (hw₁ : w₁.tables.size = w.tables.size) :
    Traces c t n d w₁ (w.settled c t n copy d) (j.settle c t n d w₁) := by
  obtain ⟨l, hl, hsound⟩ := (hvm ▸ hhoused c hknown : w.Hosts d.vm).ledger
  have hissued : ∀ i ∈ d.ids, i.index < (w.ledgerOf d.vm).next := by
    rw [World.ledgerOf_of_ledger? hl] at hrecorded ⊢
    exact fun i hi ↦ hsound.lt i (hrecorded hi)
  have hcomponent := World.component_modifyComponent_self
    (w := (w.modifyTable t fun T ↦ T.insert n d).modifyNodes fun nodes ↦ nodes.append n copy) hknown
    fun k ↦ { k with mounted := some (n, (w.nodes.get copy).children) }
  constructor
  · exact Nat.lt_of_lt_of_le hknown (World.Grows.modifyComponent _ c _).components
  · exact hvm.trans (congrArg Component.vm hcomponent).symm
  · exact hissued
  · exact .mounted _ (congrArg Component.mounted hcomponent)
  · refine fun ht ↦ .stands ?_
    change ((w.modifyTable t fun T ↦ T.insert n d).table t).find? n = some d
    rw [World.table_modifyTable, if_pos ⟨rfl, hw₁ ▸ ht⟩]
    exact MountTable.find?_insert_self _ n d

/-- When an unmount has disposed what it has found, nothing is left of what was recorded. -/
theorem lacks {n' : NodeId} {found : Option (Disposer C)} (h : Traces c t n d w₁ w j)
    (ht : t.index < w₁.tables.size) (hqueues : Queues w j) (hplaces : Places c w j)
    (hinnermost : j.underWay = .clearing c t n' found :: phases)
    (hremoved : ∀ d, found = some d → w.Lacks d) : w.Lacks d := by
  have hmem : .clearing c t n' found ∈ j.underWay := hinnermost ▸ List.mem_cons_self
  obtain ⟨t', heq⟩ | ⟨t', found', heq⟩ := h.whereabouts.of_innermost hplaces hinnermost rfl
  · contradiction
  · -- The component was mounted on the node from which it is being unmounted.
    obtain ⟨-, rfl, rfl, rfl⟩ := Phase.clearing.inj heq
    cases h.record ht with
    | stands h => exact nomatch h.symm.trans (hqueues.cleared c t n' found hmem)
    | clearing c' h =>
      obtain ⟨-, -, -, hfound⟩ := Phase.clearing.inj (hqueues.eq_of_mem hinnermost h rfl)
      exact hremoved d hfound.symm
    | gone h => exact h

end Traces

/-! ## Whole runs -/

/-- What is known of a component along a run. -/
structure Accounts (c : ComponentId) (w : World C H) (j : Journal C H) : Prop where
  housed : w.Housed
  queues : Queues w j
  places : Places c w j
  came : ∀ n, Whereabouts c n w j → ∃ t n d w', .mounted c t n d w' ∈ j.passages
  traces : ∀ t n d w', .mounted c t n d w' ∈ j.passages → Traces c t n d w' w j
  departed : ∀ t w', .left c t w' ∈ j.passages → w'.Departed c
  order : j.passages.Pairwise (Passage.Precedes c)

theorem order_concat {ps : List (Passage C H)} {p : Passage C H}
    (h : ps.Pairwise (Passage.Precedes c)) (hp : ∀ q ∈ ps, q.Precedes c p) :
    (ps ++ [p]).Pairwise (Passage.Precedes c) := by
  refine List.pairwise_append.mpr ⟨h, List.pairwise_singleton _ _, fun q hq p' hp' ↦ ?_⟩
  obtain rfl := List.mem_singleton.mp hp'
  exact hp q hq

theorem Accounts.step (h : Accounts c x.1 x.2) (hstep : Step x y) (hfair : y.2.Fair c) :
    Accounts c y.1 y.2 := by
  have hgrows := hstep.grows
  have hqueues := h.queues.step hstep hfair.inHooks
  have hplaces := h.places.step h.housed hstep hfair.patient
  have hcame (n : NodeId) (hwhere : Whereabouts c n y.1 y.2) :
      ∃ t n d w', .mounted c t n d w' ∈ y.2.passages := by
    rcases hwhere.of_step hstep with ⟨n', hbefore⟩ | hnew
    · obtain ⟨t, n, d, w', hmem⟩ := h.came n' hbefore
      exact ⟨t, n, d, w', hstep.passages_prefix.subset hmem⟩
    · exact hnew
  have htraces (t : TableId) (n : NodeId) (d : Disposer C) (w' : World C H)
      (hmem : .mounted c t n d w' ∈ x.2.passages) : Traces c t n d w' y.1 y.2 :=
    (h.traces t n d w' hmem).step h.housed h.queues h.places hstep
  have hhoused := hgrows.housed h.housed
  cases hstep with
  | rest _ => exact ⟨hhoused, hqueues, hplaces, hcame, htraces, h.departed, h.order⟩
  | fail _ => exact ⟨hhoused, hqueues, hplaces, hcame, htraces, h.departed, h.order⟩
  | clear _ => exact ⟨hhoused, hqueues, hplaces, hcame, htraces, h.departed, h.order⟩
  | enter _ =>
    refine ⟨hhoused, hqueues, hplaces, hcame,
      fun t n d w' hmem ↦ htraces t n d w' (of_mem_concat hmem nofun),
      fun t w' hl ↦ h.departed t w' (of_mem_concat hl nofun), order_concat h.order fun q _ ↦ ?_⟩
    cases q with | _ => trivial
  | leave _ =>
    refine ⟨hhoused, hqueues, hplaces, hcame,
      fun t n d w' hmem ↦ htraces t n d w' (of_mem_concat hmem nofun),
      fun t w' hl ↦ h.departed t w' (of_mem_concat hl nofun), order_concat h.order fun q _ ↦ ?_⟩
    cases q with | _ => trivial
  | @settle w j c' t n copy d phases hinnermost hknown hscope hrecorded =>
    refine ⟨hhoused, hqueues, hplaces, hcame, fun t' n' d' w' hmem ↦ ?_,
      fun t w' hl ↦ h.departed t w' (of_mem_concat hl nofun),
      order_concat h.order fun q hq ↦ ?_⟩
    · rcases List.mem_append.mp hmem with hmem | hmem
      · exact htraces t' n' d' w' hmem
      · obtain ⟨rfl, rfl, rfl, rfl, rfl⟩ := Passage.mounted.inj (List.mem_singleton.mp hmem)
        exact .of_settle h.housed hknown hscope hrecorded (Array.size_modify ..)
    · cases q with
      | left c₁ t₁ w₁ =>
        intro hc₁ hc'
        subst hc₁ hc'
        exact Whereabouts.not_carrying (n := n) (.left t₁ w₁ hq) h.places hinnermost
      | mounted c₁ t₁ n₁ d₁ w₁ =>
        intro hc₁ hc'
        subst hc₁ hc'
        exact (h.traces t₁ n₁ d₁ w₁ hq).whereabouts.not_carrying h.places hinnermost
      | entering => trivial
      | leaving => trivial
  | @finish w j c' t n found roots phases hinnermost hknown hremoved =>
    refine ⟨hhoused, hqueues, hplaces, hcame, fun t' n' d' w' hmem ↦ ?_, fun t' w' hl ↦ ?_,
      order_concat h.order fun q hq ↦ ?_⟩
    · exact htraces t' n' d' w' (of_mem_concat hmem nofun)
    · rcases List.mem_append.mp hl with hold | hnew
      · exact h.departed t' w' hold
      · obtain ⟨rfl, rfl, rfl⟩ := Passage.left.inj (List.mem_singleton.mp hnew)
        exact (hplaces.left _ _ hl).2
    · cases q with
      | mounted c₁ t₁ n₁ d w₁ =>
        intro hc₁ hc'
        subst hc₁ hc'
        have htrace := h.traces t₁ n₁ d w₁ hq
        refine ⟨(htraces t₁ n₁ d w₁ hq).vm, fun htable ht ↦ ?_⟩
        subst htable
        have hlacks : w.Lacks d := htrace.lacks ht h.queues h.places hinnermost hremoved
        exact hlacks.of_grows hgrows (htrace.vm ▸ h.housed _ htrace.known) htrace.issued
      | entering => trivial
      | leaving => trivial
      | left => trivial

/-- A component that is not mounted to begin with. -/
theorem Accounts.start (hhoused : w.Housed) (hc : (w.component c).mounted = none) :
    Accounts c w {} := by
  refine ⟨hhoused, .of_leaving nofun, ⟨Nat.zero_le _, nofun, nofun⟩, fun n h ↦ ?_, nofun, nofun,
    .nil⟩
  cases h with
  | mounted roots h => exact nomatch h.symm.trans hc
  | leaving t h => exact absurd h List.not_mem_nil
  | clearing t found h => exact absurd h List.not_mem_nil
  | left t w' h => exact absurd h List.not_mem_nil

/-- All of this is kept along a run that is fair. -/
theorem Steps.accounts (h : Accounts c x.1 x.2) (hsteps : Steps x y) (hfair : y.2.Fair c) :
    Accounts c y.1 y.2 := by
  induction hsteps with
  | refl => exact h
  | tail _ hstep ih =>
    have hsubset := hstep.passages_prefix.subset
    have hbefore : Fair c _ :=
      ⟨fun p hp ↦ hfair.inHooks p (hsubset hp), fun p hp ↦ hfair.patient p (hsubset hp)⟩
    exact (ih hbefore).step hstep hfair

end Journal

/-! ## Departures -/

/-- What is so when unmounting a component has answered that it was mounted: what has happened
before and what happens afterwards. -/
structure Departs (client : Client C H) (c : ComponentId) (t : TableId)
    (before : List (Passage C H)) (w : World C H) (after : List (Passage C H))
    (last : LiveState C H) : Prop where
  /-- It is not mounted any more, and its view-model is disposed. -/
  departed : w.Departed c
  /-- It had been mounted just once. What was installed then is gone, if it was recorded in the same
  table. -/
  came : ∃ ps t₀ n d w₀ qs, before = ps ++ .mounted c t₀ n d w₀ :: qs ∧
    (∀ t₁ n' d' w₁, .mounted c t₁ n' d' w₁ ∉ ps ++ qs) ∧ d.vm = (w.component c).vm ∧
    (t₀ = t → t.index < w₀.tables.size → w.Lacks d)
  never : ∀ t' n d w', .mounted c t' n d w' ∉ after
  stays : last.world.Departed c
  refused : ∀ fuel t' n owner, ∃ e,
    client.run fuel (c.mount t' n owner) last = some (.error e, last)

/-- What is accounted for is told by the order of what has happened. -/
theorem Journal.Accounts.departs {client : Client C H} {c : ComponentId} {t : TableId}
    {w : World C H} {j : Journal C H} {st : LiveState C H} (h : Accounts c st.world j)
    {ps qs : List (Passage C H)} (hj : j.passages = ps ++ .left c t w :: qs) :
    Departs client c t ps w qs st := by
  have hleft : .left c t w ∈ j.passages := hj ▸ List.mem_append_right _ List.mem_cons_self
  have hstays := (h.places.left t w hleft).2
  have horder := h.order
  rw [hj, List.pairwise_append, List.pairwise_cons] at horder
  obtain ⟨hps, ⟨hafter, -⟩, hbefore⟩ := horder
  have hnever (t' : TableId) (n : NodeId) (d : Disposer C) (w' : World C H) :
      .mounted c t' n d w' ∉ qs := fun hmem ↦ hafter _ hmem rfl rfl
  constructor
  · exact h.departed t w hleft
  · obtain ⟨t₀, n, d, w₀, hmem⟩ := h.came default (.left t w hleft)
    rw [hj] at hmem
    have hmem : .mounted c t₀ n d w₀ ∈ ps := by
      refine (List.mem_append.mp hmem).resolve_right fun hmem ↦ ?_
      exact hnever t₀ n d w₀ ((List.mem_cons.mp hmem).resolve_left nofun)
    obtain ⟨hvm, hlacks⟩ := hbefore _ hmem _ List.mem_cons_self rfl rfl
    obtain ⟨ps₁, ps₂, rfl⟩ := List.append_of_mem hmem
    refine ⟨ps₁, t₀, n, d, w₀, ps₂, rfl, fun t₁ n' d' w₁ hmem ↦ ?_, hvm, fun heq ht ↦ ?_⟩
    · rw [List.pairwise_append, List.pairwise_cons] at hps
      obtain ⟨-, ⟨hlater, -⟩, hearlier⟩ := hps
      rcases List.mem_append.mp hmem with hmem | hmem
      · exact hearlier _ hmem _ List.mem_cons_self rfl rfl
      · exact hlater _ hmem rfl rfl
    · exact hlacks heq (heq ▸ ht)
  · exact hnever
  · exact hstays
  · intro fuel t' n owner
    obtain ⟨e, he⟩ := hstays.refusal? t' n
    exact ⟨e, Client.run_mount_of_refusal he⟩

/-- **Who has left does not come back.** Let hooks mount and unmount any components on any nodes,
but let none mount a component that is being unmounted. Then whenever an unmount answers that the
component was mounted, it is not mounted and its view-model is disposed, nothing of it is left in
the ledger, and it is never mounted again. -/
theorem Household.Rests.departs_for_good {η : Household C H} (h : η.Rests) {fuel : Nat}
    {code : Chore C H α} {st st' : LiveState C H} {a : α} {c : ComponentId}
    (hcode : code.Rests st.world) (hhoused : st.world.Housed) (hc : (st.world.component c).mounted = none)
    (hrun : η.client.run fuel code.plain st = some (a, st')) :
    ∃ j, η.journaled.run fuel code.journaled (st.beside {}) = some (a, st'.beside j) ∧
      (j.Fair c → ∀ ps t w qs, j.passages = ps ++ .left c t w :: qs →
        Departs η.client c t ps w qs st') := by
  obtain ⟨j, hjournaled, hsteps⟩ := h.steps hcode hrun
  refine ⟨j, hjournaled, fun hfair ps t w qs hj ↦ ?_⟩
  exact (hsteps.accounts (.start hhoused hc) hfair).departs hj

/-! ### A revenant -/

namespace Revenant

/-- What a hook does with a component. -/
inductive Task where
  | mount (c : ComponentId) (node : NodeId)
  | unmount (c : ComponentId)

def household : Household Task Unit where
  perform
    | .mount c node => .mount c ⟨0⟩ node none fun _ ↦ .done ()
    | .unmount c => .unmount c ⟨0⟩ fun _ ↦ .done ()
  bind _ _ _ _ := .done (.error "never")
  link _ _ _ := .done (.ok ())

def compiler : Compiler Task := { registry := .builtin }

def template : Tree NodeId := .fragment ⟨0⟩ [.element ⟨1⟩ "p" [("v-bind", "name")] []]

def room (n : Nat) : Tree NodeId := .element ⟨n⟩ "div" [] []

/-- The template and two rooms, and two components, the first of which has hooks. -/
def state (mounted destroy : List Task) : LiveState Task Unit where
  graph := .empty
  world := {
    nodes := (((NodeStore.empty.plant template).2.plant (room 2)).2.plant (room 3)).2
    viewModels := #[⟨[], ⟨0⟩, ⟨0⟩, false, false⟩, ⟨[], ⟨1⟩, ⟨1⟩, false, false⟩]
    ledgers := #[.empty, .empty]
    lifecycles := #[{ mounted, destroy }, {}]
    tables := #[.empty]
    components := #[⟨"host", ⟨0⟩, some ⟨0⟩, (compiler.compile template).1, none⟩,
      ⟨"guest", ⟨1⟩, some ⟨0⟩, (compiler.compile template).1, none⟩]
    host := () }

/-- The first component moves in, out, and in again. -/
def visit : Chore Task Unit (Bool × Bool × Bool) :=
  .mount ⟨0⟩ ⟨0⟩ ⟨2⟩ none fun first ↦ .unmount ⟨0⟩ ⟨0⟩ fun left ↦
    .mount ⟨0⟩ ⟨0⟩ ⟨2⟩ none fun second ↦ .done (first.isOk, left, second.isOk)

theorem household_rests : household.Rests := by
  constructor
  · intro task w
    cases task with
    | mount c node => exact fun _ _ ↦ trivial
    | unmount c => exact fun _ _ ↦ trivial
  · exact fun _ _ _ _ _ ↦ trivial
  · exact fun _ _ _ _ ↦ trivial

theorem housed (mounted destroy : List Task) : (state mounted destroy).world.Housed := by
  rintro ⟨_ | _ | c⟩ hc
  · exact ⟨Nat.zero_lt_two, .empty, rfl, Ledger.sound_empty⟩
  · exact ⟨Nat.one_lt_two, .empty, rfl, Ledger.sound_empty⟩
  · exact absurd hc (Nat.not_lt.mpr (Nat.le_add_left 2 c))

/-- Whether this is the first component's leaving. -/
def isDeparture : Passage Task Unit → Bool
  | .left c _ _ => c == ⟨0⟩
  | _ => false

/-- A guest comes by a hook of the host, and leaves by another one, while the host is leaving. -/
def hosting : LiveState Task Unit := state [.mount ⟨1⟩ ⟨3⟩] [.unmount ⟨1⟩]

theorem host_departs : ∃ (st' : LiveState Task Unit) (ps qs : List (Passage Task Unit))
    (t : TableId) (w : World Task Unit),
    household.client.run 6 visit.plain hosting = some ((true, true, false), st') ∧
      Departs household.client ⟨0⟩ t ps w qs st' := by
  have hanswer : (household.client.run 6 visit.plain hosting).map (·.1) =
      some (true, true, false) := by decide +kernel
  have hjournal : (household.journaled.run 6 visit.journaled (hosting.beside {})).map (fun x ↦
      decide (∀ p ∈ x.2.world.2.passages, p.InHooks ∧ p.Patient ⟨0⟩) &&
        x.2.world.2.passages.any isDeparture) = some true := by decide +kernel
  obtain ⟨⟨answer, st'⟩, hrun, rfl⟩ := Option.map_eq_some_iff.mp hanswer
  have hcode : visit.Rests hosting.world := fun _ _ _ _ _ _ ↦ trivial
  obtain ⟨j, hjournaled, hdeparts⟩ :=
    household_rests.departs_for_good (c := ⟨0⟩) hcode (housed _ _) rfl hrun
  rw [hjournaled] at hjournal
  obtain ⟨hfair, hany⟩ := Bool.and_eq_true_iff.mp (Option.some.inj hjournal)
  have hfair := of_decide_eq_true hfair
  obtain ⟨p, hp, hleft⟩ := List.any_eq_true.mp hany
  cases p with
  | left c t w =>
    obtain rfl : c = ⟨0⟩ := eq_of_beq hleft
    obtain ⟨ps, qs, hj⟩ := List.append_of_mem hp
    exact ⟨st', ps, qs, t, w, hrun,
      hdeparts ⟨fun p hp ↦ (hfair p hp).1, fun p hp ↦ (hfair p hp).2⟩ ps t w qs hj⟩
  | _ => contradiction

/-- A destroy hook mounts the component itself in the other room. Unmounting answers that it was
mounted, and it is: its view-model is disposed, and what it has installed stays in the ledger. -/
theorem comes_back :
    (household.client.run 6 visit.plain (state [] [.mount ⟨0⟩ ⟨3⟩])).map (fun x ↦
      (x.1, (x.2.world.component ⟨0⟩).mounted.map Prod.fst, (x.2.world.viewModel ⟨0⟩).disposed,
        (x.2.world.ledgerOf ⟨0⟩).ids)) =
      some ((true, true, false), some ⟨3⟩, true, [⟨1⟩]) := by
  decide +kernel

end Revenant

end LiveMarkup
