import LiveMarkup.Proofs.Live.Chronicle

/-!
# What a chronicle says of its table

What happens at a table while code runs is told by a `Story`: a mount begins on a free node and ends
behind whatever the code of its directives has done at the table meanwhile, and a record that is
taken out is followed by the disposal of all its bindings.

A mount does not look again before it records. So a record is overwritten if the same node was
mounted on in between. But if no mount begins on a node while another one is under way there
(`Separate`), then the node stays free while one is (`Story.free`), everything happens at a table
that it fits (`Story.orderly`), and a record stays until it is taken out (`Orderly.find?_replay`).
-/

namespace LiveMarkup

variable {C : Type}

namespace MountTable

variable {T : MountTable C} {n m : NodeId}

theorem find?_erase_self (T : MountTable C) (n : NodeId) : (T.erase n).find? n = none := by
  rw [find?, List.lookup_eq_none_iff]
  intro p hp
  have hne := bne_iff_ne.mp (List.mem_filter.mp hp).2
  exact bne_iff_ne.mpr hne.symm

theorem find?_erase_of_ne (T : MountTable C) (h : m ≠ n) : (T.erase n).find? m = T.find? m := by
  obtain ⟨programs⟩ := T
  rw [find?, find?, erase]
  induction programs with
  | nil => rfl
  | cons p programs ih =>
    obtain ⟨k, d⟩ := p
    by_cases hk : k = n
    · subst hk
      rw [List.filter_cons_of_neg (by simp), ih, List.lookup_cons, beq_false_of_ne h]
    · rw [List.filter_cons_of_pos (by simpa using hk), List.lookup_cons, List.lookup_cons, ih]

theorem erase_of_find?_eq_none (h : T.find? n = none) : T.erase n = T := by
  obtain ⟨programs⟩ := T
  rw [find?, List.lookup_eq_none_iff] at h
  refine congrArg MountTable.mk (List.filter_eq_self.mpr fun p hp ↦ ?_)
  exact bne_iff_ne.mpr (bne_iff_ne.mp (h p hp)).symm

theorem find?_insert_self (T : MountTable C) (n : NodeId) (d : Disposer C) :
    (T.insert n d).find? n = some d := List.lookup_cons_self

theorem find?_insert_of_ne (T : MountTable C) (h : m ≠ n) (d : Disposer C) :
    (T.insert n d).find? m = T.find? m := by
  rw [find?, insert, List.lookup_cons, beq_false_of_ne h]
  exact find?_erase_of_ne T h

theorem isMounted_eq_false : T.isMounted n = false ↔ T.find? n = none := by
  rw [isMounted, Option.isSome_eq_false_iff, Option.isNone_iff_eq_none]

end MountTable

/-! ## Events at a table -/

namespace TableEvent

/-- The table after an event. -/
def after : TableEvent C → MountTable C → MountTable C
  | .mounted n d, T => T.insert n d
  | .unmounted n _, T => T.erase n
  | .begun _, T | .refused _, T | .failed _, T | .disposed .., T => T

/-- Whether an event can happen at a table without losing anything. -/
def Fits : TableEvent C → MountTable C → Prop
  | .begun n, T | .mounted n _, T => T.find? n = none
  | .refused n, T => T.isMounted n = true
  | .unmounted n d, T => T.find? n = some d
  | .failed _, _ | .disposed .., _ => True

end TableEvent

/-- The table after events. -/
def MountTable.replay (T : MountTable C) (h : Chronicle C) : MountTable C :=
  h.foldl (fun T e ↦ e.after T) T

theorem MountTable.replay_append (T : MountTable C) (h h' : Chronicle C) :
    T.replay (h ++ h') = (T.replay h).replay h' := List.foldl_append

/-- What can happen between two tables. -/
inductive Story : MountTable C → Chronicle C → MountTable C → Prop where
  | idle (T : MountTable C) : Story T [] T
  | append {T T' T'' : MountTable C} {h h' : Chronicle C} (first : Story T h T')
      (second : Story T' h' T'') : Story T (h ++ h') T''
  | refused {T : MountTable C} {n : NodeId} (mounted : T.isMounted n = true) :
      Story T [.refused n] T
  | failed {T T' : MountTable C} {n : NodeId} {h : Chronicle C} (free : T.find? n = none)
      (meanwhile : Story T h T') : Story T (.begun n :: (h ++ [.failed n])) T'
  /-- What is recorded takes the place of whatever stands there by then. -/
  | mounted {T T' : MountTable C} {n : NodeId} {h : Chronicle C} (d : Disposer C)
      (free : T.find? n = none) (meanwhile : Story T h T') :
      Story T (.begun n :: (h ++ [.mounted n d])) (T'.insert n d)
  | unmounted {T T' : MountTable C} {n : NodeId} {h : Chronicle C} {d : Disposer C}
      (found : T.find? n = some d) (meanwhile : Story (T.erase n) h T')
      (disposed : (d.ids.map (TableEvent.disposed d.vm)).Sublist h) :
      Story T (.unmounted n d :: h) T'
  | disposed (T : MountTable C) (vm : ViewModelId) (i : BindingId) : Story T [.disposed vm i] T

/-- Whether no mount begins on a node while another one is under way there; on these nodes there is
one under way to begin with. -/
def Separate : List NodeId → Chronicle C → Prop
  | _, [] => True
  | underWay, .begun n :: h => n ∉ underWay ∧ Separate (n :: underWay) h
  | underWay, .failed n :: h | underWay, .mounted n _ :: h => Separate (underWay.erase n) h
  | underWay, .refused _ :: h | underWay, .unmounted .. :: h | underWay, .disposed .. :: h =>
    Separate underWay h

instance instDecidableSeparate : (underWay : List NodeId) → (h : Chronicle C) →
    Decidable (Separate underWay h)
  | _, [] => .isTrue trivial
  | underWay, .begun n :: h => haveI := instDecidableSeparate (n :: underWay) h
    inferInstanceAs (Decidable (_ ∧ _))
  | underWay, .failed n :: h | underWay, .mounted n _ :: h =>
    instDecidableSeparate (underWay.erase n) h
  | underWay, .refused _ :: h | underWay, .unmounted .. :: h | underWay, .disposed .. :: h =>
    instDecidableSeparate underWay h

/-- Whether each event fits the table at which it happens. -/
def Orderly : MountTable C → Chronicle C → Prop
  | _, [] => True
  | T, e :: h => e.Fits T ∧ Orderly (e.after T) h

theorem orderly_append {T : MountTable C} {h h' : Chronicle C} :
    Orderly T (h ++ h') ↔ Orderly T h ∧ Orderly (T.replay h) h' := by
  induction h generalizing T with
  | nil => exact ⟨fun hh ↦ ⟨trivial, hh⟩, And.right⟩
  | cons e h ih => rw [List.cons_append, Orderly, ih, Orderly, and_assoc]; rfl

/-- Whether each record that is taken out is followed by the disposal of its bindings, in order. -/
def Undone : Chronicle C → Prop
  | [] => True
  | .unmounted _ d :: h => (d.ids.map (TableEvent.disposed d.vm)).Sublist h ∧ Undone h
  | .begun _ :: h | .refused _ :: h | .failed _ :: h | .mounted .. :: h | .disposed .. :: h =>
    Undone h

theorem Undone.append {h h' : Chronicle C} (hh : Undone h) (hh' : Undone h') :
    Undone (h ++ h') := by
  induction h with
  | nil => exact hh'
  | cons e h ih =>
    cases e with
    | unmounted n d => exact ⟨hh.1.trans (List.sublist_append_left h h'), ih hh.2⟩
    | _ => exact ih hh

namespace Story

variable {T T' : MountTable C} {h : Chronicle C} {n : NodeId} {underWay : List NodeId}

theorem replay_eq (s : Story T h T') : T.replay h = T' := by
  induction s with
  | idle T => rfl
  | append _ _ ih ih' => rw [MountTable.replay_append, ih, ih']
  | refused _ => rfl
  | failed _ _ ih =>
    rw [← List.cons_append, MountTable.replay_append]
    exact ih
  | mounted d _ _ ih =>
    rw [← List.cons_append, MountTable.replay_append]
    exact congrArg (MountTable.insert · _ d) ih
  | unmounted _ _ _ ih => exact ih
  | disposed T vm i => rfl

/-- Code ends all mounts that it begins. -/
theorem separate_append (s : Story T h T') (h' : Chronicle C) :
    Separate underWay (h ++ h') ↔ Separate underWay h ∧ Separate underWay h' := by
  induction s generalizing underWay h' with
  | idle T => exact ⟨fun hh ↦ ⟨trivial, hh⟩, And.right⟩
  | append _ _ ih ih' => rw [List.append_assoc, ih, ih', ih, and_assoc]
  | refused _ => exact ⟨fun hh ↦ ⟨trivial, hh⟩, And.right⟩
  | @failed _ _ n _ _ _ ih | @mounted _ _ n _ _ _ _ ih =>
    -- What the mount has called has ended by then, so it is the last one under way.
    have hclosed : (n :: underWay).erase n = underWay := List.erase_cons_head n underWay
    rw [List.cons_append, List.append_assoc, Separate, Separate, ih, ih, List.singleton_append,
      Separate, Separate, Separate, hclosed, and_true, and_assoc]
  | unmounted _ _ _ ih => exact ih h'
  | disposed T vm i => exact ⟨fun hh ↦ ⟨trivial, hh⟩, And.right⟩

/-- While a mount is under way on a node, the node stays free. -/
theorem free (s : Story T h T') (hs : Separate underWay h) (hn : n ∈ underWay)
    (hfree : T.find? n = none) : T'.find? n = none := by
  induction s generalizing underWay with
  | idle T => exact hfree
  | append first _ ih ih' =>
    obtain ⟨hs, hs'⟩ := (first.separate_append _).mp hs
    exact ih' hs' hn (ih hs hn hfree)
  | refused _ => exact hfree
  | failed _ meanwhile ih =>
    exact ih ((meanwhile.separate_append _).mp hs.2).1 (List.mem_cons_of_mem _ hn) hfree
  | @mounted _ _ m _ d _ meanwhile ih =>
    -- The mount that is recorded began while the other one was under way.
    have hne : n ≠ m := fun heq ↦ hs.1 (heq ▸ hn)
    rw [MountTable.find?_insert_of_ne _ hne]
    exact ih ((meanwhile.separate_append _).mp hs.2).1 (List.mem_cons_of_mem _ hn) hfree
  | @unmounted T _ m _ _ _ _ _ ih =>
    refine ih hs hn ?_
    by_cases hne : n = m
    · rw [hne, MountTable.find?_erase_self]
    · rw [MountTable.find?_erase_of_ne _ hne, hfree]
  | disposed T vm i => exact hfree

/-- If no mount begins where another one is under way, then everything happens at a table that it
fits. -/
theorem orderly (s : Story T h T') (hs : Separate underWay h) : Orderly T h := by
  induction s generalizing underWay with
  | idle T => trivial
  | append first _ ih ih' =>
    obtain ⟨hs, hs'⟩ := (first.separate_append _).mp hs
    exact orderly_append.mpr ⟨ih hs, first.replay_eq ▸ ih' hs'⟩
  | refused hmounted => exact ⟨hmounted, trivial⟩
  | failed hfree meanwhile ih =>
    have hs' := ((meanwhile.separate_append _).mp hs.2).1
    exact ⟨hfree, orderly_append.mpr ⟨ih hs', trivial, trivial⟩⟩
  | mounted d hfree meanwhile ih =>
    have hs' := ((meanwhile.separate_append _).mp hs.2).1
    -- The node was free when the mount began, and is still free now.
    refine ⟨hfree, orderly_append.mpr ⟨ih hs', ?_, trivial⟩⟩
    exact meanwhile.replay_eq.symm ▸ meanwhile.free hs' List.mem_cons_self hfree
  | unmounted hfound _ _ ih => exact ⟨hfound, ih hs⟩
  | disposed T vm i => exact ⟨trivial, trivial⟩

theorem undone (s : Story T h T') : Undone h := by
  induction s with
  | idle T => trivial
  | append _ _ ih ih' => exact ih.append ih'
  | refused _ => trivial
  | failed _ _ ih => exact ih.append trivial
  | mounted d _ _ ih => exact ih.append trivial
  | unmounted _ _ hdisposed ih => exact ⟨hdisposed, ih⟩
  | disposed T vm i => trivial

end Story

/-! ## Records -/

namespace Orderly

variable {T : MountTable C} {h h₁ h₂ : Chronicle C} {n : NodeId} {d : Disposer C}

theorem fits {e : TableEvent C} (ho : Orderly T (h₁ ++ e :: h₂)) : e.Fits (T.replay h₁) :=
  (orderly_append.mp ho).2.1

/-- A record stays until it is taken out. -/
theorem find?_replay (ho : Orderly T h) (hd : T.find? n = some d)
    (hnot : TableEvent.unmounted n d ∉ h) : (T.replay h).find? n = some d := by
  induction h generalizing T with
  | nil => exact hd
  | cons e h ih =>
    obtain ⟨hfits, hrest⟩ := ho
    refine ih hrest ?_ fun hmem ↦ hnot (List.mem_cons_of_mem e hmem)
    cases e with
    | mounted m d' =>
      have hne : n ≠ m := by
        rintro rfl
        rw [hfits] at hd
        contradiction
      exact (MountTable.find?_insert_of_ne T hne d').trans hd
    | unmounted m d' =>
      have hne : n ≠ m := by
        rintro rfl
        obtain rfl := Option.some.inj (hd.symm.trans hfits)
        exact hnot List.mem_cons_self
      exact (MountTable.find?_erase_of_ne T hne).trans hd
    | _ => exact hd

end Orderly

/-- What is done at a table, from one state of it to another, without losing anything. -/
structure Lossless (T : MountTable C) (h : Chronicle C) (T' : MountTable C) : Prop where
  table : T.replay h = T'
  /-- A mount begins on a free node. -/
  begun : ∀ h₁ n h₂, h = h₁ ++ .begun n :: h₂ → (T.replay h₁).find? n = none
  /-- Only a mount on a node that is not free is refused. -/
  refused : ∀ h₁ n h₂, h = h₁ ++ .refused n :: h₂ → (T.replay h₁).isMounted n = true
  /-- What is recorded takes nobody's place. -/
  mounted : ∀ h₁ n d h₂, h = h₁ ++ .mounted n d :: h₂ → (T.replay h₁).find? n = none
  /-- Between two records of a node, the first one is taken out. -/
  between : ∀ h₁ n d h₂ d' h₃, h = h₁ ++ .mounted n d :: (h₂ ++ .mounted n d' :: h₃) →
    TableEvent.unmounted n d ∈ h₂
  /-- What is recorded is taken out, or still there. -/
  kept : ∀ h₁ n d h₂, h = h₁ ++ .mounted n d :: h₂ →
    TableEvent.unmounted n d ∈ h₂ ∨ T'.find? n = some d
  /-- What is taken out has all its bindings disposed, in the order of their creation. -/
  undone : ∀ h₁ n d h₂, h = h₁ ++ .unmounted n d :: h₂ →
    (d.ids.map (TableEvent.disposed d.vm)).Sublist h₂

theorem Undone.sublist {h₁ h₂ : Chronicle C} {n : NodeId} {d : Disposer C}
    (hu : Undone (h₁ ++ .unmounted n d :: h₂)) :
    (d.ids.map (TableEvent.disposed d.vm)).Sublist h₂ := by
  induction h₁ with
  | nil => exact hu.1
  | cons e h₁ ih =>
    cases e with
    | unmounted m d' => exact ih hu.2
    | _ => exact ih hu

/-- If no mount begins where another one is under way, nothing is lost. -/
theorem Story.lossless {T T' : MountTable C} {h : Chronicle C} (s : Story T h T')
    (hs : Separate [] h) : Lossless T h T' := by
  have ho := s.orderly hs
  constructor
  · exact s.replay_eq
  · rintro h₁ n h₂ rfl
    exact ho.fits
  · rintro h₁ n h₂ rfl
    exact ho.fits
  · rintro h₁ n d h₂ rfl
    exact ho.fits
  · rintro h₁ n d h₂ d' h₃ rfl
    obtain ⟨-, -, hrest⟩ := orderly_append.mp ho
    obtain ⟨hmeanwhile, hfree, -⟩ := orderly_append.mp hrest
    refine Classical.byContradiction fun hnot ↦ ?_
    rw [TableEvent.Fits, hmeanwhile.find?_replay (MountTable.find?_insert_self _ n d) hnot] at hfree
    contradiction
  · rintro h₁ n d h₂ rfl
    obtain ⟨-, -, hrest⟩ := orderly_append.mp ho
    by_cases hmem : TableEvent.unmounted n d ∈ h₂
    · exact .inl hmem
    · refine .inr ?_
      rw [← s.replay_eq, MountTable.replay_append]
      exact hrest.find?_replay (MountTable.find?_insert_self _ n d) hmem
  · rintro h₁ n d h₂ rfl
    exact s.undone.sublist

end LiveMarkup
