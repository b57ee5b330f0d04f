import LiveMarkup.Proofs.Live.Discipline

/-!
# Keeping books

A session is a row of operations around the ledger of one view-model, in any order: programs are
executed, bindings are entered directly, those are removed again, and disposers are consumed.
Whoever works like this can keep books of what is still there (`Books`): the entries that were made
directly, and the disposers that were not consumed. Like code of a client, a session can be carried
out plainly and with minutes.

The books are right (`Books.Kept`) if they list the ledger, and every disposer lists some of it in
the order of the ledger. There are only two ways in which the ledger of a view-model changes from
one operation to the next: something is gained, or something is removed that was there. Each has its
lemma (`Books.Kept.gain`, `Books.Kept.lose`).
-/

namespace LiveMarkup

variable {C H : Type}

/-- What there is in a ledger, and by what it was made. -/
structure Books (C : Type) where
  /-- The entries that were made directly and not removed, in order. -/
  direct : List (BindingId × Binding C)
  /-- The disposers that were not consumed, in order. -/
  held : List (Disposer C)
  /-- The identities of all that was ever made. -/
  made : List BindingId

namespace Books

/-- The books of a ledger, all of whose entries were made directly. -/
def start (l : Ledger (Binding C)) : Books C := ⟨l.entries, [], l.ids⟩

/-- What there is in the books. -/
def entries (bk : Books C) : List (BindingId × Binding C) :=
  bk.direct ++ bk.held.flatMap Disposer.owned

/-- The books with one entry more that was made directly. -/
def register (bk : Books C) (i : BindingId) (b : Binding C) : Books C :=
  { bk with direct := bk.direct ++ [(i, b)], made := bk.made ++ [i] }

/-- The books after an execution. -/
def execute (bk : Books C) : Except LinkError (Disposer C) → Books C
  | .ok d => { bk with held := bk.held ++ [d], made := bk.made ++ d.ids }
  | .error _ => bk

theorem entries_execute_ok (bk : Books C) (d : Disposer C) :
    (bk.execute (.ok d)).entries = bk.entries ++ d.owned := by
  rw [entries, entries, execute, List.flatMap_append, List.append_assoc, List.flatMap_singleton]

theorem entries_register (bk : Books C) (i : BindingId) (b : Binding C) :
    (bk.register i b).entries.Perm (bk.entries ++ [(i, b)]) := by
  rw [entries, entries, register, List.append_assoc, List.append_assoc]
  exact List.perm_append_comm.append_left _

/-- The books without one of the direct entries. -/
theorem entries_of_direct {bk : Books C} {i : Nat} {e : BindingId × Binding C}
    (he : bk.direct[i]? = some e) :
    bk.entries.Perm ([e] ++ { bk with direct := bk.direct.eraseIdx i : Books C }.entries) := by
  obtain ⟨hi, rfl⟩ := List.getElem?_eq_some_iff.mp he
  exact (List.getElem_cons_eraseIdx_perm hi).symm.append_right _

/-- The books without one of the disposers. -/
theorem entries_of_held {bk : Books C} {i : Nat} {d : Disposer C} (hd : bk.held[i]? = some d) :
    bk.entries.Perm (d.owned ++ { bk with held := bk.held.eraseIdx i : Books C }.entries) := by
  obtain ⟨hi, rfl⟩ := List.getElem?_eq_some_iff.mp hd
  have hheld := (List.getElem_cons_eraseIdx_perm hi).symm.flatMap_right Disposer.owned
  rw [List.flatMap_cons] at hheld
  exact (hheld.append_left _).trans (List.perm_append_comm_assoc ..)

/-- Whether the books are right. -/
structure Kept (vm : ViewModelId) (l : Ledger (Binding C)) (bk : Books C) : Prop where
  /-- The identities in the ledger ascend, and are below its mark. -/
  sound : l.Sound
  /-- The ledger has the direct entries, and those that the disposers own. -/
  entries : l.entries.Perm bk.entries
  vm : ∀ d ∈ bk.held, d.vm = vm
  /-- What a disposer owns stands in the ledger, in order. -/
  owned : ∀ d ∈ bk.held, d.owned.Sublist l.entries
  /-- No identity was handed out twice. -/
  ascending : BindingId.Ascending bk.made
  lt : ∀ b ∈ bk.made, b.index < l.next
  made : l.ids ⊆ bk.made

namespace Kept

variable {vm : ViewModelId} {l l' : Ledger (Binding C)} {bk bk' : Books C}
  {new part : List (BindingId × Binding C)} {gone : List BindingId}

theorem start (vm : ViewModelId) (hl : l.Sound) : (Books.start l).Kept vm l where
  sound := hl
  entries := by
    rw [Books.entries, Books.start, List.flatMap_nil, List.append_nil]
  vm _ hd := absurd hd List.not_mem_nil
  owned _ hd := absurd hd List.not_mem_nil
  ascending := hl.ascending
  lt := hl.lt
  made := List.Subset.refl _

/-- Direct entries and those of disposers have different identities. -/
theorem nodup (h : bk.Kept vm l) : (bk.entries.map Prod.fst).Nodup :=
  (h.entries.map Prod.fst).nodup_iff.mp h.sound.nodup

/-- What a disposer owns is in the ledger, and no other disposer owns it, nor was it made
directly. -/
theorem apart (h : bk.Kept vm l) : bk.held.Pairwise fun d d' ↦ d.ids.Disjoint d'.ids := by
  have hnodup := h.nodup
  rw [Books.entries, List.map_append, List.map_flatMap] at hnodup
  exact (List.nodup_flatMap.mp hnodup.of_append_right).2

/-- Something is gained, and the books say by what. -/
theorem gain (h : bk.Kept vm l) (hg : l.Gains l' new gone)
    (hentries : bk'.entries.Perm (bk.entries ++ new))
    (hheld : ∀ d ∈ bk'.held, d ∈ bk.held ∨ d = ⟨vm, new⟩)
    (hmade : bk'.made = bk.made ++ new.map Prod.fst) : bk'.Kept vm l' where
  sound := hg.sound h.sound
  entries := by
    rw [hg.entries]
    exact (h.entries.append_right new).trans hentries.symm
  vm d hd := by
    rcases hheld d hd with hd | rfl
    · exact h.vm d hd
    · rfl
  owned d hd := by
    rw [hg.entries]
    rcases hheld d hd with hd | rfl
    · exact (h.owned d hd).trans (List.sublist_append_left _ _)
    · exact List.sublist_append_right _ _
  ascending := by
    rw [hmade]
    refine List.pairwise_append.mpr ⟨h.ascending, hg.ascending, fun a ha b hb ↦ ?_⟩
    exact Nat.lt_of_lt_of_le (h.lt a ha) (hg.mem_issued hb).1
  lt b hb := by
    rw [hmade] at hb
    rcases List.mem_append.mp hb with hb | hb
    · exact Nat.lt_of_lt_of_le (h.lt b hb) hg.next
    · exact (hg.mem_issued hb).2
  made := by
    rw [hmade, Ledger.ids, hg.entries, List.map_append]
    exact List.append_subset.mpr ⟨fun b hb ↦ List.mem_append_left _ (h.made hb),
      List.subset_append_right _ _⟩

/-- Something is removed that was there, and the books are without it. -/
theorem lose (h : bk.Kept vm l) (hentries : bk.entries.Perm (part ++ bk'.entries))
    (hheld : bk'.held.Sublist bk.held) (hmade : bk'.made = bk.made) :
    bk'.Kept vm (l.remove (part.map Prod.fst)) := by
  have hnodup : ((part ++ bk'.entries).map Prod.fst).Nodup :=
    (hentries.map Prod.fst).nodup_iff.mp h.nodup
  rw [List.map_append] at hnodup
  have hdisjoint := List.disjoint_of_nodup_append hnodup
  -- Whatever the books still list has other identities than what is removed.
  have hleft : ∀ e ∈ bk'.entries, e.1 ∉ part.map Prod.fst := fun e he hpart ↦
    hdisjoint hpart (List.mem_map_of_mem he)
  constructor
  · exact h.sound.remove _
  · have hfiltered := (h.entries.trans hentries).filter
      fun e ↦ !(part.map Prod.fst).contains e.1
    rwa [List.filter_append, Ledger.filter_not_contains_self, List.nil_append,
      Ledger.filter_not_contains_eq hleft] at hfiltered
  · exact fun d hd ↦ h.vm d (hheld.subset hd)
  · intro d hd
    -- Nothing is removed that one of the other disposers owns.
    have hothers : ∀ e ∈ d.owned, e.1 ∉ part.map Prod.fst := fun e he ↦
      hleft e (List.mem_append_right _ (List.mem_flatMap.mpr ⟨d, hd, he⟩))
    have hsub := (h.owned d (hheld.subset hd)).filter fun e ↦ !(part.map Prod.fst).contains e.1
    rwa [Ledger.filter_not_contains_eq hothers] at hsub
  · rw [hmade]
    exact h.ascending
  · rw [hmade]
    exact h.lt
  · rw [hmade]
    exact fun b hb ↦ h.made (Ledger.mem_ids_remove.mp hb).1

end Kept

end Books

/-! ## Operations -/

/-- What can be done around the ledger of a view-model. -/
inductive Operation (C : Type) where
  /-- Executes a program, and holds the disposer if that succeeds. -/
  | execute (program : Option (Program C)) (owner : Option ViewModelId)
    (placeholder : Option NodeId) (target : Target)
  /-- Enters a binding. -/
  | register (b : Binding C)
  /-- Removes one of the bindings that were entered, if there are so many. -/
  | remove (i : Nat)
  /-- Consumes one of the disposers, if there are so many. -/
  | dispose (i : Nat)

namespace Operation

variable {M : Type → Type} [Monad M] (manner : Manner C H M) (vm : ViewModelId)

/-- Carries out an operation. -/
def carry : Operation C → Books C → M (Books C)
  | .execute program owner placeholder target, bk => do
    return bk.execute (← manner.execute program ⟨vm, owner, placeholder⟩ target)
  | .register b, bk => do
    let i ← manner.live (Live.act fun w ↦ (((w.ledgerOf vm).register b).1, w.register vm b))
    return bk.register i b
  | .remove i, bk =>
    match bk.direct[i]? with
    | some e => do
      manner.live (Live.change fun w ↦
        w.modifyLedger (w.viewModel vm).ledger fun l ↦ l.remove [e.1])
      return { bk with direct := bk.direct.eraseIdx i }
    | none => return bk
  | .dispose i, bk =>
    match bk.held[i]? with
    | some d => do
      manner.dispose d
      return { bk with held := bk.held.eraseIdx i }
    | none => return bk

/-- Carries out operations one after the other. -/
def carryAll : List (Operation C) → Books C → M (Books C)
  | [], bk => return bk
  | op :: ops, bk => do
    let bk' ← op.carry manner vm bk
    carryAll ops bk'

end Operation

namespace Runner.Mirrors

variable {r' : MinutedRunner C H} {r : LiveRunner C H} {limit : Nat}

theorem operation (h : r'.Mirrors r) (vm : ViewModelId) (op : Operation C) (bk : Books C) :
    r'.Follows r limit (op.carry .minuted vm bk) (op.carry .plain vm bk) := by
  cases op with
  | execute program owner placeholder target =>
    exact (h.execute program ⟨vm, owner, placeholder⟩ target).bind fun result ↦ .done _
  | register b => exact (h.beside limit _).bind fun i ↦ .done _
  | remove i =>
    rw [Operation.carry, Operation.carry]
    cases bk.direct[i]? with
    | none => exact .done bk
    | some e => exact (h.beside limit _).bind fun _ ↦ .done _
  | dispose i =>
    rw [Operation.carry, Operation.carry]
    cases bk.held[i]? with
    | none => exact .done bk
    | some d => exact (h.dispose d).bind fun _ ↦ .done _

theorem operations (h : r'.Mirrors r) (vm : ViewModelId) (ops : List (Operation C))
    (bk : Books C) :
    r'.Follows r limit (Operation.carryAll .minuted vm ops bk)
      (Operation.carryAll .plain vm ops bk) := by
  induction ops generalizing bk with
  | nil => exact .done bk
  | cons op ops ih => exact (h.operation vm op bk).bind fun bk' ↦ ih bk'

end Runner.Mirrors

end LiveMarkup
