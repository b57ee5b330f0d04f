import Mathlib.Data.List.Nodup
import Mathlib.Data.List.Perm.Basic
import LiveMarkup.Model.Ledger

/-!
# What a ledger has gained

Between two moments a ledger hands out the identities from one index up to another. `Ledger.Gains`
accounts for every one of them: either its entry stands in the ledger behind all that stood there
before, or it has gone again. The account passes through time (`Ledger.Gains.trans`), and through
the removal of entries that were gained (`Ledger.Gains.remove`), which is what carries an execution
and its rollback.

A ledger is in order (`Ledger.Sound`) when its entries stand in the order of their identities, all
of which have been handed out. Then the entries since a mark are what was gained since
(`Ledger.Gains.since_eq`), wherever other entries have gone.
-/

namespace LiveMarkup

namespace BindingId

/-- Whether identities follow each other as they are handed out. -/
def Ascending (ids : List BindingId) : Prop := ids.Pairwise fun a b ↦ a.index < b.index

theorem Ascending.nodup {ids : List BindingId} (h : Ascending ids) : ids.Nodup :=
  h.imp fun hlt heq ↦ Nat.ne_of_lt hlt (congrArg index heq)

/-- The identities that are handed out while the next index goes from `m` to `n`, in order. -/
def issued (m n : Nat) : List BindingId := (List.range' m (n - m)).map mk

theorem mem_issued {m n : Nat} {b : BindingId} :
    b ∈ issued m n ↔ m ≤ b.index ∧ b.index < n := by
  rw [issued, List.mem_map]
  constructor
  · rintro ⟨i, hi, rfl⟩
    rw [List.mem_range'_1] at hi
    have hlt : i < n := by omega
    exact ⟨hi.1, hlt⟩
  · intro h
    exact ⟨b.index, List.mem_range'_1.mpr ⟨h.1, by omega⟩, rfl⟩

theorem nodup_issued (m n : Nat) : (issued m n).Nodup :=
  (List.nodup_range' 1).map fun _ _ h ↦ congrArg index h

theorem issued_append {m n k : Nat} (h : m ≤ n) (h' : n ≤ k) :
    issued m n ++ issued n k = issued m k := by
  have hstart : m + 1 * (n - m) = n := by omega
  have hlength : n - m + (k - n) = k - m := by omega
  rw [issued, issued, issued, ← List.map_append, ← hlength, ← List.range'_append, hstart]

@[simp] theorem issued_self (m : Nat) : issued m m = [] := by
  rw [issued, Nat.sub_self]
  rfl

theorem issued_succ (m : Nat) : issued m (m + 1) = [⟨m⟩] := by
  rw [issued, Nat.add_sub_cancel_left]
  rfl

end BindingId

namespace Ledger

variable {β : Type} {l l' l'' : Ledger β}

/-- Whether the entries stand in the order of their identities, all of which were handed out. -/
structure Sound (l : Ledger β) : Prop where
  ascending : BindingId.Ascending l.ids
  lt : ∀ b ∈ l.ids, b.index < l.next

theorem sound_empty : (empty : Ledger β).Sound :=
  ⟨List.Pairwise.nil, fun _ h ↦ absurd h List.not_mem_nil⟩

theorem mem_ids_remove {ids : List BindingId} {b : BindingId} :
    b ∈ (l.remove ids).ids ↔ b ∈ l.ids ∧ b ∉ ids := by
  simp only [Ledger.ids, Ledger.remove, List.mem_map, List.mem_filter, Bool.not_eq_true',
    List.contains_eq_mem, decide_eq_false_iff_not]
  constructor
  · rintro ⟨e, ⟨he, hnot⟩, rfl⟩
    exact ⟨⟨e, he, rfl⟩, hnot⟩
  · rintro ⟨⟨e, he, rfl⟩, hnot⟩
    exact ⟨e, ⟨he, hnot⟩, rfl⟩

theorem Sound.nodup (h : l.Sound) : l.ids.Nodup := h.ascending.nodup

theorem Sound.remove (h : l.Sound) (ids : List BindingId) : (l.remove ids).Sound := by
  have hsublist : (l.remove ids).ids.Sublist l.ids := List.filter_sublist.map _
  exact ⟨h.ascending.sublist hsublist, fun b hb ↦ h.lt b (hsublist.subset hb)⟩

/-- Removing identities leaves alone whoever has none of them. -/
theorem filter_not_contains_eq {es : List (BindingId × β)} {ids : List BindingId}
    (h : ∀ e ∈ es, e.1 ∉ ids) : es.filter (fun e ↦ !ids.contains e.1) = es := by
  refine List.filter_eq_self.mpr fun e he ↦ ?_
  simpa using h e he

theorem filter_not_contains_self (es : List (BindingId × β)) :
    es.filter (fun e ↦ !(es.map Prod.fst).contains e.1) = [] := by
  refine List.filter_eq_nil_iff.mpr fun e he ↦ ?_
  simpa using ⟨e.2, he⟩

/-- Among entries with different identities, those of a part are told by their identities. -/
theorem filter_contains_of_sublist {part all : List (BindingId × β)} (h : part.Sublist all)
    (hall : (all.map Prod.fst).Nodup) :
    all.filter (fun e ↦ (part.map Prod.fst).contains e.1) = part := by
  induction h with
  | slnil => rfl
  | @cons part all e hpart ih =>
    obtain ⟨he, hrest⟩ := List.nodup_cons.mp hall
    have hnot : e.1 ∉ part.map Prod.fst := fun hmem ↦ he ((hpart.map _).subset hmem)
    rw [List.filter_cons, if_neg (by simpa using hnot)]
    exact ih hrest
  | @cons_cons part all e hpart ih =>
    obtain ⟨he, hrest⟩ := List.nodup_cons.mp hall
    rw [List.filter_cons, if_pos (by simp)]
    -- No other entry has the identity of the first, which makes no difference behind it.
    refine congrArg (List.cons e) ((List.filter_congr fun x hx ↦ ?_).trans (ih hrest))
    have hne : x.1 ≠ e.1 := fun heq ↦ he (heq ▸ List.mem_map_of_mem hx)
    simp [hne]

/-- What a ledger has gained: entries that are there and behind all others, and identities that
were handed out and whose entries have gone again. -/
structure Gains (l l' : Ledger β) (new : List (BindingId × β)) (gone : List BindingId) :
    Prop where
  entries : l'.entries = l.entries ++ new
  next : l.next ≤ l'.next
  issued : (gone ++ new.map Prod.fst).Perm (BindingId.issued l.next l'.next)
  ascending : BindingId.Ascending (new.map Prod.fst)

namespace Gains

variable {new new' : List (BindingId × β)} {gone gone' : List BindingId}

theorem refl (l : Ledger β) : l.Gains l [] [] where
  entries := (List.append_nil _).symm
  next := Nat.le_refl _
  issued := by rw [BindingId.issued_self]; rfl
  ascending := List.Pairwise.nil

theorem register (l : Ledger β) (b : β) : l.Gains (l.register b).2 [(l.watermark, b)] [] where
  entries := rfl
  next := Nat.le_succ _
  issued := by
    rw [next_register, BindingId.issued_succ]
    exact List.Perm.refl _
  ascending := List.pairwise_singleton _ _

theorem mem_issued (h : l.Gains l' new gone) {b : BindingId} (hb : b ∈ new.map Prod.fst) :
    l.next ≤ b.index ∧ b.index < l'.next :=
  BindingId.mem_issued.mp (h.issued.subset (List.mem_append_right _ hb))

theorem gone_issued (h : l.Gains l' new gone) {b : BindingId} (hb : b ∈ gone) :
    l.next ≤ b.index ∧ b.index < l'.next :=
  BindingId.mem_issued.mp (h.issued.subset (List.mem_append_left _ hb))

/-- What has gone does not stand among what is there, and nothing has gone twice. -/
theorem nodup (h : l.Gains l' new gone) : (gone ++ new.map Prod.fst).Nodup :=
  h.issued.nodup_iff.mpr (BindingId.nodup_issued _ _)

theorem trans (h : l.Gains l' new gone) (h' : l'.Gains l'' new' gone') :
    l.Gains l'' (new ++ new') (gone ++ gone') where
  entries := by rw [h'.entries, h.entries, List.append_assoc]
  next := Nat.le_trans h.next h'.next
  issued := by
    rw [← BindingId.issued_append h.next h'.next, List.map_append]
    refine List.Perm.trans ?_ (h.issued.append h'.issued)
    rw [List.append_assoc, List.append_assoc]
    exact (List.perm_append_comm_assoc gone' _ _).append_left gone
  ascending := by
    rw [List.map_append]
    refine List.pairwise_append.mpr ⟨h.ascending, h'.ascending, fun a ha b hb ↦ ?_⟩
    exact Nat.lt_of_lt_of_le (h.mem_issued ha).2 (h'.mem_issued hb).1

theorem sound (h : l.Gains l' new gone) (hl : l.Sound) : l'.Sound where
  ascending := by
    rw [ids, h.entries, List.map_append]
    refine List.pairwise_append.mpr ⟨hl.ascending, h.ascending, fun a ha b hb ↦ ?_⟩
    exact Nat.lt_of_lt_of_le (hl.lt a ha) (h.mem_issued hb).1
  lt b hb := by
    rw [ids, h.entries, List.map_append] at hb
    rcases List.mem_append.mp hb with hb | hb
    · exact Nat.lt_of_lt_of_le (hl.lt b hb) h.next
    · exact (h.mem_issued hb).2

/-- The entries since a mark are those that were gained since. -/
theorem since_eq (h : l.Gains l' new gone) (hl : l.Sound) : l'.since l.watermark = new := by
  rw [since, h.entries, List.filter_append]
  have hold : l.entries.filter (fun e ↦ l.watermark.index ≤ e.1.index) = [] := by
    refine List.filter_eq_nil_iff.mpr fun e he ↦ ?_
    have hlt := hl.lt e.1 (List.mem_map_of_mem he)
    exact fun hle ↦ Nat.not_lt.mpr (of_decide_eq_true hle) hlt
  have hnew : new.filter (fun e ↦ l.watermark.index ≤ e.1.index) = new := by
    refine List.filter_eq_self.mpr fun e he ↦ ?_
    exact decide_eq_true (h.mem_issued (List.mem_map_of_mem he)).1
  rw [hold, hnew, List.nil_append]

/-- Entries that were gained and are removed have gone, and all others are left. -/
theorem remove (h : l.Gains l' new gone) (hl : l.Sound) {part : List (BindingId × β)}
    (hpart : part.Sublist new) :
    l.Gains (l'.remove (part.map Prod.fst))
      (new.filter fun e ↦ !(part.map Prod.fst).contains e.1) (gone ++ part.map Prod.fst) where
  entries := by
    -- What was there before has an identity below those that are removed.
    have hold : ∀ e ∈ l.entries, e.1 ∉ part.map Prod.fst := by
      intro e he hmem
      have hlt := hl.lt e.1 (List.mem_map_of_mem he)
      exact Nat.not_lt.mpr (h.mem_issued ((hpart.map _).subset hmem)).1 hlt
    rw [Ledger.remove, h.entries, List.filter_append, filter_not_contains_eq hold]
  next := h.next
  issued := by
    have hsplit := List.filter_append_perm (fun e ↦ (part.map Prod.fst).contains e.1) new
    rw [filter_contains_of_sublist hpart h.ascending.nodup] at hsplit
    have hids := hsplit.map Prod.fst
    rw [List.map_append] at hids
    rw [List.append_assoc]
    exact (hids.append_left gone).trans h.issued
  ascending := h.ascending.sublist (List.filter_sublist.map _)

end Gains

end Ledger

end LiveMarkup
