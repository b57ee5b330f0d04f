import LiveMarkup.Node.Kept
import LiveMarkup.Proofs.Node.Agreement

/-!
# What operations do to nodes

For each operation, what it makes of every node of the store. An operation that moves nodes first
takes them out, then gives them a parent, then lists them as its children; the three steps have
lemmas of their own.
-/

namespace LiveMarkup

namespace NodeStore

variable {s s' : NodeStore} {n m p r : NodeId} {X : List NodeId}

/-! ## Single nodes -/

theorem get_of_not_lt (h : ¬ n.index < s.size) : s.get n = default := by
  have h' : ¬ n.index < s.nodes.size := h
  simp [get, Array.getD, h']

theorem get_modify (s : NodeStore) (n m : NodeId) (f : Node → Node) :
    (s.modify n f).get m = if m = n ∧ n.index < s.size then f (s.get n) else s.get m := by
  by_cases h : m = n
  · by_cases hlt : n.index < s.size
    · rw [if_pos ⟨h, hlt⟩, h, get_modify_self hlt]
    · rw [if_neg fun hc ↦ hlt hc.2, h, get_of_not_lt hlt, get_of_not_lt]
      rwa [size_modify]
  · rw [if_neg fun hc ↦ h hc.1, get_modify_of_ne fun hc ↦ h hc.symm]

theorem modify_modify (s : NodeStore) (n : NodeId) (f g : Node → Node) :
    (s.modify n f).modify n g = s.modify n (g ∘ f) := by
  refine congrArg NodeStore.mk (Array.ext_getElem? fun i ↦ ?_)
  simp only [modify, Array.getElem?_modify]
  split
  · exact Option.map_map ..
  · rfl

theorem modify_of_eq {f : Node → Node} (h : ∀ node, f node = node) (s : NodeStore) (n : NodeId) :
    s.modify n f = s := by
  refine congrArg NodeStore.mk (Array.ext_getElem? fun i ↦ ?_)
  rw [Array.getElem?_modify, show f = id from funext h]
  split
  · exact Option.map_id' ..
  · rfl

/-- A change to one node agrees elsewhere. -/
theorem agrees_modify (s : NodeStore) (n : NodeId) (f : Node → Node) :
    s.Agrees id [n] (s.modify n f) where
  size := Nat.le_of_eq (size_modify s n f).symm
  get m _ hm := by
    rw [get_modify_of_ne fun h ↦ hm (List.mem_singleton.mpr h.symm)]

/-- Whoever does not see a change agrees everywhere. -/
theorem agrees_modify_of {β : Type} {f : Node → β} (s : NodeStore) (n : NodeId) {g : Node → Node}
    (hg : ∀ node, f (g node) = f node) : s.Agrees f [] (s.modify n g) where
  size := Nat.le_of_eq (size_modify s n g).symm
  get m _ _ := by
    rw [get_modify]
    split
    · rename_i h
      rw [hg, h.1]
    · rfl

/-- A new node changes no other. -/
theorem agrees_create (s : NodeStore) (node : Node) : s.Agrees id [] (s.create node).2 where
  size := by
    rw [size_create]
    exact Nat.le_succ _
  get _ hm _ := congrArg id (get_create_of_lt hm node)

/-- Identities that are handed out in advance change no node. -/
theorem agrees_reserve (s : NodeStore) (k : Nat) : s.Agrees id [] (s.reserve k) := by
  induction k generalizing s with
  | zero => exact Agrees.refl _ _ _
  | succ k ih => exact (s.agrees_create default).trans (ih _)

theorem get_create (s : NodeStore) (node : Node) (m : NodeId) :
    (s.create node).2.get m = if m = ⟨s.size⟩ then node else s.get m := by
  by_cases h : m = ⟨s.size⟩
  · rw [if_pos h, h]
    exact get_create_self s node
  · rw [if_neg h]
    by_cases hlt : m.index < s.size
    · exact get_create_of_lt hlt node
    · have hne : m.index ≠ s.size := fun he ↦ h (congrArg NodeId.mk he)
      rw [get_of_not_lt hlt, get_of_not_lt]
      rw [size_create]
      omega

@[simp] theorem size_setAttribute (s : NodeStore) (n : NodeId) (name value : String) :
    (s.setAttribute n name value).size = s.size := size_modify ..

@[simp] theorem size_removeAttribute (s : NodeStore) (n : NodeId) (name : String) :
    (s.removeAttribute n name).size = s.size := size_modify ..

@[simp] theorem size_setData (s : NodeStore) (n : NodeId) (data : String) :
    (s.setData n data).size = s.size := size_modify ..

@[simp] theorem size_setChildren (s : NodeStore) (n : NodeId) (children : List NodeId) :
    (s.setChildren n children).size = s.size := size_modify ..

@[simp] theorem size_setParent (s : NodeStore) (n : NodeId) (p : Option NodeId) :
    (s.setParent n p).size = s.size := size_modify ..

/-! ## Parents -/

theorem get_setParents (s : NodeStore) (ns : List NodeId) (p : Option NodeId) (m : NodeId) :
    (s.setParents ns p).get m =
      if m ∈ ns ∧ m.index < s.size then { s.get m with parent := p } else s.get m := by
  induction ns generalizing s with
  | nil => rw [if_neg fun h ↦ absurd h.1 List.not_mem_nil]; rfl
  | cons n ns ih =>
    have hstep : s.setParents (n :: ns) p = (s.setParent n p).setParents ns p := rfl
    rw [hstep, ih, size_setParent, setParent, get_modify]
    by_cases hlt : m.index < s.size
    · by_cases hm : m = n
      · simp [hm, hm ▸ hlt]
      · simp [hm, hlt]
    · have hne : ¬ (m = n ∧ n.index < s.size) := fun h ↦ hlt (h.1 ▸ h.2)
      simp [hlt, hne]

theorem get_setParents_of_not_mem (h : m ∉ (ns : List NodeId)) (s : NodeStore)
    (p : Option NodeId) : (s.setParents ns p).get m = s.get m := by
  rw [get_setParents, if_neg fun hc ↦ h hc.1]

theorem get_setChildren_self (h : n.index < s.size) (children : List NodeId) :
    (s.setChildren n children).get n = { s.get n with children } := get_modify_self h _

theorem get_setChildren_of_ne (h : m ≠ n) (s : NodeStore) (children : List NodeId) :
    (s.setChildren n children).get m = s.get m := get_modify_of_ne h.symm s _

/-! ## Taking out -/

theorem take_of_fragment (h : (s.get r).kind = .fragment) :
    s.take r = ((s.get r).children, (s.setChildren r []).setParents (s.get r).children none) := by
  simp [take, h]

theorem take_of_ne (hk : (s.get r).kind ≠ .fragment) : s.take r = ([r], s.detach r) := by
  unfold take
  split
  · contradiction
  · rfl

theorem take_of_top (hk : (s.get r).kind ≠ .fragment) (hp : (s.get r).parent = none) :
    s.take r = ([r], s) := by
  rw [take_of_ne hk, detach, hp]

/-- What a fragment leaves: its children go, and have no parent. -/
theorem get_take_of_fragment (h : (s.get r).kind = .fragment) (hr : r ∉ (s.get r).children)
    (m : NodeId) : (s.take r).2.get m =
      if m ∈ (s.get r).children ∧ m.index < s.size then { s.get m with parent := none }
      else if m = r ∧ r.index < s.size then { s.get r with children := [] }
      else s.get m := by
  rw [take_of_fragment h, get_setParents, size_setChildren, setChildren, get_modify]
  by_cases hm : m ∈ (s.get r).children ∧ m.index < s.size
  · rw [if_pos hm, if_pos hm, if_neg fun hc : m = r ∧ r.index < s.size ↦ hr (hc.1 ▸ hm.1)]
  · rw [if_neg hm, if_neg hm]

@[simp] theorem size_detach (s : NodeStore) (n : NodeId) : (s.detach n).size = s.size := by
  unfold detach
  split
  · rfl
  · rw [size_setParent, size_setChildren]

@[simp] theorem size_take (s : NodeStore) (n : NodeId) : (s.take n).2.size = s.size := by
  unfold take
  split
  · rw [size_setParents, size_setChildren]
  · exact size_detach s n

@[simp] theorem size_append (s : NodeStore) (p n : NodeId) : (s.append p n).size = s.size := by
  rw [append, size_setChildren, size_setParents, size_take]

/-! ## Putting in -/

theorem append_eq (s : NodeStore) (p n : NodeId) :
    s.append p n = ((s.take n).2.setParents (s.take n).1 (some p)).setChildren p
      (((s.take n).2.get p).children ++ (s.take n).1) := rfl

/-- A node without a parent is put at the end of another. -/
theorem get_append_of_top (hk : (s.get n).kind ≠ .fragment) (hp : (s.get n).parent = none)
    (hn : n.index < s.size) (hlt : p.index < s.size) (hne : p ≠ n) (m : NodeId) :
    (s.append p n).get m =
      if m = p then { s.get p with children := (s.get p).children ++ [n] }
      else if m = n then { s.get n with parent := some p }
      else s.get m := by
  have hmoved : p ∉ [n] := fun h ↦ hne (List.mem_singleton.mp h)
  rw [append_eq, take_of_top hk hp]
  by_cases hm : m = p
  · rw [if_pos hm, hm, get_setChildren_self (by rwa [size_setParents]),
      get_setParents_of_not_mem hmoved]
  · rw [if_neg hm, get_setChildren_of_ne hm, get_setParents]
    by_cases hmn : m = n
    · rw [if_pos hmn, hmn, if_pos ⟨List.mem_singleton_self n, hn⟩]
    · rw [if_neg hmn, if_neg fun hc ↦ hmn (List.mem_singleton.mp hc.1)]

/-- Whether `r` is a fragment whose children can go to `p`. -/
structure Movable (s : NodeStore) (r p : NodeId) : Prop where
  kind : (s.get r).kind = .fragment
  lt : r.index < s.size
  moved : ∀ c ∈ (s.get r).children, c.index < s.size
  not_self : r ∉ (s.get r).children
  target : p.index < s.size
  ne : p ≠ r
  not_mem : p ∉ (s.get r).children

/-- A fragment that came after a node, with children that came after it, can go to that node. -/
theorem Movable.of_lt {cs : List NodeId}
    (hget : s.get r = { kind := .fragment, children := cs }) (hp : p.index < r.index)
    (hr : r.index < s.size) (hcs : ∀ c ∈ cs, r.index < c.index ∧ c.index < s.size) :
    s.Movable r p := by
  refine ⟨hget ▸ rfl, hr, ?_, ?_, Nat.lt_trans hp hr,
    fun h ↦ Nat.ne_of_lt hp (congrArg NodeId.index h), ?_⟩
  all_goals rw [hget]
  · exact fun c hc ↦ (hcs c hc).2
  · exact fun h ↦ Nat.lt_irrefl _ (hcs _ h).1
  · exact fun h ↦ Nat.lt_asymm hp (hcs _ h).1

theorem Movable.get_take_target (h : s.Movable r p) : (s.take r).2.get p = s.get p := by
  rw [get_take_of_fragment h.kind h.not_self, if_neg fun hc ↦ h.not_mem hc.1,
    if_neg fun hc ↦ h.ne hc.1]

/-- The children of a fragment are put at the end of a node. -/
theorem Movable.get_append (h : s.Movable r p) (m : NodeId) :
    (s.append p r).get m =
      if m = p then { s.get p with children := (s.get p).children ++ (s.get r).children }
      else if m ∈ (s.get r).children then { s.get m with parent := some p }
      else if m = r then { s.get r with children := [] }
      else s.get m := by
  have hfst : (s.take r).1 = (s.get r).children := by rw [take_of_fragment h.kind]
  rw [append_eq, hfst, h.get_take_target]
  by_cases hm : m = p
  · rw [if_pos hm, hm, get_setChildren_self (by rw [size_setParents, size_take]; exact h.target),
      get_setParents_of_not_mem h.not_mem, h.get_take_target]
  · rw [if_neg hm, get_setChildren_of_ne hm, get_setParents, size_take,
      get_take_of_fragment h.kind h.not_self]
    by_cases hmc : m ∈ (s.get r).children
    · have hmlt := h.moved m hmc
      simp [hmc, hmlt]
    · have hlt := h.lt
      simp [hmc, hlt]

/-! ## Replacing -/

theorem idxOf?_append_cons {pre : List NodeId} (h : n ∉ pre) (post : List NodeId) :
    (pre ++ n :: post).idxOf? n = some pre.length := by
  induction pre with
  | nil => simp [List.idxOf?_cons]
  | cons m pre ih =>
    have hne : (m == n) = false :=
      beq_eq_false_iff_ne.mpr fun he ↦ h (he ▸ List.mem_cons_self)
    rw [List.cons_append, List.idxOf?_cons, hne, ih fun hn ↦ h (List.mem_cons_of_mem m hn)]
    rfl

theorem replace_of_top (h : (s.get n).parent = none) (r : NodeId) :
    s.replace n r = (false, s) := by
  rw [replace, h]

/-- Whether `n` stands between `pre` and `post` among the children of `p`. -/
structure Placed (s : NodeStore) (n p : NodeId) (pre post : List NodeId) : Prop where
  lt : n.index < s.size
  ne : n ≠ p
  parent : (s.get n).parent = some p
  children : (s.get p).children = pre ++ n :: post
  not_mem : n ∉ pre

theorem Placed.of_agrees {pre post : List NodeId} (hn : s.Placed n p pre post)
    (hp : p.index < s.size) (h : s.Agrees id [] s') : s'.Placed n p pre post := by
  have hget (m : NodeId) (hm : m.index < s.size) : s'.get m = s.get m :=
    h.get m hm List.not_mem_nil
  refine ⟨Nat.lt_of_lt_of_le hn.lt h.size, hn.ne, ?_, ?_, hn.not_mem⟩
  · rw [hget n hn.lt, hn.parent]
  · rw [hget p hp, hn.children]

/-- A node gives its place to the children of a fragment. -/
theorem Placed.get_replace {pre post : List NodeId} (hn : s.Placed n p pre post)
    (h : s.Movable r p) (hnr : n ≠ r) (hnm : n ∉ (s.get r).children) (m : NodeId) :
    (s.replace n r).2.get m =
      if m = p then { s.get p with children := pre ++ (s.get r).children ++ post }
      else if m ∈ (s.get r).children then { s.get m with parent := some p }
      else if m = n then { s.get n with parent := none }
      else if m = r then { s.get r with children := [] }
      else s.get m := by
  have hfst : (s.take r).1 = (s.get r).children := by rw [take_of_fragment h.kind]
  have hidx := idxOf?_append_cons hn.not_mem post
  have hreplace : (s.replace n r).2 = ((((s.take r).2.setChildren p
      (pre ++ (s.get r).children ++ post)).setParents (s.get r).children (some p)).setParent n
        none) := by
    rw [replace, hn.parent]
    simp [hfst, h.get_take_target, hn.children, hidx]
  rw [hreplace, setParent, get_modify, size_setParents, size_setChildren, size_take]
  by_cases hmn : m = n
  · rw [if_pos ⟨hmn, hn.lt⟩, hmn, if_neg hn.ne, if_neg hnm, if_pos rfl,
      get_setParents_of_not_mem hnm, get_setChildren_of_ne hn.ne,
      get_take_of_fragment h.kind h.not_self, if_neg fun hc ↦ hnm hc.1, if_neg fun hc ↦ hnr hc.1]
  · rw [if_neg fun hc ↦ hmn hc.1]
    by_cases hmp : m = p
    · rw [if_pos hmp, hmp, get_setParents_of_not_mem h.not_mem,
        get_setChildren_self (by rw [size_take]; exact h.target), h.get_take_target]
    · rw [if_neg hmp, if_neg hmn, get_setParents, size_setChildren, size_take,
        get_setChildren_of_ne hmp, get_take_of_fragment h.kind h.not_self]
      by_cases hmc : m ∈ (s.get r).children
      · have hmlt := h.moved m hmc
        simp [hmc, hmlt]
      · have hlt := h.lt
        simp [hmc, hlt]

@[simp] theorem size_replace (s : NodeStore) (n r : NodeId) : (s.replace n r).2.size = s.size := by
  unfold replace
  split
  · rfl
  · dsimp only
    split
    · exact size_take s r
    · rw [size_setParent, size_setParents, size_setChildren, size_take]

/-- Whether or not a node has a place, replacing it changes nothing but it and its parent, and the
fragment with its children. -/
theorem agrees_replace (h : (s.get r).kind = .fragment) (n : NodeId) :
    s.Agrees id ((s.get n).parent.toList ++ n :: r :: (s.get r).children) (s.replace n r).2 where
  size := Nat.le_of_eq (size_replace s n r).symm
  get m _ hm := by
    simp only [List.mem_append, List.mem_cons, not_or] at hm
    obtain ⟨hp, hn, hr, hc⟩ := hm
    cases hparent : (s.get n).parent with
    | none => rw [replace_of_top hparent]
    | some p =>
      rw [hparent, Option.mem_toList, Option.some.injEq] at hp
      have htake : (s.take r).2.get m = s.get m := by
        rw [take_of_fragment h, get_setParents_of_not_mem hc, get_setChildren_of_ne hr]
      have hfst : (s.take r).1 = (s.get r).children := by rw [take_of_fragment h]
      rw [replace, hparent]
      dsimp only
      split
      · rw [htake]
      · rw [setParent, get_modify_of_ne (Ne.symm hn), hfst, get_setParents_of_not_mem hc,
          get_setChildren_of_ne (Ne.symm hp), htake]

theorem children_setParents (s : NodeStore) (ns : List NodeId) (p : Option NodeId) (m : NodeId) :
    ((s.setParents ns p).get m).children = (s.get m).children := by
  rw [get_setParents]
  split <;> rfl

/-- A node that gives its place to the children of a fragment keeps its own. -/
theorem children_replace (h : (s.get r).kind = .fragment) (hr : n ≠ r)
    (hp : (s.get n).parent ≠ some n) : ((s.replace n r).2.get n).children = (s.get n).children := by
  have htake : ((s.take r).2.get n).children = (s.get n).children := by
    rw [take_of_fragment h, children_setParents, get_setChildren_of_ne hr]
  cases hparent : (s.get n).parent with
  | none => rw [replace_of_top hparent]
  | some p =>
    have hne : n ≠ p := fun he ↦ hp (he ▸ hparent)
    rw [replace, hparent]
    dsimp only
    split
    · exact htake
    · have hsingle (s : NodeStore) : s.setParent n none = s.setParents [n] none := rfl
      rw [hsingle, children_setParents, children_setParents, get_setChildren_of_ne hne, htake]

/-! ## Text content -/

/-- The children of a node are taken out one after the other. -/
theorem get_foldl_detach {cs : List NodeId} (hchildren : (s.get n).children = cs)
    (hparent : ∀ c ∈ cs, (s.get c).parent = some n) (hlt : n.index < s.size)
    (hclt : ∀ c ∈ cs, c.index < s.size) (hn : n ∉ cs) (hcs : cs.Nodup) (m : NodeId) :
    (cs.foldl detach s).get m =
      if m = n then { s.get n with children := [] }
      else if m ∈ cs then { s.get m with parent := none }
      else s.get m := by
  induction cs generalizing s with
  | nil =>
    rw [List.foldl_nil, if_neg List.not_mem_nil]
    split
    · rename_i h
      rw [h, ← hchildren]
    · rfl
  | cons c cs ih =>
    obtain ⟨hc, hcs⟩ := List.nodup_cons.mp hcs
    have hnc : n ≠ c := fun h ↦ hn (h ▸ List.mem_cons_self)
    have hdetach : s.detach c = (s.setChildren n cs).setParent c none := by
      rw [detach, hparent c List.mem_cons_self]
      dsimp only
      rw [hchildren, List.erase_cons_head]
    have hget (m : NodeId) : (s.detach c).get m =
        if m = c then { s.get c with parent := none }
        else if m = n then { s.get n with children := cs }
        else s.get m := by
      rw [hdetach, setParent, get_modify, size_setChildren, setChildren, get_modify, get_modify]
      simp [hclt c List.mem_cons_self, hlt, hnc.symm]
    -- The others are still children of `n`, and still know it.
    rw [List.foldl_cons, ih]
    · rw [hget, hget, if_neg hnc, if_pos rfl]
      by_cases hmn : m = n
      · rw [if_pos hmn, if_pos hmn]
      · rw [if_neg hmn, if_neg hmn]
        by_cases hmc : m = c
        · rw [if_pos hmc, hmc, if_neg hc, if_neg (Ne.symm hnc), if_pos List.mem_cons_self]
        · rw [if_neg hmc, if_neg hmn]
          simp [hmc]
    · rw [hget, if_neg hnc, if_pos rfl]
    · intro c' hc'
      have hne : c' ≠ c := fun h ↦ hc (h ▸ hc')
      have hne' : c' ≠ n := fun h ↦ hn (h ▸ List.mem_cons_of_mem c hc')
      rw [hget, if_neg hne, if_neg hne']
      exact hparent c' (List.mem_cons_of_mem c hc')
    · rwa [size_detach]
    · intro c' hc'
      rw [size_detach]
      exact hclt c' (List.mem_cons_of_mem c hc')
    · exact fun h ↦ hn (List.mem_cons_of_mem c h)
    · exact hcs

theorem size_foldl_detach (cs : List NodeId) (s : NodeStore) :
    (cs.foldl detach s).size = s.size := by
  induction cs generalizing s with
  | nil => rfl
  | cons c cs ih => rw [List.foldl_cons, ih, size_detach]

theorem setTextContent_of_text (h : (s.get n).kind.isContainer = false) (text : String) :
    s.setTextContent n text = s.setData n text := by
  simp [setTextContent, h]

/-- Whether a node lists its children once each, and they know it as their parent. -/
structure Parental (s : NodeStore) (n : NodeId) : Prop where
  lt : n.index < s.size
  parent : ∀ c ∈ (s.get n).children, (s.get c).parent = some n
  children_lt : ∀ c ∈ (s.get n).children, c.index < s.size
  not_self : n ∉ (s.get n).children
  nodup : (s.get n).children.Nodup

/-- The root of a tree that stands in a store lists its children as it should. -/
theorem Parental.of_shows {t : Tree NodeId} {p : Option NodeId}
    (h : s.Shows Node.skeleton (t.asNodes p)) (ht : t.labels.Nodup) : s.Parental t.label := by
  obtain ⟨n, kind, attrs, data, children⟩ := t
  rw [Tree.asNodes, shows_cons] at h
  obtain ⟨⟨hlt, hn⟩, hbelow⟩ := h
  obtain ⟨hnot, hnodup⟩ := List.nodup_cons.mp ht
  have hchildren : (s.get n).children = children.map Tree.label := congrArg (fun k ↦ k.2.1) hn
  have hroot (c : NodeId) (hc : c ∈ (s.get n).children) :
      c.index < s.size ∧ (s.get c).parent = some n := by
    rw [hchildren] at hc
    obtain ⟨node, hmem, hparent⟩ := Tree.exists_mem_asNodesAll hc (some n)
    obtain ⟨hclt, hcget⟩ := hbelow _ hmem
    exact ⟨hclt, (congrArg (fun k ↦ k.2.2) hcget).trans hparent⟩
  refine ⟨hlt, fun c hc ↦ (hroot c hc).2, fun c hc ↦ (hroot c hc).1, fun hmem ↦ hnot ?_, ?_⟩
  · exact (Tree.map_label_sublist_labelsAll children).subset (hchildren ▸ hmem)
  · exact hchildren ▸ hnodup.sublist (Tree.map_label_sublist_labelsAll children)

/-- A single new text takes the place of the children of an element or fragment. -/
theorem Parental.get_setTextContent (h : s.Parental n) (hk : (s.get n).kind.isContainer = true)
    (text : String) (m : NodeId) :
    (s.setTextContent n text).get m =
      if m = n then { s.get n with children := [⟨s.size⟩] }
      else if m = ⟨s.size⟩ then { kind := .text, data := text, parent := some n }
      else if m ∈ (s.get n).children then { s.get m with parent := none }
      else s.get m := by
  have hdetach := get_foldl_detach rfl h.parent h.lt h.children_lt h.not_self h.nodup
  have hsize := size_foldl_detach (s.get n).children s
  have hne : n ≠ ⟨s.size⟩ := fun he ↦ Nat.ne_of_lt h.lt (congrArg NodeId.index he)
  have hset : s.setTextContent n text =
      (((s.get n).children.foldl detach s).create { kind := .text, data := text }).2.append n
        ⟨s.size⟩ := by
    rw [setTextContent, if_pos hk, ← hsize]
    rfl
  have hcreate (m : NodeId) :
      (((s.get n).children.foldl detach s).create { kind := .text, data := text }).2.get m =
        if m = ⟨s.size⟩ then { kind := .text, data := text }
        else ((s.get n).children.foldl detach s).get m := by
    rw [get_create, hsize]
  have htext := hcreate ⟨s.size⟩
  rw [if_pos rfl] at htext
  rw [hset, get_append_of_top]
  · rw [hcreate, hcreate, hcreate, if_neg hne, if_pos rfl, hdetach, hdetach, if_pos rfl]
    by_cases hmn : m = n
    · rw [if_pos hmn, if_pos hmn]
      rfl
    · rw [if_neg hmn, if_neg hmn, if_neg hmn]
      split <;> rfl
  · rw [htext]
    exact fun h ↦ NodeKind.noConfusion h
  · rw [htext]
  · rw [size_create, hsize]
    exact Nat.lt_succ_self _
  · rw [size_create, hsize]
    exact Nat.lt_succ_of_lt h.lt
  · exact hne

@[simp] theorem size_setTextContent_of_container (hk : (s.get n).kind.isContainer = true)
    (text : String) : (s.setTextContent n text).size = s.size + 1 := by
  rw [setTextContent, if_pos hk]
  dsimp only
  rw [size_append, size_create, size_foldl_detach]

theorem Parental.agrees_setTextContent (h : s.Parental n)
    (hk : (s.get n).kind.isContainer = true) (text : String) :
    s.Agrees id (n :: (s.get n).children) (s.setTextContent n text) where
  size := by
    rw [size_setTextContent_of_container hk]
    exact Nat.le_succ _
  get m hlt hm := by
    have hne : m ≠ ⟨s.size⟩ := fun he ↦ Nat.ne_of_lt hlt (congrArg NodeId.index he)
    obtain ⟨hmn, hmc⟩ := not_or.mp (mt List.mem_cons.mpr hm)
    rw [h.get_setTextContent hk, if_neg hmn, if_neg hne, if_neg hmc]

/-- A node lists its children as it should as long as neither it nor they are changed. -/
theorem Parental.of_surrounds (h : s.Parental n) (hs : s.Surrounds X s') (hn : n ∉ X)
    (hchildren : ∀ c ∈ (s.get n).children, c ∉ X) : s'.Parental n := by
  have hget := hs.children_eq h.lt hn hchildren
  refine ⟨Nat.lt_of_lt_of_le h.lt hs.size, fun c hc ↦ ?_, fun c hc ↦ ?_, ?_, ?_⟩
  · rw [hget] at hc
    rw [hs.parent c (h.children_lt c hc) (hchildren c hc)]
    exact h.parent c hc
  · rw [hget] at hc
    exact Nat.lt_of_lt_of_le (h.children_lt c hc) hs.size
  · rw [hget]
    exact h.not_self
  · rw [hget]
    exact h.nodup

/-- When a node gets a text, every node still lists its children as it should. -/
theorem Parental.setTextContent (h : s.Parental n) (hk : (s.get n).kind.isContainer = true)
    (hm : s.Parental m) (text : String) : (s.setTextContent n text).Parental m := by
  have hget (m : NodeId) := h.get_setTextContent hk text m
  have hsize := size_setTextContent_of_container hk text
  have hne {m : NodeId} (hlt : m.index < s.size) : m ≠ ⟨s.size⟩ :=
    fun he ↦ Nat.ne_of_lt hlt (congrArg NodeId.index he)
  by_cases hmn : m = n
  · -- The node itself has a single child, which is new.
    subst hmn
    have hchildren : ((s.setTextContent m text).get m).children = [⟨s.size⟩] := by
      rw [hget, if_pos rfl]
    refine ⟨hsize ▸ Nat.lt_succ_of_lt h.lt, fun c hc ↦ ?_, fun c hc ↦ ?_, ?_, ?_⟩
    · rw [hchildren] at hc
      obtain rfl := List.mem_singleton.mp hc
      rw [hget, if_neg (hne h.lt).symm, if_pos rfl]
    · rw [hchildren] at hc
      obtain rfl := List.mem_singleton.mp hc
      exact hsize ▸ Nat.lt_succ_self _
    · rw [hchildren]
      exact fun hc ↦ hne h.lt (List.mem_singleton.mp hc)
    · rw [hchildren]
      exact List.nodup_singleton _
  · -- The node may lose its parent, but none of its children has another parent to lose.
    have hchildren : ((s.setTextContent n text).get m).children = (s.get m).children := by
      rw [hget, if_neg hmn, if_neg (hne hm.lt)]
      split <;> rfl
    refine ⟨hsize ▸ Nat.lt_succ_of_lt hm.lt, fun c hc ↦ ?_, fun c hc ↦ ?_, ?_, ?_⟩
    · rw [hchildren] at hc
      have hnot : c ∉ (s.get n).children := by
        intro hcn
        have hparent := (hm.parent c hc).symm.trans (h.parent c hcn)
        exact hmn (Option.some.inj hparent)
      rw [hget, if_neg (hne (hm.children_lt c hc)), if_neg hnot]
      split
      · rename_i hcn
        exact hcn ▸ hm.parent c hc
      · exact hm.parent c hc
    · rw [hchildren] at hc
      exact hsize ▸ Nat.lt_succ_of_lt (hm.children_lt c hc)
    · rw [hchildren]
      exact hm.not_self
    · rw [hchildren]
      exact hm.nodup

end NodeStore

end LiveMarkup
