import LiveMarkup.Proofs.Markup.Reading
import Mathlib.Data.List.Basic

/-!
# Which tags hold which nodes

The forest of a row of events has the nodes that the events bring into being, each of them once and
in that order, and an element holds what comes into being between its opening and its end. Its end
is the first closing tag whose innermost open match is the element itself or one around it, or the
end of the row (`follows_forestOf`).

All of this is said in positions: `openAt` is the row of positions at which the elements have been
opened that are open before an event, innermost first. The forest part way through is laid out as
one row of slots, a slot for each node in the order in which the nodes come into being; a slot is
filled with the node's tree as soon as that is complete. Adding a tree appends slots, and ending an
element fills the one slot of it and changes no other (`Growth.slots_close`). So what a slot is
filled with stays, and at the end the row is the row of all trees within the forest.
-/

namespace LiveMarkup

/-! ## Nodes of trees and of events -/

/-- A node by itself: what it is, its attributes and its data. -/
abbrev Face := NodeKind × Attributes × String

namespace Tree

variable {α : Type}

/-- The root of a tree by itself. -/
def face (t : Tree α) : Face := (t.kind, t.attrs, t.data)

theorem subtrees_eq (t : Tree α) : t.subtrees = t :: subtreesAll t.children := by
  obtain ⟨l, k, as, d, cs⟩ := t
  rw [subtrees, children]

theorem subtreesAll_append (ts us : List (Tree α)) :
    subtreesAll (ts ++ us) = subtreesAll ts ++ subtreesAll us := by
  induction ts with
  | nil => rfl
  | cons t ts ih => rw [List.cons_append, subtreesAll, subtreesAll, ih, List.append_assoc]

theorem subtreesAll_singleton (t : Tree α) : subtreesAll [t] = t.subtrees := by
  rw [subtreesAll, subtreesAll, List.append_nil]

end Tree

namespace Event

/-- The nodes that an event brings into being, each by itself. -/
def nodes : Event → List Face
  | .opening tag attrs => [(.element tag, attrs, "")]
  | .leaf t => t.subtrees.map Tree.face
  | .closing _ => []

/-- Whether an event opens an element of that tag, without regard to case. -/
def opensTag (tag : String) : Event → Bool
  | .opening t _ => equalIgnoringCase t tag
  | _ => false

/-- Whether an event is a text of nothing but white space. -/
def isBlankText : Event → Bool
  | .leaf t => t.isBlankText
  | _ => false

end Event

/-! ## Where elements end -/

namespace Nesting

variable (es : List Event)

/-- The innermost of the open elements that has that tag, without regard to case. -/
def innermost? (tag : String) (opened : List Nat) : Option Nat :=
  opened.find? fun i ↦ es[i]?.any (Event.opensTag tag)

/-- The positions at which the elements have been opened that are open before event `j`, innermost
first. A closing tag ends the innermost one of its tag and all that have been opened inside it. -/
def openAt : Nat → List Nat
  | 0 => []
  | j + 1 =>
    match es[j]? with
    | some (.opening _ _) => j :: openAt j
    | some (.closing tag) =>
      match innermost? es tag (openAt j) with
      | some m => (openAt j).filter (· < m)
      | none => openAt j
    | _ => openAt j

/-- Whether event `j` is a closing tag whose innermost open match is the element opened at `i` or
one around it. -/
def Closes (j i : Nat) : Prop :=
  ∃ tag m, es[j]? = some (.closing tag) ∧ innermost? es tag (openAt es j) = some m ∧ m ≤ i

/-- Whether the element opened at `i` ends at `j`: at the first event that closes it, or at the end
if none does. -/
structure EndsAt (i j : Nat) : Prop where
  lt : i < j
  spared : ∀ k, i < k → k < j → ¬Closes es k i
  ends : Closes es j i ∨ j = es.length

/-- The nodes that event `j` brings into being and that are not left out: a blank text is if no
element is open. -/
def lasting (j : Nat) : List Face :=
  match es[j]? with
  | some e => if e.isBlankText && (openAt es j).isEmpty then [] else e.nodes
  | none => []

/-- The nodes that the events before event `j` bring into being, without those left out. -/
def nodesBefore (j : Nat) : List Face :=
  (List.range j).flatMap (lasting es)

/-- All nodes that the events after event `i` and before event `j` bring into being. -/
def nodesBetween (i j : Nat) : List Face :=
  ((es.take j).drop (i + 1)).flatMap Event.nodes

/-- Whether a forest is the one that the events describe. -/
structure Follows (ts : List (Tree Unit)) : Prop where
  /-- The forest has the nodes of the events, in their order. -/
  listing : (Tree.subtreesAll ts).map Tree.face = nodesBefore es es.length
  /-- The node of an opening is the element with what comes between the opening and its end. -/
  nested : ∀ i tag attrs, es[i]? = some (.opening tag attrs) →
    ∃ j, EndsAt es i j ∧ ∃ t, (Tree.subtreesAll ts)[(nodesBefore es i).length]? = some t ∧
      t.face = (.element tag, attrs, "") ∧
      (Tree.subtreesAll t.children).map Tree.face = nodesBetween es i j
  /-- A closing tag without a match can be left out. -/
  strays : ∀ j tag, es[j]? = some (.closing tag) → innermost? es tag (openAt es j) = none →
    forestOf (es.eraseIdx j) = forestOf es

variable {es} {i j : Nat}

theorem nodesBefore_succ (j : Nat) :
    nodesBefore es (j + 1) = nodesBefore es j ++ lasting es j := by
  rw [nodesBefore, List.range_succ, List.flatMap_append, List.flatMap_singleton, ← nodesBefore]

theorem mem_openAt_succ : i ∈ openAt es (j + 1) ↔
    (i = j ∧ ∃ tag attrs, es[j]? = some (.opening tag attrs)) ∨
      (i ∈ openAt es j ∧ ¬Closes es j i) := by
  rw [openAt]
  rcases he : es[j]? with - | ⟨tag, attrs⟩ | t | tag
  · simp [Closes, he]
  · simp [Closes, he]
  · simp [Closes, he]
  · rcases hm : innermost? es tag (openAt es j) with - | m
    · simp [Closes, he, hm]
    · simp [Closes, he, hm]

/-- An element that is open has been opened, and nothing has closed it since. -/
theorem spared_of_mem_openAt (h : i ∈ openAt es j) :
    i < j ∧ ∀ k, i < k → k < j → i ∈ openAt es k ∧ ¬Closes es k i := by
  induction j with
  | zero => exact absurd h List.not_mem_nil
  | succ j ih =>
    rw [mem_openAt_succ] at h
    obtain ⟨rfl, -⟩ | ⟨hmem, hclose⟩ := h
    · exact ⟨Nat.lt_succ_self i, fun k hlt hle ↦ absurd hle (by omega)⟩
    · obtain ⟨hlt, hspared⟩ := ih hmem
      refine ⟨by omega, fun k hik hkj ↦ ?_⟩
      obtain rfl | hkj := Nat.lt_succ_iff_lt_or_eq.mp hkj |>.symm
      · exact ⟨hmem, hclose⟩
      · exact hspared k hik hkj

theorem EndsAt.of_mem_openAt (h : i ∈ openAt es j) (hends : Closes es j i ∨ j = es.length) :
    EndsAt es i j :=
  have ⟨hlt, hspared⟩ := spared_of_mem_openAt h
  ⟨hlt, fun k hik hkj ↦ (hspared k hik hkj).2, hends⟩

/-- Nothing is left out while an element is open. -/
theorem nodesBefore_of_mem_openAt {tag : String} {attrs : Attributes}
    (hi : es[i]? = some (.opening tag attrs)) (hj : j ≤ es.length) (h : i ∈ openAt es j) :
    nodesBefore es j = nodesBefore es i ++ (.element tag, attrs, "") :: nodesBetween es i j := by
  induction j with
  | zero => exact absurd h List.not_mem_nil
  | succ j ih =>
    obtain ⟨e, he⟩ : ∃ e, es[j]? = some e := ⟨es[j], List.getElem?_eq_getElem hj⟩
    rw [nodesBefore_succ, lasting, he]
    rw [mem_openAt_succ] at h
    obtain ⟨rfl, -⟩ | ⟨hmem, -⟩ := h
    · obtain rfl := Option.some.inj (he.symm.trans hi)
      rw [nodesBetween, List.drop_eq_nil_of_le (by rw [List.length_take]; omega)]
      rfl
    · have hlt := (spared_of_mem_openAt hmem).1
      have hopen : (openAt es j).isEmpty = false :=
        List.isEmpty_eq_false_iff.mpr (List.ne_nil_of_mem hmem)
      have hbetween : nodesBetween es i (j + 1) = nodesBetween es i j ++ e.nodes := by
        rw [nodesBetween, List.take_add_one, he,
          List.drop_append_of_le_length (by rw [List.length_take]; omega), List.flatMap_append]
        exact congrArg _ (List.flatMap_singleton ..)
      rw [ih (by omega) hmem, hbetween, hopen, List.append_assoc, List.cons_append]
      dsimp only
      rw [Bool.and_false, if_neg Bool.false_ne_true]

end Nesting

/-! ## Slots -/

/-- A place for a node in the order in which nodes come into being: the node by itself, and its tree
once that is complete. -/
abbrev Slot := Face × Option (Tree Unit)

namespace Slot

/-- The slots of complete trees. -/
def ofTrees (ts : List (Tree Unit)) : List Slot :=
  (Tree.subtreesAll ts).map fun t ↦ (t.face, some t)

theorem ofTrees_append (ts us : List (Tree Unit)) :
    ofTrees (ts ++ us) = ofTrees ts ++ ofTrees us := by
  rw [ofTrees, Tree.subtreesAll_append, List.map_append]
  rfl

theorem ofTrees_singleton (t : Tree Unit) :
    ofTrees [t] = (t.face, some t) :: ofTrees t.children := by
  rw [ofTrees, Tree.subtreesAll_singleton, Tree.subtrees_eq, List.map_cons]
  rfl

theorem map_fst_ofTrees (ts : List (Tree Unit)) :
    (ofTrees ts).map Prod.fst = (Tree.subtreesAll ts).map Tree.face := by
  rw [ofTrees, List.map_map]
  rfl

/-- Whether every slot that is filled stays as it is. -/
def Extends (ss ss' : List Slot) : Prop :=
  ∀ (p : Nat) face t, ss[p]? = some (face, some t) → ss'[p]? = some (face, some t)

theorem Extends.refl (ss : List Slot) : Extends ss ss := fun _ _ _ h ↦ h

theorem Extends.trans {ss ss' ss'' : List Slot} (h : Extends ss ss') (h' : Extends ss' ss'') :
    Extends ss ss'' := fun p face t ht ↦ h' p face t (h p face t ht)

theorem extends_append (ss ss' : List Slot) : Extends ss (ss ++ ss') := fun p face t ht ↦ by
  rw [List.getElem?_append_left (List.getElem?_eq_some_iff.mp ht).1, ht]

/-- To fill an empty slot changes no other. -/
theorem extends_fill (ss : List Slot) (face : Face) (slot : Slot)
    (ss' : List Slot) : Extends (ss ++ (face, none) :: ss') (ss ++ slot :: ss') := by
  intro p face' t ht
  obtain hlt | hle := Nat.lt_or_ge p ss.length
  · rw [List.getElem?_append_left hlt] at ht ⊢
    exact ht
  · rw [List.getElem?_append_right hle] at ht ⊢
    rcases hp : p - ss.length with - | q
    · rw [hp] at ht
      simp at ht
    · rw [hp] at ht
      exact ht

end Slot

namespace OpenElement

/-- The element by itself. -/
def face (o : OpenElement) : Face := (.element o.tag, o.attrs, "")

@[simp] theorem face_toTree (o : OpenElement) : o.toTree.face = o.face := rfl

end OpenElement

namespace Growth

/-- The slots of the roots and of elements open among them, blank roots left out. -/
def slotsOf (roots : List (Tree Unit)) : List OpenElement → List Slot
  | [] => Slot.ofTrees (roots.filter fun t ↦ !t.isBlankText)
  | o :: os => slotsOf roots os ++ (o.face, none) :: Slot.ofTrees o.children

/-- The slots of a forest part way through. -/
def slots (g : Growth) : List Slot := slotsOf g.roots g.stack

theorem slots_add (g : Growth) (t : Tree Unit) :
    (g.add t).slots =
      g.slots ++ if t.isBlankText && g.stack.isEmpty then [] else Slot.ofTrees [t] := by
  obtain ⟨- | ⟨o, os⟩, roots⟩ := g
  · rw [add, slots, slots, slotsOf, slotsOf, List.filter_append, Slot.ofTrees_append,
      List.isEmpty_nil, Bool.and_true]
    rcases hblank : t.isBlankText
    · rw [List.filter_cons_of_pos (by rw [hblank]; rfl)]
      rfl
    · rw [List.filter_cons_of_neg (by rw [hblank]; simp)]
      rfl
  · rw [add, slots, slots, slotsOf, slotsOf, Slot.ofTrees_append, List.isEmpty_cons, Bool.and_false,
      if_neg Bool.false_ne_true, List.append_assoc, List.cons_append]
    rfl

/-- To end the innermost element fills its slot. -/
theorem slots_close (o : OpenElement) (os : List OpenElement) (roots : List (Tree Unit)) :
    (close ⟨o :: os, roots⟩).slots =
      slotsOf roots os ++ (o.face, some o.toTree) :: Slot.ofTrees o.children := by
  have hblank : o.toTree.isBlankText = false := rfl
  rw [close, slots_add, hblank, Bool.false_and, if_neg Bool.false_ne_true, Slot.ofTrees_singleton]
  rfl

theorem step_closing_of_none {g : Growth} {tag : String}
    (h : (g.stack.findIdx? fun o ↦ equalIgnoringCase o.tag tag) = none) :
    g.step (.closing tag) = g := by
  simp only [step, h]

theorem step_closing_of_some {g : Growth} {tag : String} {n : Nat}
    (h : (g.stack.findIdx? fun o ↦ equalIgnoringCase o.tag tag) = some n) :
    g.step (.closing tag) = g.closeMany (n + 1) := by
  simp only [step, h]

end Growth

/-! ## Tracking the open elements -/

namespace Nesting

variable {es : List Event} {roots : List (Tree Unit)} {opened : List Nat}
  {os : List OpenElement} {g : Growth} {N : List Face} {i j : Nat}

/-- Whether the open elements are those that have been opened at these positions, and the slots
before each of them are those of the nodes before its position. -/
inductive Stacked (es : List Event) (roots : List (Tree Unit)) :
    List Nat → List OpenElement → Prop
  | nil : Stacked es roots [] []
  | cons {i : Nat} {opened : List Nat} {o : OpenElement} {os : List OpenElement}
      (opening : es[i]? = some (.opening o.tag o.attrs))
      (before : (Growth.slotsOf roots os).map Prod.fst = nodesBefore es i)
      (inner : ∀ m ∈ opened, m < i) (outer : Stacked es roots opened os) :
      Stacked es roots (i :: opened) (o :: os)

theorem Stacked.length_eq (h : Stacked es roots opened os) : opened.length = os.length := by
  induction h with
  | nil => rfl
  | cons _ _ _ _ ih => rw [List.length_cons, List.length_cons, ih]

theorem Stacked.add (h : Stacked es g.roots opened g.stack) (t : Tree Unit) :
    Stacked es (g.add t).roots opened (g.add t).stack := by
  obtain ⟨- | ⟨o, os⟩, roots⟩ := g
  · cases h
    exact .nil
  · cases h with
    | cons opening before inner outer => exact .cons opening before inner outer

/-- A closing tag finds the same element among the positions as among the elements. -/
theorem Stacked.innermost?_eq (h : Stacked es roots opened os) (tag : String) :
    innermost? es tag opened =
      (os.findIdx? fun o ↦ equalIgnoringCase o.tag tag).bind fun n ↦ opened[n]? := by
  induction h with
  | nil => rfl
  | @cons i opened o os opening before inner outer ih =>
    have hopens : es[i]?.any (Event.opensTag tag) = equalIgnoringCase o.tag tag := by
      rw [opening]
      rfl
    rw [List.findIdx?_cons, innermost?, List.find?_cons, hopens]
    rcases equalIgnoringCase o.tag tag
    · rw [if_neg Bool.false_ne_true, Option.bind_map]
      exact ih
    · rfl

theorem Stacked.findIdx?_eq_none (h : Stacked es roots opened os) {tag : String}
    (hnone : innermost? es tag opened = none) :
    (os.findIdx? fun o ↦ equalIgnoringCase o.tag tag) = none := by
  rw [h.innermost?_eq] at hnone
  rcases hidx : os.findIdx? fun o ↦ equalIgnoringCase o.tag tag with - | n
  · exact hidx
  · obtain ⟨hn, -⟩ := List.findIdx?_eq_some_iff_getElem.mp hidx
    rw [hidx, Option.bind_some, List.getElem?_eq_none_iff, h.length_eq] at hnone
    omega

/-- The elements around one of them are those behind it. -/
theorem Stacked.filter_lt (h : Stacked es roots opened os) {n m : Nat}
    (hm : opened[n]? = some m) : opened.filter (· < m) = opened.drop (n + 1) := by
  induction h generalizing n with
  | nil => contradiction
  | @cons i opened o os opening before inner outer ih =>
    rcases n with - | n
    · obtain rfl := Option.some.inj hm
      rw [List.filter_cons_of_neg (by simp), List.filter_eq_self.mpr fun m hm ↦ by
        simpa using inner m hm]
      rfl
    · have hmi := inner m (List.mem_of_getElem? hm)
      rw [List.filter_cons_of_neg (by simpa using Nat.le_of_lt hmi), ih hm]
      rfl

/-- Whether the slot of the element opened at `i` is filled with a tree of the nodes from there on,
up to the last of `N`. -/
def Filled (es : List Event) (ss : List Slot) (i : Nat) (N : List Face) : Prop :=
  ∃ face t, ss[(nodesBefore es i).length]? = some (face, some t) ∧
    t.subtrees.map Tree.face = N.drop (nodesBefore es i).length

theorem Filled.mono {ss ss' : List Slot} (h : Filled es ss i N) (hss : Slot.Extends ss ss') :
    Filled es ss' i N :=
  have ⟨face, t, ht, hN⟩ := h
  ⟨face, t, hss _ _ _ ht, hN⟩

/-- Whether a forest part way through has these elements open and these nodes. -/
structure Grown (es : List Event) (opened : List Nat) (N : List Face)
    (g : Growth) : Prop where
  stacked : Stacked es g.roots opened g.stack
  nodes : g.slots.map Prod.fst = N

theorem Grown.close (h : Grown es (i :: opened) N g) :
    Grown es opened N g.close ∧ Slot.Extends g.slots g.close.slots ∧
      Filled es g.close.slots i N := by
  obtain ⟨os, roots⟩ := g
  obtain ⟨hstacked, hnodes⟩ := h
  dsimp only at hstacked
  cases hstacked with
  | @cons _ _ o os opening before inner outer =>
    have hslots := Growth.slots_close o os roots
    have hN : N = nodesBefore es i ++ o.face :: (Slot.ofTrees o.children).map Prod.fst := by
      rw [← hnodes, ← before, Growth.slots, Growth.slotsOf, List.map_append, List.map_cons]
    have hlength : (nodesBefore es i).length = (Growth.slotsOf roots os).length := by
      rw [← before, List.length_map]
    refine ⟨⟨Stacked.add (g := ⟨os, roots⟩) outer o.toTree, ?_⟩, ?_, o.face, o.toTree, ?_, ?_⟩
    · rw [hslots, hN, List.map_append, List.map_cons, before]
    · rw [hslots]
      exact Slot.extends_fill _ _ _ _
    · rw [hslots, hlength, List.getElem?_append_right (Nat.le_refl _), Nat.sub_self]
      rfl
    · rw [hN, List.drop_left, Slot.map_fst_ofTrees, Tree.subtrees_eq, List.map_cons,
        OpenElement.face_toTree]
      rfl

theorem Grown.closeMany (h : Grown es opened N g) {n : Nat} (hn : n ≤ opened.length) :
    Grown es (opened.drop n) N (g.closeMany n) ∧ Slot.Extends g.slots (g.closeMany n).slots ∧
      ∀ i ∈ opened.take n, Filled es (g.closeMany n).slots i N := by
  induction n generalizing opened g with
  | zero => exact ⟨h, .refl _, fun _ hi ↦ absurd hi List.not_mem_nil⟩
  | succ n ih =>
    rcases opened with - | ⟨i, opened⟩
    · exact absurd hn (by simp)
    obtain ⟨hclose, hextends, hfilled⟩ := h.close
    obtain ⟨hmany, hextends', hfilled'⟩ := ih hclose (Nat.le_of_succ_le_succ hn)
    exact ⟨hmany, hextends.trans hextends',
      List.forall_mem_cons.mpr ⟨hfilled.mono hextends', hfilled'⟩⟩

/-! ## One event after the other -/

theorem openAt_of_opening {tag : String} {attrs : Attributes}
    (h : es[j]? = some (.opening tag attrs)) : openAt es (j + 1) = j :: openAt es j := by
  rw [openAt, h]

theorem openAt_of_leaf {t : Tree Unit} (h : es[j]? = some (.leaf t)) :
    openAt es (j + 1) = openAt es j := by
  rw [openAt, h]

theorem lasting_of_closing {tag : String} (h : es[j]? = some (.closing tag)) :
    lasting es j = [] := by
  rw [lasting, h]
  dsimp only
  split <;> rfl

/-- Whether a forest part way through is what the events before event `j` describe. -/
structure Tracks (es : List Event) (j : Nat) (g : Growth) : Prop where
  grown : Grown es (openAt es j) (nodesBefore es j) g
  /-- An element that is not open any more has ended, and holds what came before that. -/
  ended : ∀ i tag attrs, i < j → es[i]? = some (.opening tag attrs) → i ∉ openAt es j →
    ∃ k, k < j ∧ i ∈ openAt es k ∧ Closes es k i ∧ Filled es g.slots i (nodesBefore es k)

theorem tracks_zero (es : List Event) : Tracks es 0 .empty :=
  ⟨⟨.nil, rfl⟩, fun _ _ _ hi ↦ absurd hi (Nat.not_lt_zero _)⟩

/-- An event that closes nothing leaves what has ended as it is. -/
theorem Tracks.succ (h : Tracks es j g) {g' : Growth}
    (hgrown : Grown es (openAt es (j + 1)) (nodesBefore es (j + 1)) g')
    (hextends : Slot.Extends g.slots g'.slots)
    (hclosed : ∀ i ∈ openAt es j, Closes es j i → Filled es g'.slots i (nodesBefore es j)) :
    Tracks es (j + 1) g' := by
  refine ⟨hgrown, fun i tag attrs hij hi hopen ↦ ?_⟩
  rw [mem_openAt_succ, not_or, not_and, not_and, not_not] at hopen
  obtain ⟨hne, hcloses⟩ := hopen
  have hne : i ≠ j := fun heq ↦ hne heq ⟨tag, attrs, heq ▸ hi⟩
  by_cases hmem : i ∈ openAt es j
  · exact ⟨j, Nat.lt_succ_self j, hmem, hcloses hmem, hclosed i hmem (hcloses hmem)⟩
  · obtain ⟨k, hk, hopen, hclose, hfilled⟩ := h.ended i tag attrs (by omega) hi hmem
    exact ⟨k, by omega, hopen, hclose, hfilled.mono hextends⟩

theorem not_closes {e : Event} (he : es[j]? = some e) (hne : ∀ tag, e ≠ .closing tag) :
    ¬Closes es j i := by
  rintro ⟨tag, m, hclosing, -⟩
  exact hne tag (Option.some.inj (he.symm.trans hclosing))

theorem Tracks.opening (h : Tracks es j g) {tag : String} {attrs : Attributes}
    (he : es[j]? = some (.opening tag attrs)) :
    Tracks es (j + 1) (g.step (.opening tag attrs)) := by
  have hslots : (g.step (.opening tag attrs)).slots =
      g.slots ++ [((.element tag, attrs, ""), none)] := rfl
  refine h.succ ⟨?_, ?_⟩ (hslots ▸ Slot.extends_append _ _) fun i _ hcloses ↦
    absurd hcloses (not_closes he fun _ ↦ Event.noConfusion)
  · rw [openAt_of_opening he]
    exact .cons he h.grown.nodes (fun m hm ↦ (spared_of_mem_openAt hm).1) h.grown.stacked
  · rw [hslots, List.map_append, h.grown.nodes, nodesBefore_succ, lasting, he]
    rfl

theorem Tracks.leaf (h : Tracks es j g) {t : Tree Unit} (he : es[j]? = some (.leaf t)) :
    Tracks es (j + 1) (g.step (.leaf t)) := by
  have hslots := Growth.slots_add g t
  have hempty : g.stack.isEmpty = (openAt es j).isEmpty := by
    rw [Bool.eq_iff_iff, List.isEmpty_iff_length_eq_zero, List.isEmpty_iff_length_eq_zero,
      h.grown.stacked.length_eq]
  refine h.succ ⟨?_, ?_⟩ (hslots ▸ Slot.extends_append _ _) fun i _ hcloses ↦
    absurd hcloses (not_closes he fun _ ↦ Event.noConfusion)
  · rw [openAt_of_leaf he]
    exact h.grown.stacked.add t
  · rw [Growth.step, hslots, List.map_append, h.grown.nodes, nodesBefore_succ, lasting, he, hempty,
      apply_ite (List.map Prod.fst), Slot.map_fst_ofTrees, Tree.subtreesAll_singleton]
    rfl

/-- A closing tag without a match leaves everything as it is. -/
theorem Tracks.closing_of_none (h : Tracks es j g) {tag : String}
    (he : es[j]? = some (.closing tag)) (hnone : innermost? es tag (openAt es j) = none) :
    Tracks es (j + 1) (g.step (.closing tag)) := by
  have hopen : openAt es (j + 1) = openAt es j := by
    rw [openAt, he]
    dsimp only
    rw [hnone]
  rw [Growth.step_closing_of_none (h.grown.stacked.findIdx?_eq_none hnone)]
  refine h.succ ?_ (.refl _) fun i _ hcloses ↦ ?_
  · rw [hopen, nodesBefore_succ, lasting_of_closing he, List.append_nil]
    exact h.grown
  · obtain ⟨tag', m, he', hm, -⟩ := hcloses
    obtain ⟨rfl⟩ := Option.some.inj (he.symm.trans he')
    rw [hnone] at hm
    contradiction

/-- A closing tag with a match ends that element and the ones opened inside it. -/
theorem Tracks.closing_of_some (h : Tracks es j g) {tag : String}
    (he : es[j]? = some (.closing tag)) {n : Nat}
    (hidx : (g.stack.findIdx? fun o ↦ equalIgnoringCase o.tag tag) = some n) :
    Tracks es (j + 1) (g.step (.closing tag)) := by
  obtain ⟨hlt, -⟩ := List.findIdx?_eq_some_iff_getElem.mp hidx
  rw [← h.grown.stacked.length_eq] at hlt
  have hm := List.getElem?_eq_getElem hlt
  have hmatch := h.grown.stacked.innermost?_eq tag
  rw [hidx, Option.bind_some, hm] at hmatch
  have hrest := h.grown.stacked.filter_lt hm
  have hopen : openAt es (j + 1) = (openAt es j).drop (n + 1) := by
    rw [openAt, he]
    dsimp only
    rw [hmatch]
    exact hrest
  obtain ⟨hgrown, hextends, hfilled⟩ := h.grown.closeMany hlt
  rw [Growth.step_closing_of_some hidx]
  refine h.succ ?_ hextends fun i hi hcloses ↦ hfilled i ?_
  · rw [hopen, nodesBefore_succ, lasting_of_closing he, List.append_nil]
    exact hgrown
  -- What the tag closes is not among those that stay open, so it is among those that are ended.
  · obtain ⟨tag', m, he', hm', hmi⟩ := hcloses
    obtain ⟨rfl⟩ := Option.some.inj (he.symm.trans he')
    obtain rfl := Option.some.inj (hmatch.symm.trans hm')
    rw [← List.take_append_drop (n + 1) (openAt es j), List.mem_append, ← hrest] at hi
    refine hi.resolve_right fun hmem ↦ ?_
    have := of_decide_eq_true (List.mem_filter.mp hmem).2
    omega

theorem Tracks.step (h : Tracks es j g) {e : Event} (he : es[j]? = some e) :
    Tracks es (j + 1) (g.step e) := by
  cases e with
  | opening tag attrs => exact h.opening he
  | leaf t => exact h.leaf he
  | closing tag =>
    rcases hidx : g.stack.findIdx? fun o ↦ equalIgnoringCase o.tag tag with - | n
    · refine h.closing_of_none he ?_
      rw [h.grown.stacked.innermost?_eq, hidx, Option.bind_none]
    · exact h.closing_of_some he hidx

theorem tracks_take (es : List Event) {j : Nat} (hj : j ≤ es.length) :
    Tracks es j ((es.take j).foldl Growth.step .empty) := by
  induction j with
  | zero => exact tracks_zero es
  | succ j ih =>
    have he : es[j]? = some es[j] := List.getElem?_eq_getElem hj
    rw [List.take_add_one, he, List.foldl_append]
    exact (ih (by omega)).step he

/-- Once every element has ended, the slots are those of the roots. -/
theorem Tracks.finish (h : Tracks es es.length g) {ts : List (Tree Unit)}
    (hts : (g.finish.filter fun t ↦ !t.isBlankText) = ts) :
    (Tree.subtreesAll ts).map Tree.face = nodesBefore es es.length ∧
      ∀ i tag attrs, es[i]? = some (.opening tag attrs) →
        ∃ j ≤ es.length, i ∈ openAt es j ∧ (Closes es j i ∨ j = es.length) ∧
          Filled es (Slot.ofTrees ts) i (nodesBefore es j) := by
  have hlength := h.grown.stacked.length_eq
  obtain ⟨hgrown, hextends, hfilled⟩ := h.grown.closeMany (Nat.le_refl _)
  rw [List.drop_length, hlength] at hgrown
  rw [List.take_length, hlength] at hfilled
  rw [hlength] at hextends
  have hslots : (g.closeMany g.stack.length).slots = Slot.ofTrees ts := by
    have hstack := List.eq_nil_of_length_eq_zero hgrown.stacked.length_eq.symm
    rw [Growth.slots, hstack, Growth.slotsOf, ← hts]
    rfl
  rw [hslots] at hextends hfilled
  refine ⟨?_, fun i tag attrs hi ↦ ?_⟩
  · rw [← Slot.map_fst_ofTrees, ← hslots]
    exact hgrown.nodes
  · by_cases hopen : i ∈ openAt es es.length
    · exact ⟨es.length, Nat.le_refl _, hopen, .inr rfl, hfilled i hopen⟩
    · have hlt := (List.getElem?_eq_some_iff.mp hi).1
      obtain ⟨k, hk, hopen, hcloses, hfilled⟩ := h.ended i tag attrs hlt hi hopen
      exact ⟨k, Nat.le_of_lt hk, hopen, .inl hcloses, hfilled.mono hextends⟩

/-- The slot of an opening holds the element, and below it what comes until its end. -/
theorem Filled.nested {ts : List (Tree Unit)} {tag : String} {attrs : Attributes}
    (h : Filled es (Slot.ofTrees ts) i (nodesBefore es j))
    (hi : es[i]? = some (.opening tag attrs)) (hj : j ≤ es.length) (hopen : i ∈ openAt es j) :
    ∃ t, (Tree.subtreesAll ts)[(nodesBefore es i).length]? = some t ∧
      t.face = (.element tag, attrs, "") ∧
      (Tree.subtreesAll t.children).map Tree.face = nodesBetween es i j := by
  obtain ⟨face, t, ht, hnodes⟩ := h
  rw [nodesBefore_of_mem_openAt hi hj hopen, List.drop_left, Tree.subtrees_eq,
    List.map_cons] at hnodes
  obtain ⟨hface, hchildren⟩ := List.cons.inj hnodes
  refine ⟨t, ?_, hface, hchildren⟩
  rw [Slot.ofTrees, List.getElem?_map] at ht
  obtain ⟨u, hu, hslot⟩ := Option.map_eq_some_iff.mp ht
  rw [hu, Option.some.inj (Prod.mk.inj hslot).2]

/-- A closing tag that has no match does nothing. -/
theorem forestOf_eraseIdx {tag : String} (hj : es[j]? = some (.closing tag))
    (hnone : innermost? es tag (openAt es j) = none) : forestOf (es.eraseIdx j) = forestOf es := by
  obtain ⟨hlt, he⟩ := List.getElem?_eq_some_iff.mp hj
  have hstacked := (tracks_take es (Nat.le_of_lt hlt)).grown.stacked
  have hstep := Growth.step_closing_of_none (hstacked.findIdx?_eq_none hnone)
  have hsplit : es = es.take j ++ .closing tag :: es.drop (j + 1) := by
    rw [← he, ← List.drop_eq_getElem_cons hlt, List.take_append_drop]
  rw [forestOf, forestOf, List.eraseIdx_eq_take_drop_succ, List.foldl_append]
  conv_rhs => rw [hsplit, List.foldl_append, List.foldl_cons, hstep]

end Nesting

open Nesting

/-- **A forest follows its events**, whatever these are. -/
theorem follows_forestOf (es : List Event) :
    Follows es ((forestOf es).filter fun t ↦ !t.isBlankText) := by
  have htracks := tracks_take es (Nat.le_refl _)
  rw [List.take_length] at htracks
  obtain ⟨hlisting, hends⟩ := htracks.finish rfl
  refine ⟨hlisting, fun i tag attrs hi ↦ ?_, fun j tag ↦ forestOf_eraseIdx⟩
  obtain ⟨j, hj, hopen, hend, hfilled⟩ := hends i tag attrs hi
  exact ⟨j, .of_mem_openAt hopen hend, hfilled.nested hi hj hopen⟩

/-- **The forest of a source is the one that its tags describe.** -/
theorem parseMarkup_follows {source : String} {ts : List (Tree Unit)}
    (h : parseMarkup source = .ok ts) : Follows (Reading.ofSource source).events ts := by
  obtain ⟨-, rfl⟩ := parseMarkup_eq_ok_iff.mp h
  exact follows_forestOf _

/-- A source with an element that is ended by the closing tag of another one, with a closing tag
that ends nothing, and with an element that the end of the source ends. -/
def tangled : String := "<div> <span>x</Div></p>\n<p>y<br></span>"

theorem parseMarkup_tangled : parseMarkup tangled = .ok (treesOf tangled) ∧
    Follows (Reading.ofSource tangled).events (treesOf tangled) := by
  have hread : parseMarkup tangled = .ok (treesOf tangled) :=
    parseMarkup_treesOf (by decide +kernel)
  exact ⟨hread, parseMarkup_follows hread⟩

end LiveMarkup
