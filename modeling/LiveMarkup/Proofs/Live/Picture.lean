import Mathlib.Logic.Function.Basic
import LiveMarkup.Markup.Printer
import LiveMarkup.Proofs.Live.Sketch

/-!
# Pictures

What execution leaves behind is a picture: trees that have holes, and for each hole the effect that
fills it. A picture says how the trees look for any texts in the holes, not only for the current
ones. So the later runs of the effects need no new argument: to fill a hole again is to look at the
same picture for other texts (`Picture.Retouchable`), and what the picture shows is what the
template renders to where all texts are current (`Picture.Renders`).

That holes can be filled one at a time is true only if no two of them are the same place. The
attributes of an element are such places if each is interpolated in its own value; an attribute that
is written through another one may be written twice.
-/

namespace LiveMarkup

/-! ## Attributes that are written more than once -/

namespace Attributes

variable {name other : String}

theorem set_set_self (name v w : String) (attrs : Attributes) :
    (attrs.set name v).set name w = attrs.set name w := by
  induction attrs with
  | nil => simp [set]
  | cons x attrs ih =>
    obtain ⟨k, value⟩ := x
    by_cases h : k = name
    · simp [set, h]
    · simp [set, h, ih]

/-- The order of writes to attributes that are there does not matter. -/
theorem set_comm (h : name ≠ other) {attrs : Attributes} (hname : name ∈ attrs.map Prod.fst)
    (hother : other ∈ attrs.map Prod.fst) (v w : String) :
    (attrs.set name v).set other w = (attrs.set other w).set name v := by
  induction attrs with
  | nil => exact absurd hname List.not_mem_nil
  | cons x attrs ih =>
    obtain ⟨k, value⟩ := x
    rw [List.map_cons, List.mem_cons] at hname hother
    by_cases hk : k = name
    · simp [set, hk, h]
    · by_cases hk' : k = other
      · simp [set, hk', Ne.symm h]
      · have hname := hname.resolve_left (Ne.symm hk)
        have hother := hother.resolve_left (Ne.symm hk')
        simp [set, hk, hk', ih hname hother]

end Attributes

/-- What keeps attributes of one element up to date: for each the attribute that asks for it, the
effect, and what it keeps. -/
abbrev Touches : Type := List (String × EffectId × Upkeep)

namespace Touches

/-- The attributes of an element with texts in their holes. -/
def paint (own : Touches) (v : EffectId → String) (attrs : Attributes) : Attributes :=
  own.foldl (fun done x ↦ x.2.2.workOff x.1 (v x.2.1) done) attrs

/-- Whether the attributes are what they should be where the texts are current. -/
def Paints (own : Touches) (attrs : Attributes) (target : (String → Value) → Attributes) : Prop :=
  ∀ v field, (∀ x ∈ own, v x.2.1 = x.2.2.value field) → own.paint v attrs = target field

/-- Whether each attribute is there, and interpolated in its own value. -/
structure Simple (own : Touches) (attrs : Attributes) : Prop where
  upkeep : ∀ x ∈ own, ∃ vm n template, x.2.2 = .interpolatedAttr vm n x.1 template
  names : (own.map Prod.fst).Nodup
  mem : ∀ x ∈ own, x.1 ∈ attrs.map Prod.fst

variable {own : Touches} {attrs : Attributes} {v w : EffectId → String}

theorem paint_congr (h : ∀ x ∈ own, v x.2.1 = w x.2.1) : own.paint v attrs = own.paint w attrs := by
  induction own generalizing attrs with
  | nil => rfl
  | cons x own ih =>
    obtain ⟨hx, hrest⟩ := List.forall_mem_cons.mp h
    rw [paint, List.foldl_cons, hx, paint, List.foldl_cons]
    exact ih hrest

/-- Where the texts are current, the attributes are rendered. -/
theorem paints_renderAttributes {C : Type} {c : Compiler C} {vm : ViewModelId} {n : NodeId}
    (hown : own.map (fun x ↦ (x.1, x.2.2)) = c.upkeeps vm n attrs) :
    own.Paints attrs fun field ↦ c.renderAttributes field attrs := by
  intro v field hv
  dsimp only
  rw [c.renderAttributes_eq field attrs vm n, ← hown, List.foldl_map, paint]
  refine List.foldl_ext _ _ _ fun done x hx ↦ ?_
  rw [hv x hx]

/-- What keeps the attributes up to date is what the template asks for, whatever the node. -/
theorem map_bare {C : Type} {c : Compiler C} {vm : ViewModelId} {n : NodeId}
    (hown : own.map (fun x ↦ (x.1, x.2.2)) = c.upkeeps vm n attrs) :
    own.map (fun x ↦ (x.1, x.2.2.bare)) = c.upkeeps default default attrs := by
  rw [← c.map_bare_upkeeps vm n, ← hown, List.map_map]
  rfl

/-- Interpolated attributes of an element that asks for no directive are simple, and depend on what
their values mention. -/
theorem simple_of_undirected {C : Type} {c : Compiler C} (hc : c.registry = .builtin)
    {vm : ViewModelId} {n : NodeId} (hown : own.map (fun x ↦ (x.1, x.2.2)) = c.upkeeps vm n attrs)
    (h : c.Undirected attrs) :
    own.Simple attrs ∧ ∀ x ∈ own, x.2.2.mentioned ⊆ c.attributeHeads attrs := by
  have hmem (x : String × EffectId × Upkeep) (hx : x ∈ own) :
      (x.1, x.2.2) ∈ c.upkeeps vm n attrs := hown ▸ List.mem_map.mpr ⟨x, hx, rfl⟩
  have hfst : (own.map Prod.fst).Sublist (attrs.map Prod.fst) := by
    have hsublist := c.map_fst_upkeeps_sublist vm n attrs
    rwa [← hown, List.map_map] at hsublist
  refine ⟨⟨fun x hx ↦ ?_, h.names.sublist hfst, fun x hx ↦ ?_⟩, fun x hx ↦ ?_⟩
  · obtain ⟨template, hu, -⟩ := h.of_mem_upkeeps hc (hmem x hx)
    exact ⟨vm, n, template, hu⟩
  · exact hfst.subset (List.mem_map_of_mem hx)
  · obtain ⟨template, hu, hmentioned⟩ := h.of_mem_upkeeps hc (hmem x hx)
    have hu : x.2.2 = .interpolatedAttr vm n x.1 template := hu
    rw [hu]
    exact hmentioned

theorem Simple.tail {x : String × EffectId × Upkeep} (h : Simple (x :: own) attrs) (text : String) :
    Simple own (attrs.set x.1 text) where
  upkeep y hy := h.upkeep y (List.mem_cons_of_mem x hy)
  names := (List.nodup_cons.mp h.names).2
  mem y hy := by
    rw [Attributes.map_fst_set (h.mem x List.mem_cons_self)]
    exact h.mem y (List.mem_cons_of_mem x hy)

theorem Simple.paint_cons {x : String × EffectId × Upkeep} (h : Simple (x :: own) attrs)
    (v : EffectId → String) : paint (x :: own) v attrs = own.paint v (attrs.set x.1 (v x.2.1)) := by
  obtain ⟨vm, n, template, hx⟩ := h.upkeep x List.mem_cons_self
  rw [paint, List.foldl_cons, hx]
  rfl

theorem Simple.set_paint (h : own.Simple attrs) {name : String} (hname : name ∉ own.map Prod.fst)
    (hmem : name ∈ attrs.map Prod.fst) (v : EffectId → String) (text : String) :
    (own.paint v attrs).set name text = own.paint v (attrs.set name text) := by
  induction own generalizing attrs with
  | nil => rfl
  | cons x own ih =>
    rw [List.map_cons, List.mem_cons, not_or] at hname
    have hx := h.mem x List.mem_cons_self
    have hset : Simple (x :: own) (attrs.set name text) :=
      ⟨h.upkeep, h.names, fun y hy ↦ (Attributes.map_fst_set hmem text).symm ▸ h.mem y hy⟩
    rw [h.paint_cons, hset.paint_cons, ih (h.tail _) hname.2, Attributes.set_comm hname.1 hmem hx]
    rw [Attributes.map_fst_set hx]
    exact hmem

/-- To write one of the attributes is to change the text in its hole. -/
theorem Simple.write_paint (h : own.Simple attrs) (hids : (own.map fun x ↦ x.2.1).Nodup)
    {x : String × EffectId × Upkeep} (hx : x ∈ own) (v : EffectId → String) (text : String) :
    x.2.2.write text (own.paint v attrs) = own.paint (Function.update v x.2.1 text) attrs := by
  induction own generalizing attrs with
  | nil => exact absurd hx List.not_mem_nil
  | cons y own ih =>
    obtain ⟨hy, hids⟩ := List.nodup_cons.mp hids
    rw [h.paint_cons, h.paint_cons]
    rcases List.mem_cons.mp hx with rfl | hx
    · obtain ⟨vm, n, template, hu⟩ := h.upkeep x List.mem_cons_self
      have hmem : x.1 ∈ (attrs.set x.1 (v x.2.1)).map Prod.fst := by
        rw [Attributes.map_fst_set (h.mem x List.mem_cons_self)]
        exact h.mem x List.mem_cons_self
      rw [hu, Upkeep.write, (h.tail _).set_paint (List.nodup_cons.mp h.names).1 hmem,
        Attributes.set_set_self, Function.update_self]
      refine paint_congr fun z hz ↦ ?_
      rw [Function.update_of_ne]
      rintro hzx
      exact hy (List.mem_map.mpr ⟨z, hz, hzx⟩)
    · have hne : y.2.1 ≠ x.2.1 := fun hyx ↦ hy (List.mem_map.mpr ⟨x, hx, hyx.symm⟩)
      rw [ih (h.tail _) hids hx, Function.update_of_ne hne]

end Touches

/-! ## Filling holes in nodes -/

namespace Upkeep

/-- A node of a list once a text is put in its place. -/
def retouch (u : Upkeep) (text : String) (x : NodeId × Node) : NodeId × Node :=
  if x.1 = u.node then
    (x.1, match u with
      | .text .. => { x.2 with data := text }
      | .attr .. | .interpolatedAttr .. => { x.2 with attrs := u.write text x.2.attrs })
  else x

variable {u : Upkeep} {text : String} {x : NodeId × Node}

theorem retouch_of_ne (h : x.1 ≠ u.node) (text : String) : u.retouch text x = x := if_neg h

@[simp] theorem fst_retouch (u : Upkeep) (text : String) (x : NodeId × Node) :
    (u.retouch text x).1 = x.1 := by
  unfold retouch
  split <;> rfl

theorem map_retouch_of_not_mem {xs : List (NodeId × Node)} (h : u.node ∉ xs.map Prod.fst)
    (text : String) : xs.map (u.retouch text) = xs := by
  refine (List.map_congr_left fun x hx ↦ retouch_of_ne (fun hxu ↦ h ?_) text).trans (List.map_id _)
  exact hxu ▸ List.mem_map_of_mem hx

/-- Putting a text in its place changes the one node, in the one way. -/
theorem shows_put {s : NodeStore} {xs : List (NodeId × Node)} (h : s.Shows id xs)
    (hu : ∃ x ∈ xs, x.1 = u.node ∧ u.KeepsShape x.2.kind) (text : String) :
    (u.put text s).Shows id (xs.map (u.retouch text)) := by
  obtain ⟨y, hy, hnode, hshape⟩ := hu
  obtain ⟨hlt, hget⟩ := h y hy
  have hget : s.get u.node = y.2 := hnode ▸ hget
  have hlt : u.node.index < s.size := hnode ▸ hlt
  have hput (f : Node → Node) (hf : u.put text s = s.modify u.node f)
      (hretouch : ∀ x : NodeId × Node, x.1 = u.node → u.retouch text x = (x.1, f x.2)) :
      (u.put text s).Shows id (xs.map (u.retouch text)) := by
    intro z hz
    obtain ⟨x, hx, rfl⟩ := List.mem_map.mp hz
    obtain ⟨hxlt, hxget⟩ := h x hx
    rw [fst_retouch, hf, NodeStore.size_modify, NodeStore.get_modify]
    refine ⟨hxlt, ?_⟩
    by_cases hxu : x.1 = u.node
    · rw [if_pos ⟨hxu, hlt⟩, hretouch x hxu, ← hxu]
      exact congrArg f hxget
    · rw [if_neg fun hc ↦ hxu hc.1, retouch_of_ne hxu]
      exact hxget
  cases u with
  | text vm node expression =>
    refine hput (fun n ↦ { n with data := text }) ?_ fun x hx ↦ if_pos hx
    have hkind : (s.get node).kind.isContainer = false := (congrArg (·.kind) hget) ▸ hshape
    exact NodeStore.setTextContent_of_text hkind text
  | attr vm node name expression =>
    exact hput (fun n ↦ { n with attrs := n.attrs.set name text }) rfl fun x hx ↦ if_pos hx
  | interpolatedAttr vm node name template =>
    exact hput (fun n ↦ { n with attrs := n.attrs.set name text }) rfl fun x hx ↦ if_pos hx

end Upkeep

/-! ## Pictures -/

/-- Trees with holes, and what fills each of them. -/
structure Picture where
  holes : List (EffectId × Upkeep)
  /-- The trees for given texts in the holes. -/
  forest : (EffectId → String) → List (Tree NodeId)

namespace Picture

/-- Whether the texts in the holes are what they should be where the fields have given values. -/
def Current (P : Picture) (v : EffectId → String) (field : String → Value) : Prop :=
  ∀ h ∈ P.holes, v h.1 = h.2.value field

/-- The roots of the trees, which no hole changes. -/
def roots (P : Picture) : List NodeId := (P.forest fun _ ↦ "").map Tree.label

/-- The nodes of the trees, which no hole changes. -/
def labels (P : Picture) : List NodeId := Tree.labelsAll (P.forest fun _ ↦ "")

/-- Whether holes change nothing but texts and attributes of the trees, and nothing else does. -/
structure Sound (P : Picture) : Prop where
  roots : ∀ v, (P.forest v).map Tree.label = P.roots
  labels : ∀ v, Tree.labelsAll (P.forest v) = P.labels
  congr : ∀ v w, (∀ h ∈ P.holes, v h.1 = w h.1) → P.forest v = P.forest w
  place : ∀ h ∈ P.holes, ∀ v p, ∃ x ∈ Tree.asNodesAll p (P.forest v),
    x.1 = h.2.node ∧ h.2.KeepsShape x.2.kind

/-- Whether holes can be filled one at a time. -/
def Retouchable (P : Picture) : Prop :=
  ∀ h ∈ P.holes, ∀ v text p, (Tree.asNodesAll p (P.forest v)).map (h.2.retouch text) =
    Tree.asNodesAll p (P.forest (Function.update v h.1 text))

/-- Whether the trees show what they should, where the texts are current. -/
def Renders (P : Picture) (target : (String → Value) → List (Tree NodeId)) : Prop :=
  ∀ v field, P.Current v field → Tree.markupAll (P.forest v) = Tree.markupAll (target field) ∧
    (P.forest v).isEmpty = (target field).isEmpty

theorem Sound.node_mem {P : Picture} (hP : P.Sound) {h : EffectId × Upkeep} (hh : h ∈ P.holes) :
    h.2.node ∈ P.labels := by
  obtain ⟨x, hx, hnode, -⟩ := hP.place h hh (fun _ ↦ "") none
  exact hnode ▸ Tree.mem_labelsAll_of_mem_asNodesAll hx

/-- What is filled in elsewhere does not show. -/
theorem Sound.forest_update {P : Picture} (hP : P.Sound) {e : EffectId}
    (he : e ∉ P.holes.map Prod.fst) (v : EffectId → String) (text : String) :
    P.forest (Function.update v e text) = P.forest v := by
  refine hP.congr _ _ fun h hh ↦ Function.update_of_ne (fun heq ↦ he ?_) _ _
  exact heq ▸ List.mem_map_of_mem hh

/-- A place elsewhere is none of the nodes. -/
theorem Sound.map_retouch {P : Picture} (hP : P.Sound) {u : Upkeep} (hu : u.node ∉ P.labels)
    (v : EffectId → String) (text : String) (p : Option NodeId) :
    (Tree.asNodesAll p (P.forest v)).map (u.retouch text) = Tree.asNodesAll p (P.forest v) := by
  refine Upkeep.map_retouch_of_not_mem ?_ text
  rwa [Tree.map_fst_asNodesAll, hP.labels]

/-- There are texts that are current. -/
theorem exists_current {P : Picture} (hP : (P.holes.map Prod.fst).Nodup) (field : String → Value) :
    ∃ v, P.Current v field := by
  unfold Current
  generalize P.holes = holes at hP
  induction holes with
  | nil => exact ⟨fun _ ↦ "", fun _ hh ↦ absurd hh List.not_mem_nil⟩
  | cons x holes ih =>
    obtain ⟨hx, hrest⟩ := List.nodup_cons.mp hP
    obtain ⟨v, hv⟩ := ih hrest
    refine ⟨Function.update v x.1 (x.2.value field), List.forall_mem_cons.mpr ⟨?_, fun h hh ↦ ?_⟩⟩
    · exact Function.update_self ..
    · rw [Function.update_of_ne, hv h hh]
      exact fun he ↦ hx (he ▸ List.mem_map_of_mem hh)

/-! ### Trees without holes -/

/-- Trees that stay as they are. -/
def still (ts : List (Tree NodeId)) : Picture := ⟨[], fun _ ↦ ts⟩

theorem sound_still (ts : List (Tree NodeId)) : (still ts).Sound where
  roots _ := rfl
  labels _ := rfl
  congr _ _ _ := rfl
  place _ hh := absurd hh List.not_mem_nil

theorem retouchable_still (ts : List (Tree NodeId)) : (still ts).Retouchable :=
  fun _ hh ↦ absurd hh List.not_mem_nil

/-! ### A text with a hole -/

/-- A text that is a hole. -/
def slot (e : EffectId) (u : Upkeep) : Picture := ⟨[(e, u)], fun v ↦ [.text u.node (v e)]⟩

theorem sound_slot (e : EffectId) {u : Upkeep} (hu : u.KeepsShape .text) : (slot e u).Sound where
  roots _ := rfl
  labels _ := rfl
  congr v w h := by
    have hv : v e = w e := h (e, u) List.mem_cons_self
    exact congrArg (fun text ↦ [Tree.text u.node text]) hv
  place h hh v p := by
    obtain rfl := List.mem_singleton.mp hh
    exact ⟨_, List.mem_cons_self, rfl, hu⟩

theorem retouchable_slot (e : EffectId) (vm : ViewModelId) (n : NodeId) (expression : String) :
    (slot e (.text vm n expression)).Retouchable := by
  intro h hh v text p
  obtain rfl := List.mem_singleton.mp hh
  simp [slot, Tree.asNodesAll, Tree.text, Tree.asNodes, Upkeep.retouch, Upkeep.node]

/-! ### Trees in a row -/

/-- The trees of one picture and then those of another. -/
def append (P Q : Picture) : Picture := ⟨P.holes ++ Q.holes, fun v ↦ P.forest v ++ Q.forest v⟩

section Append

variable {P Q : Picture}

theorem current_append {v : EffectId → String} {field : String → Value} :
    (P.append Q).Current v field ↔ P.Current v field ∧ Q.Current v field :=
  List.forall_mem_append

@[simp] theorem roots_append (P Q : Picture) : (P.append Q).roots = P.roots ++ Q.roots :=
  List.map_append

@[simp] theorem labels_append (P Q : Picture) : (P.append Q).labels = P.labels ++ Q.labels :=
  Tree.labelsAll_append _ _

theorem Sound.append (hP : P.Sound) (hQ : Q.Sound) : (P.append Q).Sound where
  roots v := by
    rw [roots_append, ← hP.roots v, ← hQ.roots v]
    exact List.map_append
  labels v := by
    rw [labels_append, ← hP.labels v, ← hQ.labels v]
    exact Tree.labelsAll_append _ _
  congr v w h := by
    obtain ⟨hp, hq⟩ := List.forall_mem_append.mp h
    exact congrArg₂ (· ++ ·) (hP.congr v w hp) (hQ.congr v w hq)
  place h hh v p := by
    change ∃ x ∈ Tree.asNodesAll p (P.forest v ++ Q.forest v), _
    rw [Tree.asNodesAll_append]
    rcases List.mem_append.mp hh with hh | hh
    · obtain ⟨x, hx, hnode⟩ := hP.place h hh v p
      exact ⟨x, List.mem_append_left _ hx, hnode⟩
    · obtain ⟨x, hx, hnode⟩ := hQ.place h hh v p
      exact ⟨x, List.mem_append_right _ hx, hnode⟩

/-- A hole of the one picture is neither among the nodes nor among the holes of the other. -/
theorem Retouchable.append (hP : P.Retouchable) (hQ : Q.Retouchable) (hsP : P.Sound)
    (hsQ : Q.Sound) (hlabels : List.Disjoint P.labels Q.labels)
    (hids : ((P.append Q).holes.map Prod.fst).Nodup) : (P.append Q).Retouchable := by
  have hids : (P.holes.map Prod.fst ++ Q.holes.map Prod.fst).Nodup := List.map_append ▸ hids
  have hdisjoint := (List.nodup_append'.mp hids).2.2
  intro h hh v text p
  change (Tree.asNodesAll p (P.forest v ++ Q.forest v)).map _ =
    Tree.asNodesAll p (P.forest _ ++ Q.forest _)
  rw [Tree.asNodesAll_append, List.map_append, Tree.asNodesAll_append]
  rcases List.mem_append.mp hh with hh | hh
  · have hid : h.1 ∉ Q.holes.map Prod.fst := hdisjoint (List.mem_map_of_mem hh)
    have hnode : h.2.node ∉ Q.labels := hlabels (hsP.node_mem hh)
    rw [hP h hh, hsQ.forest_update hid, hsQ.map_retouch hnode]
  · have hid : h.1 ∉ P.holes.map Prod.fst := fun hmem ↦
      hdisjoint hmem (List.mem_map_of_mem hh)
    have hnode : h.2.node ∉ P.labels := fun hmem ↦ hlabels hmem (hsQ.node_mem hh)
    rw [hQ h hh, hsP.forest_update hid, hsP.map_retouch hnode]

theorem Renders.append {f g : (String → Value) → List (Tree NodeId)} (hP : P.Renders f)
    (hQ : Q.Renders g) : (P.append Q).Renders fun field ↦ f field ++ g field := by
  intro v field h
  obtain ⟨hp, hq⟩ := current_append.mp h
  obtain ⟨hpm, hpe⟩ := hP v field hp
  obtain ⟨hqm, hqe⟩ := hQ v field hq
  have hempty (ts us : List (Tree NodeId)) : (ts ++ us).isEmpty = (ts.isEmpty && us.isEmpty) := by
    cases ts <;> rfl
  change Tree.markupAll (P.forest v ++ Q.forest v) = _ ∧ (P.forest v ++ Q.forest v).isEmpty = _
  rw [Tree.markupAll_append, Tree.markupAll_append, hpm, hqm, hempty, hempty, hpe, hqe]
  exact ⟨rfl, rfl⟩

end Append

/-! ### Trees below a node -/

/-- The trees of a picture below a node that has holes among its attributes. -/
def below (P : Picture) (n : NodeId) (kind : NodeKind) (attrs : Attributes) (data : String)
    (own : Touches) : Picture where
  holes := own.map Prod.snd ++ P.holes
  forest v := [.node n kind (own.paint v attrs) data (P.forest v)]

section Below

variable {P : Picture} {n : NodeId} {kind : NodeKind} {attrs : Attributes} {data : String}
  {own : Touches}

theorem current_below {v : EffectId → String} {field : String → Value} :
    (P.below n kind attrs data own).Current v field ↔
      (∀ x ∈ own, v x.2.1 = x.2.2.value field) ∧ P.Current v field := by
  rw [Current, Current, below, List.forall_mem_append, List.forall_mem_map]

theorem labels_below (n : NodeId) (kind : NodeKind) (attrs : Attributes) (data : String)
    (own : Touches) : (P.below n kind attrs data own).labels = n :: P.labels :=
  List.append_nil _

theorem Sound.below (hP : P.Sound) (attrs : Attributes) (data : String)
    (hown : ∀ x ∈ own, x.2.2.node = n ∧ x.2.2.KeepsShape kind) :
    (P.below n kind attrs data own).Sound where
  roots _ := rfl
  labels v := by
    rw [labels_below, ← hP.labels v]
    exact List.append_nil _
  congr v w h := by
    obtain ⟨hxs, hp⟩ := List.forall_mem_append.mp h
    have hpaint : own.paint v attrs = own.paint w attrs :=
      Touches.paint_congr fun x hx ↦ hxs x.2 (List.mem_map_of_mem hx)
    exact congrArg₂ (fun as ts ↦ [Tree.node n kind as data ts]) hpaint (hP.congr v w hp)
  place h hh v p := by
    rcases List.mem_append.mp hh with hh | hh
    · obtain ⟨x, hx, rfl⟩ := List.mem_map.mp hh
      obtain ⟨hnode, hshape⟩ := hown x hx
      exact ⟨_, List.mem_cons_self, hnode.symm, hshape⟩
    · obtain ⟨x, hx, hnode⟩ := hP.place h hh v (some n)
      exact ⟨x, List.mem_append_left _ (List.mem_cons_of_mem _ hx), hnode⟩

theorem Retouchable.below (hP : P.Retouchable) (hsP : P.Sound) (hn : n ∉ P.labels) (data : String)
    (hown : ∀ x ∈ own, x.2.2.node = n) (hsimple : own.Simple attrs)
    (hids : ((P.below n kind attrs data own).holes.map Prod.fst).Nodup) :
    (P.below n kind attrs data own).Retouchable := by
  have hids : (own.map (fun x ↦ x.2.1) ++ P.holes.map Prod.fst).Nodup := by
    rw [Picture.below, List.map_append, List.map_map] at hids
    exact hids
  obtain ⟨hidsown, -, hdisjoint⟩ := List.nodup_append'.mp hids
  have hroots (v w : EffectId → String) :
      (P.forest v).map Tree.label = (P.forest w).map Tree.label :=
    (hsP.roots v).trans (hsP.roots w).symm
  intro h hh v text p
  change (_ :: _ ++ []).map _ = _ :: _ ++ []
  rw [List.append_nil, List.append_nil, List.map_cons]
  rcases List.mem_append.mp hh with hh | hh
  · -- A hole of the node's own: the trees below it do not change.
    obtain ⟨x, hx, rfl⟩ := List.mem_map.mp hh
    obtain ⟨vm, m, template, hu⟩ := hsimple.upkeep x hx
    have hid : x.2.1 ∉ P.holes.map Prod.fst := hdisjoint (List.mem_map_of_mem hx)
    have hnode : x.2.2.node ∉ P.labels := hown x hx ▸ hn
    rw [hsP.forest_update hid, hsP.map_retouch hnode, ← hsimple.write_paint hidsown hx, hu,
      Upkeep.retouch, ← hu, if_pos (hown x hx).symm, hu]
  · -- A hole below it: its attributes do not change, nor the roots that it lists.
    have hpaint : own.paint (Function.update v h.1 text) attrs = own.paint v attrs := by
      refine Touches.paint_congr fun x hx ↦ Function.update_of_ne (fun he ↦ ?_) _ _
      exact hdisjoint (List.mem_map_of_mem hx) (he ▸ List.mem_map_of_mem hh)
    rw [hP h hh, hpaint, hroots v (Function.update v h.1 text), Upkeep.retouch_of_ne]
    intro he
    have he : n = h.2.node := he
    exact hn (he ▸ hsP.node_mem hh)

/-- A node whose attributes are what they should be shows what it should, if the trees below it
do. -/
theorem Renders.below {f : (String → Value) → List (Tree NodeId)} (hP : P.Renders f)
    {target : (String → Value) → Attributes} (hown : own.Paints attrs target) (n m : NodeId)
    (kind : NodeKind) (data : String) :
    (P.below n kind attrs data own).Renders
      fun field ↦ [.node m kind (target field) data (f field)] := by
  intro v field h
  obtain ⟨hxs, hp⟩ := current_below.mp h
  obtain ⟨hmarkup, hempty⟩ := hP v field hp
  refine ⟨?_, rfl⟩
  change Tree.markupAll [.node n kind (own.paint v attrs) data (P.forest v)] = _
  rw [hown v field hxs]
  cases kind <;> simp only [Tree.markupAll, Tree.markup, hmarkup, hempty]

end Below

/-! ### Pictures of a sketch -/

/-- Whether a picture is one of a sketch: it has the same holes, in order, and its trees are the same
but for their labels where the holes have the same texts. -/
structure Follows (P : Picture) (S : Sketch) : Prop where
  holes : P.holes.map (fun h ↦ h.2.bare) = S.holes
  forest : ∀ (v : EffectId → String) (text : Nat → String),
    (∀ i h, P.holes[i]? = some h → text i = v h.1) →
      Tree.mapAll (fun _ ↦ ()) (P.forest v) = S.forest text

theorem follows_still {ts : List (Tree NodeId)} {us : List (Tree Unit)}
    (h : Tree.mapAll (fun _ ↦ ()) ts = us) : (still ts).Follows (.still us) :=
  ⟨rfl, fun _ _ _ ↦ h⟩

theorem follows_slot (e : EffectId) (u : Upkeep) : (slot e u).Follows (.slot u.bare) where
  holes := rfl
  forest v text h := by
    have hv : text 0 = v e := h 0 (e, u) rfl
    simp [slot, Sketch.slot, Tree.text, Tree.mapAll, Tree.map, hv]

theorem Follows.length_holes {P : Picture} {S : Sketch} (h : P.Follows S) :
    P.holes.length = S.holes.length := by
  rw [← h.holes, List.length_map]

theorem Follows.append {P Q : Picture} {S T : Sketch} (hP : P.Follows S) (hQ : Q.Follows T) :
    (P.append Q).Follows (S.append T) where
  holes := by
    rw [Sketch.append, ← hP.holes, ← hQ.holes]
    exact List.map_append
  forest v text h := by
    change Tree.mapAll _ (P.forest v ++ Q.forest v) = _
    rw [Tree.mapAll_append, Sketch.append, ← hP.length_holes]
    refine congrArg₂ (· ++ ·) (hP.forest v text fun i x hx ↦ h i x ?_)
      (hQ.forest v _ fun i x hx ↦ h _ x ?_)
    · exact (List.getElem?_append_left (List.getElem?_eq_some_iff.mp hx).1).trans hx
    · change (P.holes ++ Q.holes)[_]? = _
      rw [List.getElem?_append_right (Nat.le_add_right _ _), Nat.add_sub_cancel_left, hx]

/-- The attributes of an element with texts in their holes, however the holes are named. -/
theorem paint_eq_of_bare {own : Touches} {own' : List (String × Upkeep)}
    (hown : own.map (fun x ↦ (x.1, x.2.2.bare)) = own') {v : EffectId → String}
    {text : Nat → String} (h : ∀ i x, own[i]? = some x → text i = v x.2.1) (attrs : Attributes) :
    own.paint v attrs = Sketch.paint own' text attrs := by
  subst hown
  induction own generalizing text attrs with
  | nil => rfl
  | cons x own ih =>
    rw [List.map_cons, Sketch.paint, h 0 x rfl, Touches.paint, List.foldl_cons, Upkeep.workOff_bare]
    exact ih (fun i y hy ↦ h (i + 1) y hy) _

theorem Follows.below {P : Picture} {S : Sketch} (hP : P.Follows S) {own : Touches}
    {own' : List (String × Upkeep)} (hown : own.map (fun x ↦ (x.1, x.2.2.bare)) = own')
    (n : NodeId) (kind : NodeKind) (attrs : Attributes) (data : String) :
    (P.below n kind attrs data own).Follows (S.below kind attrs data own') where
  holes := by
    subst hown
    rw [Sketch.below, Picture.below, List.map_append, hP.holes, List.map_map, List.map_map]
    rfl
  forest v text h := by
    have hlength : (own.map Prod.snd).length = own.length := List.length_map _
    have hfirst : ∀ i x, own[i]? = some x → text i = v x.2.1 := by
      intro i x hx
      have hmap : (own.map Prod.snd)[i]? = some x.2 := by rw [List.getElem?_map, hx]; rfl
      refine h i x.2 ((List.getElem?_append_left ?_).trans hmap)
      exact (List.getElem?_eq_some_iff.mp hmap).1
    have hrest : ∀ i x, P.holes[i]? = some x → text (own.length + i) = v x.1 := by
      intro i x hx
      refine h (own.length + i) x ((List.getElem?_append_right ?_).trans ?_)
      · exact hlength ▸ Nat.le_add_right _ _
      · rw [hlength, Nat.add_sub_cancel_left, hx]
    have hown' : own.length = own'.length := by rw [← hown, List.length_map]
    change [Tree.node () kind (own.paint v attrs) data (Tree.mapAll _ (P.forest v))] =
      [Tree.node () kind (Sketch.paint own' text attrs) data
        (S.forest fun i ↦ text (own'.length + i))]
    rw [← hown', ← hP.forest v _ hrest, ← paint_eq_of_bare hown hfirst]

end Picture

/-! ## Designs -/

/-- What is to be drawn. -/
structure Design where
  /-- What is to be shown, by the values of the fields. -/
  target : (String → Value) → List (Tree NodeId)
  /-- The fields that this depends on. -/
  heads : List String
  /-- Whether no place is written through another one. -/
  simple : Prop
  /-- What this is drawn as. -/
  sketch : Sketch

namespace Design

/-- One design and then another. -/
def append (D E : Design) : Design :=
  ⟨fun field ↦ D.target field ++ E.target field, D.heads ++ E.heads, D.simple ∧ E.simple,
    D.sketch.append E.sketch⟩

/-- A design below a node with the given attributes, with what keeps them up to date, what they
should be, the fields they depend on, and whether none of them is written through another. -/
def below (D : Design) (n : NodeId) (kind : NodeKind) (attrs : Attributes) (data : String)
    (own : List (String × Upkeep)) (target : (String → Value) → Attributes) (heads : List String)
    (simple : Prop) : Design :=
  ⟨fun field ↦ [.node n kind (target field) data (D.target field)], heads ++ D.heads,
    simple ∧ D.simple, D.sketch.below kind attrs data own⟩

end Design

namespace Picture

/-- Whether a picture is one of a design. -/
structure Fits (P : Picture) (D : Design) : Prop where
  sound : P.Sound
  nodup : P.labels.Nodup
  renders : P.Renders D.target
  retouchable : D.simple → P.Retouchable
  mentioned : D.simple → ∀ h ∈ P.holes, h.2.mentioned ⊆ D.heads
  follows : P.Follows D.sketch

namespace Fits

variable {P Q : Picture} {D E : Design}

/-- A picture fits another design that asks for the same and promises as much. -/
theorem of_eq (h : P.Fits D)
    (htarget : ∀ field, Tree.markupAll (D.target field) = Tree.markupAll (E.target field) ∧
      (D.target field).isEmpty = (E.target field).isEmpty)
    (hsimple : E.simple → D.simple ∧ D.heads ⊆ E.heads) (hsketch : D.sketch = E.sketch) :
    P.Fits E where
  sound := h.sound
  nodup := h.nodup
  renders v field hv := by
    obtain ⟨hmarkup, hempty⟩ := h.renders v field hv
    exact ⟨hmarkup.trans (htarget field).1, hempty.trans (htarget field).2⟩
  retouchable hE := h.retouchable (hsimple hE).1
  mentioned hE x hx := List.Subset.trans (h.mentioned (hsimple hE).1 x hx) (hsimple hE).2
  follows := hsketch ▸ h.follows

theorem append (hP : P.Fits D) (hQ : Q.Fits E) (hlabels : List.Disjoint P.labels Q.labels)
    (hids : ((P.append Q).holes.map Prod.fst).Nodup) : (P.append Q).Fits (D.append E) where
  sound := hP.sound.append hQ.sound
  nodup := by
    rw [labels_append, List.nodup_append']
    exact ⟨hP.nodup, hQ.nodup, hlabels⟩
  renders := hP.renders.append hQ.renders
  retouchable h :=
    (hP.retouchable h.1).append (hQ.retouchable h.2) hP.sound hQ.sound hlabels hids
  mentioned h x hx := by
    rcases List.mem_append.mp hx with hx | hx
    · exact List.Subset.trans (hP.mentioned h.1 x hx) (List.subset_append_left ..)
    · exact List.Subset.trans (hQ.mentioned h.2 x hx) (List.subset_append_right ..)
  follows := hP.follows.append hQ.follows

theorem below (hP : P.Fits D) {n : NodeId} {kind : NodeKind} {attrs : Attributes} {own : Touches}
    {own' : List (String × Upkeep)} {target : (String → Value) → Attributes} {heads : List String}
    {simple : Prop} (hn : n ∉ P.labels) (m : NodeId) (data : String)
    (hbare : own.map (fun x ↦ (x.1, x.2.2.bare)) = own') (hpaints : own.Paints attrs target)
    (hown : ∀ x ∈ own, x.2.2.node = n ∧ x.2.2.KeepsShape kind)
    (hsimple : simple → own.Simple attrs ∧ ∀ x ∈ own, x.2.2.mentioned ⊆ heads)
    (hids : ((P.below n kind attrs data own).holes.map Prod.fst).Nodup) :
    (P.below n kind attrs data own).Fits
      (D.below m kind attrs data own' target heads simple) where
  sound := hP.sound.below attrs data hown
  nodup := labels_below n kind attrs data own ▸ List.nodup_cons.mpr ⟨hn, hP.nodup⟩
  renders := hP.renders.below hpaints n m kind data
  retouchable h := (hP.retouchable h.2).below hP.sound hn data (fun x hx ↦ (hown x hx).1)
    (hsimple h.1).1 hids
  mentioned h y hy := by
    rcases List.mem_append.mp hy with hy | hy
    · obtain ⟨x, hx, rfl⟩ := List.mem_map.mp hy
      exact List.Subset.trans ((hsimple h.1).2 x hx) (List.subset_append_left ..)
    · exact List.Subset.trans (hP.mentioned h.2 y hy) (List.subset_append_right ..)
  follows := hP.follows.below hbare n kind attrs data

/-- Trees that stay as they are fit any design that shows them. -/
theorem still {ts : List (Tree NodeId)} (hts : (Tree.labelsAll ts).Nodup)
    (hsketch : D.sketch = .still (Tree.mapAll (fun _ ↦ ()) ts))
    (htarget : ∀ field, Tree.markupAll ts = Tree.markupAll (D.target field) ∧
      ts.isEmpty = (D.target field).isEmpty) : (still ts).Fits D where
  sound := sound_still ts
  nodup := hts
  renders _ field _ := htarget field
  retouchable _ := retouchable_still ts
  mentioned _ _ hx := absurd hx List.not_mem_nil
  follows := hsketch ▸ follows_still rfl

end Fits

end Picture

end LiveMarkup
