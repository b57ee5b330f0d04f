import LiveMarkup.Proofs.Live.Templates
import LiveMarkup.Proofs.Markup.Boundaries
import LiveMarkup.Proofs.Markup.Reading
import LiveMarkup.Proofs.Markup.RoundTrip
import Mathlib.Data.List.TakeWhile

/-!
# What is read is tidy

Whatever the source, a forest that is read from it could have been written with care: tags and
attribute names consist of the characters that these can have, no attribute stands twice, and
nothing contains what would end it (`parseMarkup_tidy`). Two things keep such a forest from being
in normal form. A value may contain a double quote, because a source can have single quotes around
it; and a text may stand directly behind another one, because a closing tag between them may have
closed nothing. Where neither is the case, the markup of the forest is read as the forest.

Each of these facts is one about the bytes that were taken: a name ends at the first byte that a
name cannot have, a text at the first `<`, a comment and a script at the first place that ends them
(`eq_false_of_breakAt?`). Events of a source so contribute tidy trees only
(`contributes_of_mem_events`). Whoever mounts or plants a forest needs less: that only elements have
children, that no node is a fragment, and that every attribute has a name
(`Reading.wellFormed_forest`).
-/

namespace LiveMarkup

open Utf8

/-! ## Tidy trees -/

/-- Attributes as they are read: the names as they can be written, each of them once. -/
structure Attributes.WellNamed (attrs : Attributes) : Prop where
  names : ∀ x ∈ attrs, x.1.toList ≠ [] ∧ ∀ c ∈ x.1.toList, isNameChar c = true
  distinct : (attrs.map Prod.fst).Nodup

namespace Attributes

variable {attrs : Attributes}

theorem wellNamed_nil : WellNamed [] := ⟨fun _ hx ↦ absurd hx List.not_mem_nil, List.nodup_nil⟩

/-- To set an attribute again does not give it a second place. -/
theorem WellNamed.set (h : attrs.WellNamed) {name : String} (hne : name.toList ≠ [])
    (hchars : ∀ c ∈ name.toList, isNameChar c = true) (value : String) :
    WellNamed (attrs.set name value) := by
  have hnames : ∀ k ∈ (attrs.set name value).map Prod.fst,
      k.toList ≠ [] ∧ ∀ c ∈ k.toList, isNameChar c = true := by
    have hold : ∀ k ∈ attrs.map Prod.fst, k.toList ≠ [] ∧ ∀ c ∈ k.toList, isNameChar c = true :=
      List.forall_mem_map.mpr h.names
    by_cases hmem : name ∈ attrs.map Prod.fst
    · rwa [map_fst_set hmem]
    · rw [set_of_notMem hmem, List.map_append]
      exact List.forall_mem_append.mpr ⟨hold, List.forall_mem_singleton.mpr ⟨hne, hchars⟩⟩
  refine ⟨List.forall_mem_map.mp hnames, ?_⟩
  by_cases hmem : name ∈ attrs.map Prod.fst
  · rw [map_fst_set hmem]
    exact h.distinct
  · rw [set_of_notMem hmem, List.map_append]
    refine h.distinct.append (List.nodup_singleton name) ?_
    exact List.disjoint_singleton.mpr hmem

theorem WellNamed.writable (h : attrs.WellNamed) (hvalues : ∀ x ∈ attrs, '"' ∉ x.2.toList) :
    attrs.Writable := ⟨h.names, hvalues, h.distinct⟩

end Attributes

namespace Tree

variable {α : Type}

mutual

/-- Whether a tree can have been read: normal form, but for the quotes in values and for texts that
stand directly behind each other. -/
def Tidy : Tree α → Prop
  | .node _ k as d cs =>
    match k with
    | .text => d ≠ "" ∧ '<' ∉ d.toList ∧ (d = " " ∨ allBlank d.toList = false)
    | .comment => ¬"-->".toList <:+: d.toList
    | .fragment => False
    | .element tag =>
      IsTagName tag ∧ as.WellNamed ∧ (isVoidTag tag = true → cs = []) ∧
        if equalIgnoringCase tag "script" then IsScriptBody cs else TidyAll cs

/-- Whether each of the trees can have been read. -/
def TidyAll : List (Tree α) → Prop
  | [] => True
  | t :: ts => t.Tidy ∧ TidyAll ts

end

theorem tidyAll_iff {ts : List (Tree α)} : TidyAll ts ↔ ∀ t ∈ ts, t.Tidy := by
  induction ts with
  | nil => exact iff_of_true trivial fun _ ht ↦ absurd ht List.not_mem_nil
  | cons t ts ih => rw [TidyAll, ih, List.forall_mem_cons]

theorem isShownAll_iff {ts : List (Tree α)} : IsShownAll ts ↔ ∀ t ∈ ts, t.IsShown := by
  induction ts with
  | nil => exact iff_of_true trivial fun _ ht ↦ absurd ht List.not_mem_nil
  | cons t ts ih => rw [IsShownAll, ih, List.forall_mem_cons]

/-- Whether the markup of trees shows where each value and each text ends: in them and in all trees
within them, no value of an attribute contains a double quote and no text stands directly behind
another one. -/
structure Legible (ts : List (Tree α)) : Prop where
  values : ∀ t ∈ subtreesAll ts, ∀ x ∈ t.attrs, '"' ∉ x.2.toList
  spaced : Spaced ts
  spacedWithin : ∀ t ∈ subtreesAll ts, Spaced t.children

mutual

theorem normalForm_of_tidy (t : Tree α) (h : t.Tidy)
    (hvalues : ∀ u ∈ t.subtrees, ∀ x ∈ u.attrs, '"' ∉ x.2.toList)
    (hspaced : ∀ u ∈ t.subtrees, Spaced u.children) : t.NormalForm := by
  obtain ⟨l, k, as, d, cs⟩ := t
  rw [subtrees] at hvalues hspaced
  obtain ⟨hattrs, hvaluesAll⟩ := List.forall_mem_cons.mp hvalues
  obtain ⟨hchildren, hspacedAll⟩ := List.forall_mem_cons.mp hspaced
  rcases k with tag | - | - | -
  · obtain ⟨htag, hnames, hvoid, hcs⟩ := h
    refine ⟨htag, hnames.writable hattrs, hvoid, ?_⟩
    by_cases hscript : equalIgnoringCase tag "script" = true
    · rw [if_pos hscript] at hcs ⊢
      exact hcs
    · rw [if_neg hscript] at hcs ⊢
      exact ⟨normalFormAll_of_tidyAll cs hcs hvaluesAll hspacedAll, hchildren⟩
  · exact h
  · exact h
  · exact h

theorem normalFormAll_of_tidyAll (ts : List (Tree α)) (h : TidyAll ts)
    (hvalues : ∀ u ∈ subtreesAll ts, ∀ x ∈ u.attrs, '"' ∉ x.2.toList)
    (hspaced : ∀ u ∈ subtreesAll ts, Spaced u.children) : NormalFormAll ts := by
  rcases ts with - | ⟨t, ts⟩
  · trivial
  · rw [subtreesAll] at hvalues hspaced
    obtain ⟨hvalue, hvalues⟩ := List.forall_mem_append.mp hvalues
    obtain ⟨hchildren, hspaced⟩ := List.forall_mem_append.mp hspaced
    exact ⟨normalForm_of_tidy t h.1 hvalue hchildren,
      normalFormAll_of_tidyAll ts h.2 hvalues hspaced⟩

end

mutual

theorem map_unit (t : Tree Unit) : t.map (fun _ ↦ ()) = t := by
  obtain ⟨l, k, as, d, cs⟩ := t
  rw [map, mapAll_unit cs]

theorem mapAll_unit (ts : List (Tree Unit)) : mapAll (fun _ ↦ ()) ts = ts := by
  rcases ts with - | ⟨t, ts⟩
  · rfl
  · rw [mapAll, map_unit t, mapAll_unit ts]

end

/-- Tidy trees that can be told apart in their markup are read back from it. -/
theorem parseMarkup_of_legible {ts : List (Tree Unit)} (h : TidyAll ts) (hshown : IsShownAll ts)
    (hvisible : ∀ t ∈ ts, t.isBlankText = false) (hlegible : Legible ts) :
    parseMarkup (String.ofList (markupAll ts)) = .ok ts := by
  have hnormal := normalFormAll_of_tidyAll ts h hlegible.values hlegible.spacedWithin
  rw [parseMarkup_eq_shownAll ⟨hnormal, hlegible.spaced, hvisible⟩, shownAll_eq_plain ts hshown,
    mapAll_unit]

end Tree

/-! ## Events -/

namespace Scan

/-- What a source contributes as a complete tree: a tidy one that its markup shows. -/
structure IsLeaf (t : Tree Unit) : Prop where
  tidy : t.Tidy
  shown : t.IsShown

/-- What a source contributes as the opening of an element: with a tag that has content, and not
raw text. -/
structure IsOpening (tag : String) (attrs : Attributes) : Prop where
  name : IsTagName tag
  attrs : attrs.WellNamed
  notVoid : isVoidTag tag = false
  notScript : equalIgnoringCase tag "script" = false

theorem isLeaf_element {tag : String} {attrs : Attributes} {children : List (Tree Unit)}
    (h : IsOpening tag attrs) (hchildren : ∀ t ∈ children, IsLeaf t) :
    IsLeaf (.element () tag attrs children) := by
  refine ⟨⟨h.name, h.attrs, fun hvoid ↦ ?_, ?_⟩, rfl, ?_⟩
  · rw [h.notVoid] at hvoid
    contradiction
  · rw [h.notScript, if_neg Bool.false_ne_true]
    exact Tree.tidyAll_iff.mpr fun t ht ↦ (hchildren t ht).tidy
  · exact Tree.isShownAll_iff.mpr fun t ht ↦ (hchildren t ht).shown

theorem isTagChar_of_isTagByte {c : Char} (hc : c.toNat < 0x80)
    (h : Byte.isTagByte (UInt8.ofNat c.toNat) = true) : isTagChar c = true := by
  rw [isTagByte_iff, toNat_ofNat (by omega)] at h
  exact isTagChar_iff.mpr h

theorem isNameChar_of_isNameByte {c : Char} (hc : c.toNat < 0x80)
    (h : Byte.isNameByte (UInt8.ofNat c.toNat) = true) : isNameChar c = true := by
  rw [isNameByte_iff, toNat_ofNat (by omega)] at h
  exact isNameChar_iff.mpr (h.imp_left (isTagChar_of_isTagByte hc))

theorem lt_of_isNameByte {b : UInt8} (h : Byte.isNameByte b = true) : b.toNat < 0x80 := by
  rw [isNameByte_iff, isTagByte_iff] at h
  omega

theorem isTagName_pieceText {bs : List UInt8} (hne : bs ≠ [])
    (h : ∀ b ∈ bs, Byte.isTagByte b = true) : IsTagName (pieceText bs) := by
  constructor <;> rw [toList_pieceText]
  · exact decode_ne_nil hne
  · exact forall_mem_decode (fun _ ↦ lt_of_isTagByte) (fun _ ↦ isTagChar_of_isTagByte) h

theorem wellNamed_of_tagBody {attrs attrs' : Attributes} {closed : Bool} {bs rest : List UInt8}
    (h : tagBody attrs bs = .ok (attrs', closed, rest)) (hattrs : attrs.WellNamed) :
    attrs'.WellNamed := by
  fun_induction tagBody attrs bs with
  | case1 | case2 | case3 =>
    simp only [Except.ok.injEq, Prod.mk.injEq] at h
    exact h.1 ▸ hattrs
  | case4 => contradiction
  | case5 attrs bs b r _ _ _ hb name value rest' _ ih =>
    have hbytes : ∀ x ∈ b :: r.takeWhile Byte.isNameByte, Byte.isNameByte x = true :=
      List.forall_mem_cons.mpr ⟨hb, fun _ ↦ List.mem_takeWhile_imp⟩
    refine ih h (hattrs.set ?_ ?_ value)
    · rw [toList_pieceText]
      exact decode_ne_nil (List.cons_ne_nil _ _)
    · rw [toList_pieceText]
      exact forall_mem_decode (fun _ ↦ lt_of_isNameByte) (fun _ ↦ isNameChar_of_isNameByte) hbytes
  | case6 attrs bs b r _ _ _ _ ih => exact ih h hattrs

/-- A comment does not contain its end. -/
theorem not_isInfix_of_comment {bs body rest : List UInt8} (hbody : IsText body)
    (h : breakAt? endsComment bs = some (body, rest)) :
    ¬"-->".toList <:+: (pieceText body).toList := by
  rintro ⟨u, v, huv⟩
  rw [toList_pieceText] at huv
  have hbytes : body = encode u ++ (encode "-->".toList ++ encode v) := by
    rw [← hbody.encode_decode, ← huv, List.append_assoc, encode_append, encode_append]
  have hfalse := eq_false_of_breakAt? h hbytes (by simp)
  contradiction

theorem endsScript_encode {m : List Char} (h : m.map Char.toLower = "</script".toList)
    (rest : List UInt8) : endsScript (encode m ++ rest) = true := by
  have hlower : (encode m).map Byte.lower = encode "</script".toList := by
    rw [map_lower_encode, h]
  have hlength : (encode m).length = 8 := by
    rw [← List.length_map (f := Byte.lower), hlower]
    rfl
  rw [endsScript, List.take_append_of_le_length hlength.ge, List.take_of_length_le hlength.le,
    hlower, encode_endOfScript]
  rfl

/-- The body of a script does not contain its end. -/
theorem not_isInfix_of_scriptBody {bs : List UInt8} (h : IsText bs) :
    ¬"</script".toList <:+: lowerAscii (pieceText (scriptBody bs).1) := by
  rintro ⟨u, v, huv⟩
  rw [lowerAscii, toList_pieceText] at huv
  obtain ⟨w, v', hdecode, hw, -⟩ := List.map_eq_append_iff.mp huv.symm
  obtain ⟨u', m, rfl, -, hm⟩ := List.map_eq_append_iff.mp hw
  have hbytes : (scriptBody bs).1 = encode u' ++ (encode m ++ encode v') := by
    rw [← (isText_scriptBody h).1.encode_decode, hdecode, List.append_assoc, encode_append,
      encode_append]
  have hne : encode m ++ encode v' ≠ [] := fun hnil ↦ by
    have hends := endsScript_encode hm (encode v')
    rw [hnil] at hends
    contradiction
  unfold scriptBody at hbytes
  split at hbytes
  · rename_i body rest hbreak
    have hfalse := eq_false_of_breakAt? hbreak hbytes hne
    rw [List.append_assoc, endsScript_encode hm] at hfalse
    contradiction
  · rename_i hbreak
    obtain rfl : bs = _ := hbytes
    exact breakAt?_ne_none (endsScript_encode hm _) hbreak

/-- What an element contributes, whatever follows its opening tag. -/
theorem contributes_element {tag : String} {attrs : Attributes} (htag : IsTagName tag)
    (hattrs : attrs.WellNamed) (closed : Bool) {bs : List UInt8} (hbs : IsText bs) :
    (element tag attrs closed bs).1.Contributes IsLeaf IsOpening := by
  unfold element
  split
  · refine ⟨⟨htag, hattrs, fun _ ↦ rfl, ?_⟩, rfl, trivial⟩
    split <;> trivial
  rename_i hleaf
  rw [Bool.or_eq_true, not_or, Bool.not_eq_true, Bool.not_eq_true] at hleaf
  split
  · rename_i hscript
    have hvoid : isVoidTag tag = true → ∀ cs : List (Tree Unit), cs = [] := fun hvoid ↦ by
      rw [hleaf.2] at hvoid
      contradiction
    refine ⟨⟨htag, hattrs, fun h ↦ hvoid h _, ?_⟩, rfl, ?_⟩
    · rw [if_pos hscript]
      split
      · trivial
      · rename_i hbody
        refine ⟨rfl, ?_, not_isInfix_of_scriptBody hbs⟩
        obtain ⟨b, body, hcons⟩ := List.exists_cons_of_ne_nil fun hnil ↦
          hbody (List.isEmpty_iff.mpr hnil)
        change pieceText (scriptBody bs).1 ≠ ""
        rw [hcons]
        exact pieceText_ne_empty b body
    · split
      · trivial
      · exact ⟨⟨rfl, rfl⟩, trivial⟩
  · rename_i hscript
    exact ⟨htag, hattrs, hleaf.2, Bool.not_eq_true _ ▸ hscript⟩

theorem contributes_textEvent {b : UInt8} {r : List UInt8} (hb : b ≠ 0x3C)
    (hbs : IsText (b :: r)) : (textEvent (b :: r)).1.Contributes IsLeaf IsOpening := by
  obtain ⟨cs, hcs⟩ := (hbs.span_ne (m := 0x3C) (by decide)).1
  have hne : cs ≠ [] := fun hnil ↦ by
    rw [hnil, List.takeWhile_cons_of_pos (by simpa using hb)] at hcs
    contradiction
  have hmark : '<' ∉ cs := fun hmem ↦ by
    have hbyte := mem_encode (c := '<') (by decide) hmem
    rw [hcs] at hbyte
    simpa using List.mem_takeWhile_imp hbyte
  rw [textEvent, ← hcs, decode_encode]
  refine ⟨?_, rfl, rfl⟩
  split
  · exact ⟨by decide, by decide, .inl rfl⟩
  · rename_i hblank
    refine ⟨fun hempty ↦ hne ?_, ?_, .inr ?_⟩
    · rw [← String.toList_ofList (l := cs), hempty]
      rfl
    · rwa [String.toList_ofList]
    · rw [String.toList_ofList]
      exact Bool.not_eq_true _ ▸ hblank

theorem contributes_of_event {b : UInt8} {r rest : List UInt8} {e : Event} (hbs : IsText (b :: r))
    (h : event b r = .ok (e, rest)) : e.Contributes IsLeaf IsOpening := by
  cases reads_of_event h with
  | comment hmark hbreak =>
    obtain ⟨hsplit, hends⟩ := eq_append_of_breakAt? hbreak
    have hdrop := isText_drop_three hbs hmark
    have hbody := (isText_of_endsComment (hsplit ▸ hdrop) hends).1
    exact ⟨not_isInfix_of_comment hbody hbreak, rfl, rfl⟩
  | closing r => trivial
  | element hname hbody =>
    have hr : IsText r := (hbs.split (u := []) (by decide)).2
    have hrest := isText_of_tagBody hbody (isText_span_isTagByte hr).2.isTail
    have htag := isTagName_pieceText hname fun _ ↦ List.mem_takeWhile_imp
    have hattrs := wellNamed_of_tagBody hbody Attributes.wellNamed_nil
    exact contributes_element htag hattrs _ hrest
  | text hb r => exact contributes_textEvent hb hbs

theorem contributes_of_mem_events {bs : List UInt8} (h : IsText bs) :
    ∀ e ∈ (events bs).1, e.Contributes IsLeaf IsOpening := by
  fun_induction events bs with
  | case1 | case2 => exact fun _ he ↦ absurd he List.not_mem_nil
  | case3 b r e rest hevent es fault hrest ih =>
    have hes := ih (isText_of_event hevent h)
    rw [hrest] at hes
    exact List.forall_mem_cons.mpr ⟨contributes_of_event h hevent, hes⟩

end Scan

theorem Reading.isLeaf_of_mem_forest (source : String) :
    ∀ t ∈ (Reading.ofSource source).forest, Scan.IsLeaf t :=
  forall_mem_forestOf (fun _ _ _ ↦ Scan.isLeaf_element)
    (Scan.contributes_of_mem_events (isText_encode source.toList))

/-- **What is read is tidy.** Every tree of a forest that is read could have been written with care,
no node carries what its kind does not show, and no root is only white space. So the markup of the
forest is read as the forest, unless a value in it contains a double quote or a text in it stands
directly behind another one. -/
theorem parseMarkup_tidy {source : String} {ts : List (Tree Unit)}
    (h : parseMarkup source = .ok ts) :
    Tree.TidyAll ts ∧ Tree.IsShownAll ts ∧ (∀ t ∈ ts, t.isBlankText = false) ∧
      (Tree.Legible ts → parseMarkup (String.ofList (Tree.markupAll ts)) = .ok ts) := by
  obtain ⟨-, hfilter⟩ := parseMarkup_eq_ok_iff.mp h
  have hroots : ∀ t ∈ ts, Scan.IsLeaf t ∧ t.isBlankText = false := fun t ht ↦ by
    rw [← hfilter] at ht
    obtain ⟨hmem, hvisible⟩ := List.mem_filter.mp ht
    exact ⟨Reading.isLeaf_of_mem_forest source t hmem, by simpa using hvisible⟩
  have htidy := Tree.tidyAll_iff.mpr fun t ht ↦ (hroots t ht).1.tidy
  have hshown := Tree.isShownAll_iff.mpr fun t ht ↦ (hroots t ht).1.shown
  have hvisible := fun t ht ↦ (hroots t ht).2
  exact ⟨htidy, hshown, hvisible, Tree.parseMarkup_of_legible htidy hshown hvisible⟩

/-- A source with white space around it, an attribute that stands twice, bytes that mean nothing
within a tag, a script that ends in capitals, and a tag without its end. -/
def scruffy : String := " <P a=1 ü B a='2'> x <br>y<script> z < </SCRIPT x>\n<i/"

theorem parseMarkup_scruffy : parseMarkup scruffy = .ok (treesOf scruffy) ∧
    Tree.TidyAll (treesOf scruffy) ∧ Tree.IsShownAll (treesOf scruffy) ∧
    (∀ t ∈ treesOf scruffy, t.isBlankText = false) ∧
    parseMarkup (String.ofList (Tree.markupAll (treesOf scruffy))) = .ok (treesOf scruffy) := by
  have hread : parseMarkup scruffy = .ok (treesOf scruffy) :=
    parseMarkup_treesOf (by decide +kernel)
  have hlegible : Tree.Legible (treesOf scruffy) :=
    ⟨by decide +kernel, by decide +kernel, by decide +kernel⟩
  obtain ⟨htidy, hshown, hvisible, hback⟩ := parseMarkup_tidy hread
  exact ⟨hread, htidy, hshown, hvisible, hback hlegible⟩

/-! ## Well-formed trees -/

/-- Whether every attribute has a name. -/
def Attributes.Named (attrs : Attributes) : Prop := ∀ x ∈ attrs, x.1 ≠ ""

theorem Attributes.WellNamed.named {attrs : Attributes} (h : attrs.WellNamed) : attrs.Named := by
  intro x hx hempty
  refine (h.names x hx).1 ?_
  rw [hempty]
  rfl

namespace Tree

variable {α : Type}

/-- Whether only elements have children, no node is a fragment, and every attribute has a name. -/
structure WellFormed (t : Tree α) : Prop where
  proper : t.Proper
  solid : t.Solid
  named : ∀ attrs ∈ t.attributeLists, attrs.Named

theorem properAll_iff {ts : List (Tree α)} : ProperAll ts ↔ ∀ t ∈ ts, t.Proper := by
  induction ts with
  | nil => exact iff_of_true trivial fun _ ht ↦ absurd ht List.not_mem_nil
  | cons t ts ih => rw [ProperAll, ih, List.forall_mem_cons]

theorem attributeListsAll_eq (ts : List (Tree α)) :
    attributeListsAll ts = ts.flatMap attributeLists := by
  induction ts with
  | nil => rfl
  | cons t ts ih => rw [attributeListsAll, ih, List.flatMap_cons]

theorem wellFormed_text (l : α) (data : String) : (Tree.text l data).WellFormed := by
  refine ⟨?_, ?_, fun _ h ↦ absurd h List.not_mem_nil⟩
  · rw [text, Proper]
    exact ⟨fun _ ↦ rfl, trivial⟩
  · rw [text, Solid]
    exact ⟨fun h ↦ NodeKind.noConfusion h, trivial⟩

theorem wellFormed_comment (l : α) (data : String) : (Tree.comment l data).WellFormed := by
  refine ⟨?_, ?_, fun _ h ↦ absurd h List.not_mem_nil⟩
  · rw [comment, Proper]
    exact ⟨fun _ ↦ rfl, trivial⟩
  · rw [comment, Solid]
    exact ⟨fun h ↦ NodeKind.noConfusion h, trivial⟩

theorem wellFormed_element (l : α) (tag : String) {attrs : Attributes} (hattrs : attrs.Named)
    {children : List (Tree α)} (h : ∀ t ∈ children, t.WellFormed) :
    (Tree.element l tag attrs children).WellFormed := by
  refine ⟨?_, ?_, List.forall_mem_cons.mpr ⟨hattrs, fun as has ↦ ?_⟩⟩
  · rw [element, Proper]
    exact ⟨fun h ↦ Bool.noConfusion h, properAll_iff.mpr fun t ht ↦ (h t ht).proper⟩
  · rw [element, Solid]
    exact ⟨fun h ↦ NodeKind.noConfusion h, solidAll_iff.mpr fun t ht ↦ (h t ht).solid⟩
  · rw [attributeListsAll_eq] at has
    obtain ⟨t, ht, has⟩ := List.mem_flatMap.mp has
    exact (h t ht).named as has

theorem wellFormed_of_isScriptBody {cs : List (Tree α)} (h : IsScriptBody cs)
    (hshown : IsShownAll cs) : ∀ t ∈ cs, t.WellFormed := by
  rcases cs with - | ⟨⟨l, k, as, d, ds⟩, - | ⟨u, us⟩⟩
  · exact fun _ ht ↦ absurd ht List.not_mem_nil
  · obtain ⟨rfl, -⟩ := h
    obtain ⟨⟨rfl, rfl⟩, -⟩ := hshown
    exact List.forall_mem_singleton.mpr (wellFormed_text l d)
  · exact absurd h id

mutual

/-- A tree that can have been read is well formed. -/
theorem wellFormed_of_tidy (t : Tree α) (h : t.Tidy) (hshown : t.IsShown) : t.WellFormed := by
  obtain ⟨l, k, as, d, cs⟩ := t
  rcases k with tag | - | - | -
  · obtain ⟨-, hattrs, -, hcs⟩ := h
    obtain ⟨rfl, hshownAll⟩ := hshown
    refine wellFormed_element l tag hattrs.named ?_
    by_cases hscript : equalIgnoringCase tag "script" = true
    · rw [if_pos hscript] at hcs
      exact wellFormed_of_isScriptBody hcs hshownAll
    · rw [if_neg hscript] at hcs
      exact wellFormedAll_of_tidyAll cs hcs hshownAll
  · obtain ⟨rfl, rfl⟩ := hshown
    exact wellFormed_text l d
  · obtain ⟨rfl, rfl⟩ := hshown
    exact wellFormed_comment l d
  · exact absurd h id

theorem wellFormedAll_of_tidyAll (ts : List (Tree α)) (h : TidyAll ts) (hshown : IsShownAll ts) :
    ∀ t ∈ ts, t.WellFormed := by
  rcases ts with - | ⟨t, ts⟩
  · exact fun _ ht ↦ absurd ht List.not_mem_nil
  · exact List.forall_mem_cons.mpr
      ⟨wellFormed_of_tidy t h.1 hshown.1, wellFormedAll_of_tidyAll ts h.2 hshown.2⟩

end

end Tree

theorem Reading.wellFormed_forest (source : String) :
    ∀ t ∈ (Reading.ofSource source).forest, t.WellFormed := fun t ht ↦
  have hleaf := Reading.isLeaf_of_mem_forest source t ht
  t.wellFormed_of_tidy hleaf.tidy hleaf.shown

end LiveMarkup
