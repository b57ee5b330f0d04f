import LiveMarkup.Markup.Event
import LiveMarkup.Markup.Printer
import LiveMarkup.Proofs.Text.Encoding
import Mathlib.Data.List.Infix
import Mathlib.Tactic.IntervalCases

/-!
# Scanning what was written

One lemma for each piece of markup that the printer writes: which event the scanner makes of the
piece, whatever follows it. A name ends where a byte stands that belongs to no name, a value at its
closing quote, a text at the next `<`. The body of a comment or a script ends at the mark written
behind it: no occurrence of that mark can begin within the body and end behind it, since the mark
of a script begins with its only `<` and the mark of a comment ends with its only `>`.
-/

namespace LiveMarkup

/-- A character of a tag name. -/
def isTagChar (c : Char) : Bool := c.isAlphanum || c == '_' || c == '-'

/-- A character of an attribute name. -/
def isNameChar (c : Char) : Bool := isTagChar c || c == ':' || c == '@' || c == '.'

/-- A tag as it can be written. -/
structure IsTagName (tag : String) : Prop where
  ne_nil : tag.toList ≠ []
  chars : ∀ c ∈ tag.toList, isTagChar c = true

/-- Attributes as they can be written. -/
structure Attributes.Writable (attrs : Attributes) : Prop where
  names : ∀ x ∈ attrs, x.1.toList ≠ [] ∧ ∀ c ∈ x.1.toList, isNameChar c = true
  values : ∀ x ∈ attrs, '"' ∉ x.2.toList
  distinct : (attrs.map Prod.fst).Nodup

/-- Setting an attribute that is not there adds it at the end. -/
theorem Attributes.set_of_notMem {name : String} {attrs : Attributes}
    (h : name ∉ attrs.map Prod.fst) (value : String) :
    attrs.set name value = attrs ++ [(name, value)] := by
  induction attrs with
  | nil => rfl
  | cons x attrs ih =>
    rw [List.map_cons, List.mem_cons, not_or] at h
    rw [Attributes.set, if_neg (Ne.symm h.1), ih h.2, List.cons_append]

open Utf8

namespace Scan

/-! ## Names -/

theorem isTagChar_iff {c : Char} : isTagChar c = true ↔
    (48 ≤ c.toNat ∧ c.toNat ≤ 57) ∨ (65 ≤ c.toNat ∧ c.toNat ≤ 90) ∨
      (97 ≤ c.toNat ∧ c.toNat ≤ 122) ∨ c.toNat = 95 ∨ c.toNat = 45 := by
  have h1 : c = '_' ↔ c.toNat = 95 := by rw [← Char.toNat_inj]; rfl
  have h2 : c = '-' ↔ c.toNat = 45 := by rw [← Char.toNat_inj]; rfl
  have hupper : c.isUpper = true ↔ 65 ≤ c.toNat ∧ c.toNat ≤ 90 :=
    decide_eq_true_iff.trans (and_congr UInt32.le_iff_toNat_le UInt32.le_iff_toNat_le)
  have hlower : c.isLower = true ↔ 97 ≤ c.toNat ∧ c.toNat ≤ 122 :=
    (Bool.and_eq_true_iff ..).trans (and_congr (decide_eq_true_iff.trans UInt32.le_iff_toNat_le)
      (decide_eq_true_iff.trans UInt32.le_iff_toNat_le))
  have halpha : c.isAlpha = true ↔ c.isUpper = true ∨ c.isLower = true := Bool.or_eq_true_iff ..
  simp only [isTagChar, Char.isAlphanum, Char.isDigit, halpha, hupper, hlower, Bool.or_eq_true,
    decide_eq_true_eq, beq_iff_eq, Bool.and_eq_true, h1, h2, ge_iff_le, UInt32.le_iff_toNat_le]
  change ((_ ∨ 48 ≤ c.toNat ∧ c.toNat ≤ 57) ∨ _) ∨ _ ↔ _
  omega

theorem isTagByte_iff {b : UInt8} : Byte.isTagByte b = true ↔
    (48 ≤ b.toNat ∧ b.toNat ≤ 57) ∨ (65 ≤ b.toNat ∧ b.toNat ≤ 90) ∨
      (97 ≤ b.toNat ∧ b.toNat ≤ 122) ∨ b.toNat = 95 ∨ b.toNat = 45 := by
  simp only [Byte.isTagByte, Byte.isAlphanumeric, Bool.or_eq_true, Bool.and_eq_true,
    decide_eq_true_eq, beq_iff_eq, UInt8.le_iff_toNat_le, ← UInt8.toNat_inj, or_assoc]
  rfl

theorem isNameChar_iff {c : Char} : isNameChar c = true ↔
    isTagChar c = true ∨ c.toNat = 58 ∨ c.toNat = 64 ∨ c.toNat = 46 := by
  have h1 : c = ':' ↔ c.toNat = 58 := by rw [← Char.toNat_inj]; rfl
  have h2 : c = '@' ↔ c.toNat = 64 := by rw [← Char.toNat_inj]; rfl
  have h3 : c = '.' ↔ c.toNat = 46 := by rw [← Char.toNat_inj]; rfl
  simp only [isNameChar, Bool.or_eq_true, beq_iff_eq, h1, h2, h3, or_assoc]

theorem isNameByte_iff {b : UInt8} : Byte.isNameByte b = true ↔
    Byte.isTagByte b = true ∨ b.toNat = 58 ∨ b.toNat = 64 ∨ b.toNat = 46 := by
  simp only [Byte.isNameByte, Bool.or_eq_true, beq_iff_eq, ← UInt8.toNat_inj, or_assoc]
  rfl

theorem lt_of_isNameChar {c : Char} (h : isNameChar c = true) : c.toNat < 0x80 := by
  rw [isNameChar_iff, isTagChar_iff] at h
  omega

theorem isTagByte_of_mem_encode {cs : List Char} (h : ∀ c ∈ cs, isTagChar c = true) :
    ∀ b ∈ encode cs, Byte.isTagByte b = true := by
  intro b hb
  obtain ⟨c, hc, hbc⟩ := List.mem_flatMap.mp hb
  have hname := isTagChar_iff.mp (h c hc)
  have hlt : c.toNat < 0x80 := by omega
  rw [encodeChar_of_lt hlt, List.mem_singleton] at hbc
  rwa [hbc, isTagByte_iff, toNat_ofNat (by omega)]

theorem isNameByte_of_mem_encode {cs : List Char} (h : ∀ c ∈ cs, isNameChar c = true) :
    ∀ b ∈ encode cs, Byte.isNameByte b = true := by
  intro b hb
  obtain ⟨c, hc, hbc⟩ := List.mem_flatMap.mp hb
  have hname := h c hc
  have hlt := lt_of_isNameChar hname
  rw [encodeChar_of_lt hlt, List.mem_singleton] at hbc
  rw [isNameChar_iff, isTagChar_iff] at hname
  rwa [hbc, isNameByte_iff, isTagByte_iff, toNat_ofNat (by omega)]

theorem isSeparator_of_isNameByte {b : UInt8} (h : Byte.isNameByte b = true) :
    Byte.isSeparator b = false := by
  rw [isNameByte_iff, isTagByte_iff] at h
  rw [← Bool.not_eq_true]
  simp only [Byte.isSeparator, Bool.or_eq_true, Bool.and_eq_true, decide_eq_true_eq, beq_iff_eq,
    UInt8.le_iff_toNat_le, ← UInt8.toNat_inj]
  change ¬ ((((9 ≤ b.toNat ∧ b.toNat ≤ 13) ∨ b.toNat = 32) ∨ b.toNat = 133) ∨ b.toNat = 160)
  omega

/-! ## Pieces -/

/-- What a scan gives that has found these events before. -/
def after (es : List Event) (r : List Event × Option Fault) : List Event × Option Fault :=
  (es ++ r.1, r.2)

theorem after_after (es fs : List Event) (r : List Event × Option Fault) :
    after es (after fs r) = after (es ++ fs) r := by
  rw [after, after, after, List.append_assoc]

theorem events_of_event {b : UInt8} {r rest : List UInt8} {e : Event}
    (h : event b r = .ok (e, rest)) : events (b :: r) = after [e] (events rest) := by
  rw [events]
  split
  · rename_i h'
    rw [h] at h'
    contradiction
  · rename_i h'
    rw [h] at h'
    obtain ⟨rfl, rfl⟩ := Prod.mk.inj (Except.ok.inj h')
    rfl

/-- Bytes of a class end where a byte stands that is not in it. -/
theorem span_append {p : UInt8 → Bool} {bs : List UInt8} (rest : List UInt8)
    (h : ∀ b ∈ bs, p b = true) (hrest : ∀ b ∈ rest.head?, p b = false) :
    (bs ++ rest).takeWhile p = bs ∧ (bs ++ rest).dropWhile p = rest := by
  rw [List.takeWhile_append_of_pos h, List.dropWhile_append_of_pos h]
  rcases rest with - | ⟨b, rest⟩
  · exact ⟨List.append_nil bs, rfl⟩
  · have hb := hrest b rfl
    rw [List.takeWhile_cons_of_neg (by simp [hb]), List.dropWhile_cons_of_neg (by simp [hb])]
    exact ⟨List.append_nil bs, rfl⟩

theorem skip_cons {b : UInt8} (h : Byte.isSeparator b = false) (bs : List UInt8) :
    skip (b :: bs) = b :: bs := List.dropWhile_cons_of_neg (by simp [h])

@[simp] theorem pieceText_encode (s : String) : pieceText (encode s.toList) = s := by
  rw [pieceText, decode_encode, String.ofList_toList]

/-- Before the place where bytes are broken there is none at which they could be. -/
theorem eq_false_of_breakAt? {p : List UInt8 → Bool} {bs before rest : List UInt8}
    (h : breakAt? p bs = some (before, rest)) {u v : List UInt8} (huv : before = u ++ v)
    (hv : v ≠ []) : p (v ++ rest) = false := by
  induction bs generalizing before u with
  | nil =>
    unfold breakAt? at h
    split at h
    · obtain ⟨rfl, rfl⟩ := Prod.mk.inj (Option.some.inj h)
      exact absurd (List.append_eq_nil_iff.mp huv.symm).2 hv
    · contradiction
  | cons b bs ih =>
    unfold breakAt? at h
    split at h
    · obtain ⟨rfl, rfl⟩ := Prod.mk.inj (Option.some.inj h)
      exact absurd (List.append_eq_nil_iff.mp huv.symm).2 hv
    · rename_i hp
      obtain ⟨⟨before', rest'⟩, hbreak, hpair⟩ := Option.map_eq_some_iff.mp h
      obtain ⟨rfl, rfl⟩ := Prod.mk.inj hpair
      rcases u with - | ⟨x, u⟩
      · rw [List.nil_append] at huv
        rw [← huv, List.cons_append, ← (eq_append_of_breakAt? hbreak).1]
        exact Bool.not_eq_true _ ▸ hp
      · exact ih hbreak (List.cons.inj huv).2

/-- Bytes are broken if there is a place where they can be. -/
theorem breakAt?_ne_none {p : List UInt8 → Bool} {u v : List UInt8} (hv : p v = true) :
    breakAt? p (u ++ v) ≠ none := by
  induction u with
  | nil =>
    unfold breakAt?
    rw [List.nil_append, if_pos hv]
    exact Option.some_ne_none _
  | cons b u ih =>
    unfold breakAt?
    split
    · exact Option.some_ne_none _
    · exact fun h ↦ ih (Option.map_eq_none_iff.mp h)

/-- A body ends at the first place where its end can be recognised. -/
theorem breakAt?_append {p : List UInt8 → Bool} {body rest : List UInt8}
    (hbody : ∀ u v, body = u ++ v → v ≠ [] → p (v ++ rest) = false) (hrest : p rest = true) :
    breakAt? p (body ++ rest) = some (body, rest) := by
  induction body with
  | nil =>
    unfold breakAt?
    rw [List.nil_append, if_pos hrest]
  | cons b body ih =>
    have hb := hbody [] (b :: body) rfl (List.cons_ne_nil b body)
    unfold breakAt?
    rw [if_neg (by rw [hb]; exact Bool.false_ne_true)]
    simp only [List.cons_append]
    rw [ih fun u v h hv ↦ hbody (b :: u) v (by rw [h, List.cons_append]) hv, Option.map_some]

/-! ## Texts and comments -/

/-- Nothing follows, or a piece of markup that begins with `<`. -/
def AtMark (bs : List UInt8) : Prop := ∀ b ∈ bs.head?, b = 0x3C

theorem events_text {s : String} {rest : List UInt8} (hne : s ≠ "") (hmark : '<' ∉ s.toList)
    (hblank : s = " " ∨ allBlank s.toList = false) (hrest : AtMark rest) :
    events (encode s.toList ++ rest) = after [.leaf (.text () s)] (events rest) := by
  have hbytes : ∀ b ∈ encode s.toList, (b != 0x3C) = true := fun b hb ↦
    bne_iff_ne.mpr (ne_of_mem_encode (c := '<') (by decide) hmark b hb)
  obtain ⟨htake, hdrop⟩ := span_append _ hbytes fun b hb ↦ by rw [hrest b hb]; rfl
  have htext : textEvent (encode s.toList ++ rest) = (.leaf (.text () s), rest) := by
    rw [textEvent, htake, hdrop, decode_encode, String.ofList_toList]
    obtain rfl | hblank := hblank
    · rfl
    · rw [hblank, if_neg Bool.false_ne_true]
  obtain ⟨b, r, hcons⟩ : ∃ b r, encode s.toList = b :: r := by
    refine List.exists_cons_of_ne_nil fun h ↦ hne ?_
    rw [← String.ofList_toList (s := s), encode_injective (h.trans encode_nil.symm)]
  rw [hcons, List.cons_append] at htext ⊢
  have hb : b ≠ 0x3C := bne_iff_ne.mp (hbytes b (by rw [hcons]; exact List.mem_cons_self))
  refine events_of_event ?_
  unfold event
  rw [if_neg hb, htext]

theorem endsComment_eq_false {s : String} (h : ¬"-->".toList <:+: s.toList) (rest : List UInt8)
    {u v : List UInt8} (huv : encode s.toList = u ++ v) (hv : v ≠ []) :
    endsComment (v ++ 0x2D :: 0x2D :: 0x3E :: rest) = false := by
  rw [← Bool.not_eq_true]
  intro hends
  have htake := beq_iff_eq.mp hends
  -- If fewer bytes of the body are left than the mark has, then the mark that is written behind it
  -- would have its `>` where there is a `-`.
  match v, hv with
  | [_], _ => simp at htake
  | [_, _], _ => simp at htake
  | x :: y :: z :: v, _ =>
    simp only [List.cons_append, List.take_succ_cons, List.take_zero, List.cons.injEq,
      and_true] at htake
    obtain ⟨rfl, rfl, rfl⟩ := htake
    refine h (isInfix_of_encode (by simp) ⟨u, v, ?_⟩)
    rw [huv, List.append_assoc]
    rfl

theorem events_comment {s : String} (h : ¬"-->".toList <:+: s.toList) (rest : List UInt8) :
    events (encode ("<!--".toList ++ s.toList ++ "-->".toList) ++ rest) =
      after [.leaf (.comment () s)] (events rest) := by
  have hbytes : encode ("<!--".toList ++ s.toList ++ "-->".toList) ++ rest =
      0x3C :: 0x21 :: 0x2D :: 0x2D :: (encode s.toList ++ 0x2D :: 0x2D :: 0x3E :: rest) := by
    rw [encode_append, encode_append, List.append_assoc, List.append_assoc]
    rfl
  have hbreak := breakAt?_append (p := endsComment)
    (fun u v huv hv ↦ endsComment_eq_false h rest huv hv) rfl
  rw [hbytes]
  refine events_of_event ?_
  unfold event
  rw [if_pos rfl, if_pos (by simp)]
  simp only [List.drop_succ_cons, List.drop_zero]
  rw [comment, hbreak]
  simp

/-! ## Tags -/

theorem attributeValue_quoted {s : String} (h : '"' ∉ s.toList) (rest : List UInt8) :
    attributeValue (0x22 :: (encode s.toList ++ 0x22 :: rest)) = .ok (s, rest) := by
  have hbytes : ∀ b ∈ encode s.toList, (b != 0x22) = true := fun b hb ↦
    bne_iff_ne.mpr (ne_of_mem_encode (c := '"') (by decide) h b hb)
  obtain ⟨htake, hdrop⟩ := span_append (0x22 :: rest) hbytes fun b hb ↦ by
    obtain rfl := Option.mem_some.mp hb
    rfl
  rw [attributeValue, if_pos (by decide), hdrop, htake]
  simp

theorem tagBody_of_slash {bs r : List UInt8} (h : skip bs = 0x2F :: r) (attrs : Attributes) :
    tagBody attrs bs = .ok (attrs, true, dropClose (skip r)) := by
  rw [tagBody]
  split
  · simp_all
  · simp_all

theorem tagBody_of_close {bs r : List UInt8} (h : skip bs = 0x3E :: r) (attrs : Attributes) :
    tagBody attrs bs = .ok (attrs, false, r) := by
  rw [tagBody]
  split
  · simp_all
  · simp_all

theorem tagBody_of_name {bs r rest : List UInt8} {b : UInt8} {value : String}
    (h : skip bs = b :: r) (hb : Byte.isNameByte b = true)
    (hvalue : afterName (r.dropWhile Byte.isNameByte) = .ok (value, rest)) (attrs : Attributes) :
    tagBody attrs bs =
      tagBody (attrs.set (pieceText (b :: r.takeWhile Byte.isNameByte)) value) rest := by
  have hname := hb
  rw [isNameByte_iff, isTagByte_iff] at hname
  have hslash : b ≠ 0x2F := by
    rintro rfl
    revert hname
    decide
  have hclose : b ≠ 0x3E := by
    rintro rfl
    revert hname
    decide
  rw [tagBody]
  split
  · simp_all
  · rename_i b' r' hskip
    rw [h] at hskip
    obtain ⟨rfl, rfl⟩ := List.cons.inj hskip
    rw [if_neg hslash, if_neg hclose, if_pos hb]
    split
    · simp_all
    · simp_all

/-- An attribute is read behind a space, in whatever way its value is written. -/
theorem tagBody_attribute {name value : String} {bs rest : List UInt8} (hne : name.toList ≠ [])
    (hchars : ∀ c ∈ name.toList, isNameChar c = true)
    (hvalue : attributeValue (skip bs) = .ok (value, rest)) (acc : Attributes) :
    tagBody acc (0x20 :: (encode name.toList ++ 0x3D :: bs)) =
      tagBody (acc.set name value) rest := by
  obtain ⟨b, r, hname⟩ : ∃ b r, encode name.toList = b :: r :=
    List.exists_cons_of_ne_nil fun h ↦ hne (encode_injective (h.trans encode_nil.symm))
  have hbytes := isNameByte_of_mem_encode hchars
  rw [hname] at hbytes
  obtain ⟨hb, hr⟩ := List.forall_mem_cons.mp hbytes
  have hskip : skip (0x20 :: (encode name.toList ++ 0x3D :: bs)) = b :: (r ++ 0x3D :: bs) := by
    rw [skip, List.dropWhile_cons_of_pos (by decide), hname]
    exact skip_cons (isSeparator_of_isNameByte hb) _
  obtain ⟨htake, hdrop⟩ := span_append (0x3D :: bs) hr fun b hb ↦ by
    obtain rfl := Option.mem_some.mp hb
    rfl
  have hafter : afterName (0x3D :: bs) = .ok (value, rest) := by
    rw [afterName, skip_cons (by decide)]
    exact hvalue
  rw [tagBody_of_name hskip hb (by rw [hdrop]; exact hafter), htake, ← hname, pieceText_encode]

theorem tagBody_attributes {acc attrs : Attributes} (h : attrs.Writable)
    (hdistinct : ((acc ++ attrs).map Prod.fst).Nodup) (rest : List UInt8) :
    tagBody acc (encode (Tree.attributesMarkup attrs) ++ rest) = tagBody (acc ++ attrs) rest := by
  induction attrs generalizing acc with
  | nil => rw [List.append_nil]; rfl
  | cons x attrs ih =>
    obtain ⟨name, value⟩ := x
    obtain ⟨⟨hne, hchars⟩, hnames⟩ := List.forall_mem_cons.mp h.names
    obtain ⟨hvalue, hvalues⟩ := List.forall_mem_cons.mp h.values
    set tail := encode (Tree.attributesMarkup attrs) ++ rest with htail
    have hwritten : encode (Tree.attributesMarkup ((name, value) :: attrs)) ++ rest =
        0x20 :: (encode name.toList ++ 0x3D :: 0x22 :: (encode value.toList ++ 0x22 :: tail)) := by
      have hpieces : Tree.attributesMarkup ((name, value) :: attrs) =
          ' ' :: name.toList ++ '=' :: '"' :: value.toList ++ ['"'] ++
            Tree.attributesMarkup attrs := rfl
      rw [hpieces, htail]
      simp only [encode_append, encode_cons, List.append_assoc, List.cons_append]
      rfl
    have hread : attributeValue (skip (0x22 :: (encode value.toList ++ 0x22 :: tail))) =
        .ok (value, tail) := by
      rw [skip_cons (by decide), attributeValue_quoted hvalue]
    rw [hwritten, tagBody_attribute hne hchars hread]
    -- A name that has not been read before goes behind the others, so the order is kept.
    have hfresh : name ∉ acc.map Prod.fst := by
      rw [List.map_append, List.map_cons] at hdistinct
      exact fun hmem ↦ (List.nodup_append.mp hdistinct).2.2 _ hmem _ List.mem_cons_self rfl
    rw [Attributes.set_of_notMem hfresh]
    have hrest : Attributes.Writable attrs :=
      ⟨hnames, hvalues, (List.nodup_cons.mp (List.map_cons ▸ h.distinct)).2⟩
    rw [htail, ih hrest (by rwa [List.append_assoc]), List.append_assoc]
    rfl

/-- An opening tag whose body is read as these attributes, with `rest` behind it. -/
theorem events_tag {tag : String} {attrs : Attributes} (htag : IsTagName tag)
    {tail rest : List UInt8} {closed : Bool}
    (hhead : ∀ b ∈ tail.head?, Byte.isTagByte b = false)
    (htail : tagBody [] tail = .ok (attrs, closed, rest)) :
    events (0x3C :: (encode tag.toList ++ tail)) =
      after [(element tag attrs closed rest).1] (events (element tag attrs closed rest).2) := by
  obtain ⟨b, r, hname⟩ : ∃ b r, encode tag.toList = b :: r :=
    List.exists_cons_of_ne_nil fun h ↦ htag.ne_nil (encode_injective (h.trans encode_nil.symm))
  have hbytes := isTagByte_of_mem_encode htag.chars
  have hb := isTagByte_iff.mp (hbytes b (by rw [hname]; exact List.mem_cons_self))
  obtain ⟨htake, hdrop⟩ := span_append tail hbytes hhead
  have hopening : openingTag (encode tag.toList ++ tail) = .ok (element tag attrs closed rest) := by
    unfold openingTag
    rw [htake, hdrop, htail]
    split
    · rename_i h
      rw [hname] at h
      contradiction
    · rw [pieceText_encode]
  refine events_of_event ?_
  unfold event
  -- A name begins with nothing that would make this a comment or a closing tag.
  rw [if_pos rfl, if_neg ?_]
  · split
    · rename_i h
      rw [hname] at h
      obtain ⟨rfl, -⟩ := List.cons.inj h
      exact absurd hb (by decide)
    · exact hopening
  · rw [hname]
    intro h
    obtain ⟨rfl, -⟩ := List.cons.inj (beq_iff_eq.mp h)
    exact absurd hb (by decide)

/-- An opening tag whose end is read as `closed`, with `rest` behind it. -/
theorem events_openingTag {tag : String} {attrs : Attributes} (htag : IsTagName tag)
    (hattrs : attrs.Writable) {tail rest : List UInt8} {closed : Bool}
    (hhead : ∀ b ∈ tail.head?, Byte.isTagByte b = false)
    (htail : tagBody attrs tail = .ok (attrs, closed, rest)) :
    events (encode ('<' :: tag.toList ++ Tree.attributesMarkup attrs) ++ tail) =
      after [(element tag attrs closed rest).1] (events (element tag attrs closed rest).2) := by
  have hwritten : encode ('<' :: tag.toList ++ Tree.attributesMarkup attrs) ++ tail =
      0x3C :: (encode tag.toList ++ (encode (Tree.attributesMarkup attrs) ++ tail)) := by
    rw [List.cons_append, encode_cons, encode_append, List.append_assoc, List.append_assoc]
    rfl
  have hbody : tagBody [] (encode (Tree.attributesMarkup attrs) ++ tail) =
      .ok (attrs, closed, rest) := by
    rw [tagBody_attributes hattrs (by simpa using hattrs.distinct), List.nil_append, htail]
  rw [hwritten]
  refine events_tag htag ?_ hbody
  rcases attrs with - | ⟨x, attrs⟩
  · exact hhead
  · intro b hb
    obtain rfl := Option.mem_some.mp hb
    rfl

theorem events_closingTag {tag : String} (htag : IsTagName tag) (rest : List UInt8) :
    events (encode ('<' :: '/' :: tag.toList ++ ['>']) ++ rest) =
      after [.closing tag] (events rest) := by
  have hwritten : encode ('<' :: '/' :: tag.toList ++ ['>']) ++ rest =
      0x3C :: 0x2F :: (encode tag.toList ++ 0x3E :: rest) := by
    simp only [List.cons_append, encode_cons, encode_append, List.append_assoc]
    rfl
  obtain ⟨htake, hdrop⟩ := span_append (0x3E :: rest) (isTagByte_of_mem_encode htag.chars)
    fun b hb ↦ by
      obtain rfl := Option.mem_some.mp hb
      rfl
  have hclosing : closingTag (encode tag.toList ++ 0x3E :: rest) = (.closing tag, rest) := by
    rw [closingTag, htake, hdrop, skip_cons (by decide), pieceText_encode]
    rfl
  rw [hwritten]
  refine events_of_event ?_
  unfold event
  rw [if_pos rfl, if_neg (by simp)]
  simp only [hclosing]

/-! ## Scripts -/

/-- The bytes of `</script`. -/
theorem encode_endOfScript : encode "</script".toList =
    [0x3C, 0x2F, 0x73, 0x63, 0x72, 0x69, 0x70, 0x74] := by decide

theorem endsScript_eq_false {s : String} (h : ¬"</script".toList <:+: lowerAscii s)
    (rest : List UInt8) {u v : List UInt8} (huv : encode s.toList = u ++ v) (hv : v ≠ []) :
    endsScript (v ++ 0x3C :: rest) = false := by
  rw [← Bool.not_eq_true]
  intro hends
  have htake := beq_iff_eq.mp hends
  obtain hlt | hle := Nat.lt_or_ge v.length 8
  · -- The `<` behind the body would stand where the mark has another byte.
    have hget : some 0x3C = (encode "</script".toList)[v.length]? := by
      rw [encode_endOfScript, ← htake, List.getElem?_map, List.getElem?_take_of_lt hlt,
        List.getElem?_append_right le_rfl, Nat.sub_self]
      rfl
    have hpos := List.length_pos_iff.mpr hv
    rw [encode_endOfScript] at hget
    generalize v.length = n at hget hlt hpos
    interval_cases n <;> exact absurd hget (by decide)
  · rw [List.take_append_of_le_length hle, ← encode_endOfScript] at htake
    refine h (isInfix_of_encode (by simp) ?_)
    rw [← htake, lowerAscii, ← map_lower_encode, huv, List.map_append]
    exact (((List.take_prefix 8 v).map Byte.lower).isInfix).trans (List.suffix_append _ _).isInfix

theorem scriptBody_append {tag s : String} (htag : equalIgnoringCase tag "script" = true)
    (h : ¬"</script".toList <:+: lowerAscii s) (rest : List UInt8) :
    scriptBody (encode (s.toList ++ '<' :: '/' :: tag.toList ++ ['>']) ++ rest) =
      (encode s.toList, rest) := by
  have hlower : (encode tag.toList).map Byte.lower = [0x73, 0x63, 0x72, 0x69, 0x70, 0x74] := by
    rw [map_lower_encode, ← lowerAscii, equalIgnoringCase_iff.mp htag]
    decide
  have hlength : (encode tag.toList).length = 6 := by
    rw [← List.length_map (f := Byte.lower), hlower]
    rfl
  have hwritten : encode (s.toList ++ '<' :: '/' :: tag.toList ++ ['>']) ++ rest =
      encode s.toList ++ 0x3C :: 0x2F :: (encode tag.toList ++ 0x3E :: rest) := by
    simp only [List.append_assoc, List.cons_append, encode_cons, encode_append]
    rfl
  have hends : endsScript (0x3C :: 0x2F :: (encode tag.toList ++ 0x3E :: rest)) = true := by
    rw [endsScript, List.take_succ_cons, List.take_succ_cons,
      List.take_append_of_le_length hlength.ge, List.take_of_length_le hlength.le, List.map_cons,
      List.map_cons, hlower]
    rfl
  have hbreak := breakAt?_append (p := endsScript)
    (fun u v huv hv ↦ endsScript_eq_false h _ huv hv) hends
  have hdrop : (0x3C :: 0x2F :: (encode tag.toList ++ 0x3E :: rest)).drop 8 = 0x3E :: rest := by
    rw [List.drop_succ_cons, List.drop_succ_cons]
    exact List.drop_left' hlength
  rw [hwritten, scriptBody, hbreak]
  simp only [hdrop]
  rw [List.dropWhile_cons_of_neg (by decide)]
  rfl

end Scan

end LiveMarkup
