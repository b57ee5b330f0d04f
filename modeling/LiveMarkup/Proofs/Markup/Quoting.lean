import LiveMarkup.Proofs.Markup.Boundaries
import LiveMarkup.Proofs.Markup.Reading
import LiveMarkup.Proofs.Markup.RoundTrip
import LiveMarkup.Proofs.Text.Decoding
import Mathlib.Data.List.TakeWhile

/-!
# Values with and without quotes

A value that has no white space, no `>` and no double quote, is not empty and does not begin with a
single quote looks as if it needed no quotes. With quotes around it, it is read as it is. Without
them it ends at the first byte that separates, and 0x85 and 0xA0 do so although in a text they are
only ever bytes of longer characters; so the quotes can be left out just if the value has neither
of these bytes (`parseMarkup_bare_eq_quoted_iff`).

One half is a matter of reading an element whose value is read as a whole, in whatever way it is
written (`parseMarkup_oneAttribute`). For the other half it does not matter what is read instead.
Every value in a forest is empty or was taken from some place in the source
(`forall_mem_values_of_parseMarkup`), and at no place of this source can the whole value be taken:
without quotes no byte of it separates, and between quotes it does not contain the quote, which
would have to stand in the source within the value.
-/

namespace LiveMarkup

open Utf8

/-- An attribute's name as it can be written. -/
structure IsAttributeName (name : String) : Prop where
  ne_nil : name.toList ≠ []
  chars : ∀ c ∈ name.toList, isNameChar c = true

/-- A value that does without quotes, as far as its characters go. -/
structure IsBareValue (value : String) : Prop where
  ne_nil : value.toList ≠ []
  chars : ∀ c ∈ value.toList, isBlank c = false ∧ c ≠ '>' ∧ c ≠ '"'
  head : value.toList.head? ≠ some '\''

instance (name : String) : Decidable (IsAttributeName name) :=
  decidable_of_iff (name.toList ≠ [] ∧ name.toList.all isNameChar = true)
    ⟨fun h ↦ ⟨h.1, List.all_eq_true.mp h.2⟩, fun h ↦ ⟨h.ne_nil, List.all_eq_true.mpr h.chars⟩⟩

instance (value : String) : Decidable (IsBareValue value) :=
  decidable_of_iff (value.toList ≠ [] ∧
      (value.toList.all fun c ↦ !isBlank c && c != '>' && c != '"') = true ∧
      value.toList.head? ≠ some '\'') <| by
    simp only [List.all_eq_true, Bool.and_eq_true, Bool.not_eq_true', bne_iff_ne, and_assoc]
    exact ⟨fun h ↦ ⟨h.1, h.2.1, h.2.2⟩, fun h ↦ ⟨h.ne_nil, h.chars, h.head⟩⟩

/-- A value between double quotes. -/
def quoted (value : String) : List Char := '"' :: value.toList ++ ['"']

/-- An element without content that has one attribute, with the value written like this. -/
def oneAttribute (tag name : String) (written : List Char) : String :=
  String.ofList ('<' :: tag.toList ++ ' ' :: name.toList ++ '=' :: written ++
    '>' :: '<' :: '/' :: tag.toList ++ ['>'])

namespace Scan

/-! ## An element with one attribute -/

/-- The bytes of the closing tag. -/
def closingBytes (tag : String) : List UInt8 := encode ('<' :: '/' :: tag.toList ++ ['>'])

theorem encode_oneAttribute (tag name : String) (written : List Char) :
    encode (oneAttribute tag name written).toList =
      0x3C :: (encode tag.toList ++ 0x20 :: (encode name.toList ++
        0x3D :: (encode written ++ 0x3E :: closingBytes tag))) := by
  rw [oneAttribute, String.toList_ofList, closingBytes]
  simp only [encode_append, encode_cons, List.append_assoc, List.cons_append]
  rfl

theorem events_closingBytes {tag : String} (htag : IsTagName tag) :
    events (closingBytes tag) = ([.closing tag], none) := by
  have h := events_closingTag htag []
  rw [List.append_nil] at h
  rw [closingBytes, h, events]
  rfl

variable {tag name value : String} {written : List Char}

/-- The events of the element: its tag may allow no content, or raw text. -/
theorem events_oneAttribute (htag : IsTagName tag) (hname : IsAttributeName name)
    (hvalue : ∀ rest, attributeValue (skip (encode written ++ 0x3E :: rest)) =
      .ok (value, 0x3E :: rest)) :
    events (encode (oneAttribute tag name written).toList) =
      after [(element tag [(name, value)] false (closingBytes tag)).1]
        (events (element tag [(name, value)] false (closingBytes tag)).2) := by
  rw [encode_oneAttribute]
  refine events_tag htag (fun b hb ↦ ?_) ?_
  · obtain rfl := Option.mem_some.mp hb
    rfl
  · rw [tagBody_attribute hname.ne_nil hname.chars (hvalue _)]
    exact tagBody_of_close (skip_cons rfl _) _

end Scan

open Scan

/-- An element with one attribute is read as such if its value is read as a whole. -/
theorem parseMarkup_oneAttribute {tag name value : String} {written : List Char}
    (htag : IsTagName tag) (hname : IsAttributeName name)
    (hvalue : ∀ rest, attributeValue (skip (encode written ++ 0x3E :: rest)) =
      .ok (value, 0x3E :: rest)) :
    parseMarkup (oneAttribute tag name written) =
      .ok [.element () tag [(name, value)] []] := by
  have hevents := events_oneAttribute htag hname hvalue
  have hclosing := events_closingBytes htag
  by_cases hvoid : isVoidTag tag = true
  · -- The closing tag finds nothing to close.
    have helement : element tag [(name, value)] false (closingBytes tag) =
        (.leaf (.element () tag [(name, value)] []), closingBytes tag) := by
      rw [element, hvoid, Bool.or_true, if_pos rfl]
    rw [helement, hclosing] at hevents
    exact parseMarkup_of_events hevents
  rw [Bool.not_eq_true] at hvoid
  by_cases hscript : equalIgnoringCase tag "script" = true
  · have hbody : scriptBody (closingBytes tag) = ([], []) := by
      have hempty : ¬"</script".toList <:+: lowerAscii "" := by decide
      have h := scriptBody_append hscript hempty []
      rwa [List.append_nil] at h
    have helement : element tag [(name, value)] false (closingBytes tag) =
        (.leaf (.element () tag [(name, value)] []), []) := by
      rw [element, hvoid, Bool.or_false, if_neg Bool.false_ne_true, if_pos hscript, hbody]
      rfl
    rw [helement, events] at hevents
    exact parseMarkup_of_events hevents
  · have helement : element tag [(name, value)] false (closingBytes tag) =
        (.opening tag [(name, value)], closingBytes tag) := by
      rw [element, hvoid, Bool.or_false, if_neg Bool.false_ne_true, if_neg hscript]
    rw [helement, hclosing] at hevents
    have hforest : forestOf [.opening tag [(name, value)], .closing tag] =
        [.element () tag [(name, value)] []] := by
      rw [forestOf, List.foldl_cons, Growth.step, Growth.empty, List.foldl_cons,
        Growth.step_closing]
      rfl
    refine (parseMarkup_of_events hevents).trans ?_
    rw [List.singleton_append, hforest]
    rfl

/-! ## Values that are read as a whole -/

theorem parseMarkup_quoted {tag name value : String} (htag : IsTagName tag)
    (hname : IsAttributeName name) (hvalue : '"' ∉ value.toList) :
    parseMarkup (oneAttribute tag name (quoted value)) =
      .ok [.element () tag [(name, value)] []] := by
  refine parseMarkup_oneAttribute htag hname fun rest ↦ ?_
  have hwritten : encode (quoted value) ++ 0x3E :: rest =
      0x22 :: (encode value.toList ++ 0x22 :: 0x3E :: rest) := by
    rw [quoted, List.cons_append, encode_cons, encode_append, List.append_assoc,
      List.append_assoc]
    rfl
  rw [hwritten, skip_cons (by decide), attributeValue_quoted hvalue]

namespace IsBareValue

variable {value : String}

/-- The only bytes of the value that separate are the two that are no white space by themselves. -/
theorem isSeparator_eq_false (h : IsBareValue value)
    {b : UInt8} (hb : b ∈ encode value.toList) (h85 : b ≠ 0x85) (hA0 : b ≠ 0xA0) :
    Byte.isSeparator b = false := by
  rw [← Bool.not_eq_true]
  intro hsep
  rw [Byte.isSeparator, beq_false_of_ne h85, beq_false_of_ne hA0, Bool.or_false,
    Bool.or_false] at hsep
  simp only [Bool.or_eq_true, Bool.and_eq_true, decide_eq_true_eq, beq_iff_eq,
    UInt8.le_iff_toNat_le, ← UInt8.toNat_inj] at hsep
  change (9 ≤ b.toNat ∧ b.toNat ≤ 13) ∨ b.toNat = 32 at hsep
  obtain ⟨c, hc, hnat⟩ := exists_mem_of_mem_encode hb (by omega)
  have hblank : isBlank c = true := by
    simp only [isBlank, Bool.or_eq_true, Bool.and_eq_true, decide_eq_true_eq, beq_iff_eq]
    omega
  rw [(h.chars c hc).1] at hblank
  contradiction

/-- Without quotes the value ends behind its last byte, if none of its bytes separates. -/
theorem attributeValue_eq (h : IsBareValue value)
    (hbytes : ∀ b ∈ encode value.toList, b ≠ 0x85 ∧ b ≠ 0xA0) (rest : List UInt8) :
    attributeValue (skip (encode value.toList ++ 0x3E :: rest)) = .ok (value, 0x3E :: rest) := by
  have hplain : ∀ b ∈ encode value.toList, (!Byte.isSeparator b && b != 0x3E) = true := by
    intro b hb
    have hsep := h.isSeparator_eq_false hb (hbytes b hb).1 (hbytes b hb).2
    rw [hsep, Bool.not_false, Bool.true_and, bne_iff_ne]
    exact ne_of_mem_encode (c := '>') (by decide) (fun hmem ↦ (h.chars _ hmem).2.1 rfl) b hb
  obtain ⟨htake, hdrop⟩ := span_append (0x3E :: rest) hplain fun b hb ↦ by
    obtain rfl := Option.mem_some.mp hb
    rfl
  rcases hcons : encode value.toList with - | ⟨b, r⟩
  · exact absurd (encode_injective (hcons.trans encode_nil.symm)) h.ne_nil
  rw [hcons] at htake hdrop hplain
  have hsep : Byte.isSeparator b = false := by
    have := hplain b List.mem_cons_self
    simp only [Bool.and_eq_true, Bool.not_eq_true'] at this
    exact this.1
  have hdouble : b ≠ 0x22 := by
    have hmem : b ∈ encode value.toList := by rw [hcons]; exact List.mem_cons_self
    exact ne_of_mem_encode (c := '"') (by decide) (fun hmem ↦ (h.chars _ hmem).2.2 rfl) b hmem
  have hsingle : b ≠ 0x27 := by
    rintro rfl
    obtain ⟨es, hes, -⟩ := exists_cons_of_encode (c := '\'') (by decide) hcons
    refine h.head ?_
    rw [hes]
    rfl
  rw [List.cons_append] at htake hdrop ⊢
  rw [skip_cons hsep, attributeValue, if_neg (by simp [hdouble, hsingle])]
  simp only
  rw [htake, hdrop, ← hcons, pieceText_encode]

end IsBareValue

/-! ## Values in a forest -/

namespace Scan

section Values

variable {V : String → Prop} {bs : List UInt8}

/-- Setting an attribute brings along no value but its own. -/
theorem forall_mem_set {attrs : Attributes} {name value : String} (h : ∀ x ∈ attrs, V x.2)
    (hvalue : V value) : ∀ x ∈ attrs.set name value, V x.2 := by
  induction attrs with
  | nil => exact List.forall_mem_singleton.mpr hvalue
  | cons x attrs ih =>
    obtain ⟨hx, hattrs⟩ := List.forall_mem_cons.mp h
    rw [Attributes.set]
    split
    · exact List.forall_mem_cons.mpr ⟨hvalue, hattrs⟩
    · exact List.forall_mem_cons.mpr ⟨hx, ih hattrs⟩

/-- Whether a property holds of every value that could be read at some place of the bytes. -/
def HoldsOfValues (V : String → Prop) (bs : List UInt8) : Prop :=
  ∀ s v rest, s <:+ bs → attributeValue s = .ok (v, rest) → V v

theorem HoldsOfValues.of_suffix (h : HoldsOfValues V bs) {s : List UInt8} (hs : s <:+ bs) :
    HoldsOfValues V s := fun u v rest hu hvalue ↦ h u v rest (hu.trans hs) hvalue

/-- At the end of a source the empty value could be read. -/
theorem HoldsOfValues.empty (h : HoldsOfValues V bs) : V "" :=
  h [] "" [] List.nil_suffix rfl

theorem HoldsOfValues.of_afterName (h : HoldsOfValues V bs) {v : String} {rest : List UInt8}
    (hvalue : afterName bs = .ok (v, rest)) : V v := by
  unfold afterName at hvalue
  split at hvalue
  · rename_i r hskip
    exact h _ v rest ((skip_suffix r).trans (suffix_of_skip hskip)) hvalue
  · obtain ⟨rfl, -⟩ := Prod.mk.inj (Except.ok.inj hvalue)
    exact h.empty

theorem HoldsOfValues.of_tagBody (h : HoldsOfValues V bs) {attrs attrs' : Attributes}
    {closed : Bool} {rest : List UInt8} (hbody : tagBody attrs bs = .ok (attrs', closed, rest))
    (hattrs : ∀ x ∈ attrs, V x.2) : ∀ x ∈ attrs', V x.2 := by
  fun_induction tagBody attrs bs with
  | case1 | case2 | case3 =>
    simp only [Except.ok.injEq, Prod.mk.injEq] at hbody
    exact hbody.1 ▸ hattrs
  | case4 => contradiction
  | case5 attrs bs b r hskip _ _ _ name value rest' hvalue ih =>
    have hname : r.dropWhile Byte.isNameByte <:+ bs :=
      (List.dropWhile_suffix _).trans (suffix_of_skip hskip)
    have hV : V value := (h.of_suffix hname).of_afterName hvalue
    exact ih (h.of_suffix ((suffix_of_afterName hvalue).trans hname)) hbody
      (forall_mem_set hattrs hV)
  | case6 attrs bs b r hskip _ _ _ ih => exact ih (h.of_suffix (suffix_of_skip hskip)) hbody hattrs

/-- An element has the attributes of its tag, whether it is a leaf or opens. -/
theorem contributes_element_attrs {A : Attributes → Prop} (tag : String) {attrs : Attributes}
    (closed : Bool) (rest : List UInt8) (h : A attrs) :
    (element tag attrs closed rest).1.Contributes (fun t ↦ A t.attrs) fun _ attrs ↦ A attrs := by
  unfold element
  split
  · exact h
  · split <;> exact h

theorem HoldsOfValues.contributes_of_event {b : UInt8} {r rest : List UInt8} {e : Event}
    (h : HoldsOfValues V (b :: r)) (hevent : event b r = .ok (e, rest)) :
    e.Contributes (fun t ↦ ∀ x ∈ t.attrs, V x.2) fun _ attrs ↦ ∀ x ∈ attrs, V x.2 := by
  have hnil : ∀ x ∈ ([] : Attributes), V x.2 := fun _ hx ↦ absurd hx List.not_mem_nil
  cases reads_of_event hevent with
  | comment hmark hbreak => exact hnil
  | closing r => trivial
  | element hname hbody =>
    have htail : r.dropWhile Byte.isTagByte <:+ 0x3C :: r :=
      (List.dropWhile_suffix _).trans (List.suffix_cons _ r)
    exact contributes_element_attrs (A := fun attrs ↦ ∀ x ∈ attrs, V x.2) _ _ _
      ((h.of_suffix htail).of_tagBody hbody hnil)
  | text hb r => exact hnil

theorem HoldsOfValues.contributes (h : HoldsOfValues V bs) : ∀ e ∈ (events bs).1,
    e.Contributes (fun t ↦ ∀ x ∈ t.attrs, V x.2) fun _ attrs ↦ ∀ x ∈ attrs, V x.2 := by
  fun_induction events bs with
  | case1 | case2 => exact fun _ he ↦ absurd he List.not_mem_nil
  | case3 b r e rest hevent es fault hrest ih =>
    have hes := ih (h.of_suffix (suffix_of_event hevent))
    rw [hrest] at hes
    exact List.forall_mem_cons.mpr ⟨h.contributes_of_event hevent, hes⟩

end Values

end Scan

/-- Every value of a root could be read at some place of the source. -/
theorem forall_mem_values_of_parseMarkup {V : String → Prop} {source : String}
    {ts : List (Tree Unit)} (h : HoldsOfValues V (encode source.toList))
    (hread : parseMarkup source = .ok ts) : ∀ t ∈ ts, ∀ x ∈ t.attrs, V x.2 := by
  have hroots : ∀ t ∈ (Reading.ofSource source).forest, ∀ x ∈ t.attrs, V x.2 :=
    forall_mem_forestOf (fun _ _ _ hattrs _ ↦ hattrs) h.contributes
  obtain ⟨-, rfl⟩ := parseMarkup_eq_ok_iff.mp hread
  exact fun t ht ↦ hroots t (List.mem_filter.mp ht).1

/-! ## Values that are read nowhere -/

namespace Scan

/-- A value is not the text of bytes among which one of its own is missing. -/
theorem pieceText_ne {bs : List UInt8} {value : String} {b : UInt8}
    (hb : b ∈ encode value.toList) (hbs : b ∉ bs) (hreplacement : b ∉ encode ['\uFFFD']) :
    pieceText bs ≠ value := by
  rintro rfl
  rw [toList_pieceText] at hb
  exact (mem_of_mem_encode_decode hb).elim hbs hreplacement

/-- If a byte of a value separates and a quote stands in a source only where the value has one, then
the value is read at no place of the source. -/
theorem holdsOfValues_ne {bs : List UInt8} {value : String} {b : UInt8}
    (hb : b ∈ encode value.toList) (hsep : Byte.isSeparator b = true)
    (hquotes : ∀ q ∈ bs, q = 0x22 ∨ q = 0x27 → q ∈ encode value.toList) :
    HoldsOfValues (· ≠ value) bs := by
  intro s v rest hs hvalue
  unfold attributeValue at hvalue
  split at hvalue
  · obtain ⟨rfl, -⟩ := Prod.mk.inj (Except.ok.inj hvalue)
    rintro rfl
    contradiction
  rename_i q r
  split at hvalue
  · rename_i hq
    have hquote : q = 0x22 ∨ q = 0x27 := by simpa using hq
    have hmem : q ∈ encode value.toList := hquotes q (hs.mem List.mem_cons_self) hquote
    split at hvalue
    · contradiction
    · obtain ⟨rfl, -⟩ := Prod.mk.inj (Except.ok.inj hvalue)
      refine pieceText_ne hmem (fun htake ↦ ?_) ?_
      · simpa using List.mem_takeWhile_imp htake
      · obtain rfl | rfl := hquote <;> decide
  · obtain ⟨rfl, -⟩ := Prod.mk.inj (Except.ok.inj hvalue)
    have hplain : ∀ c ∈ encode ['\uFFFD'], Byte.isSeparator c = false := by decide +kernel
    refine pieceText_ne hb (fun htake ↦ ?_) (fun hmem ↦ ?_)
    · simpa [hsep] using List.mem_takeWhile_imp htake
    · simpa [hsep] using hplain b hmem

/-- The markup around a value has no quotes. -/
theorem mem_encode_of_quote {tag name : String} {written : List Char} (htag : IsTagName tag)
    (hname : IsAttributeName name) {q : UInt8}
    (h : q ∈ encode (oneAttribute tag name written).toList) (hq : q = 0x22 ∨ q = 0x27) :
    q ∈ encode written := by
  have htagByte : q ∉ encode tag.toList := fun hmem ↦ by
    have hbyte := isTagByte_of_mem_encode htag.chars q hmem
    obtain rfl | rfl := hq <;> exact absurd hbyte (by decide)
  have hnameByte : q ∉ encode name.toList := fun hmem ↦ by
    have hbyte := isNameByte_of_mem_encode hname.chars q hmem
    obtain rfl | rfl := hq <;> exact absurd hbyte (by decide)
  have hmark : q ∉ encode "< =>/".toList := by
    obtain rfl | rfl := hq <;> decide
  have hclosing : closingBytes tag = 0x3C :: 0x2F :: (encode tag.toList ++ [0x3E]) := by
    rw [closingBytes, List.cons_append, encode_cons, List.cons_append, encode_cons, encode_append]
    rfl
  have hmarks : encode "< =>/".toList = [0x3C, 0x20, 0x3D, 0x3E, 0x2F] := rfl
  rw [hmarks] at hmark
  rw [encode_oneAttribute, hclosing] at h
  simp only [List.mem_cons, List.mem_append, List.not_mem_nil, or_false] at h hmark
  tauto

end Scan

/-- **Quotes can be left out just if no byte of the value separates.** A value without white space,
`>` and double quote that is not empty and does not begin with a single quote is read as it is
between double quotes. Written without them, the element is read as the same one just if no
character of the value has the byte 0x85 or 0xA0. -/
theorem parseMarkup_bare_eq_quoted_iff {tag name value : String} (htag : IsTagName tag)
    (hname : IsAttributeName name) (hvalue : IsBareValue value) :
    parseMarkup (oneAttribute tag name (quoted value)) =
        .ok [.element () tag [(name, value)] []] ∧
      (parseMarkup (oneAttribute tag name value.toList) =
          parseMarkup (oneAttribute tag name (quoted value)) ↔
        ∀ b ∈ encode value.toList, b ≠ 0x85 ∧ b ≠ 0xA0) := by
  have hquoted := parseMarkup_quoted htag hname fun hmem ↦ (hvalue.chars _ hmem).2.2 rfl
  refine ⟨hquoted, ?_⟩
  rw [hquoted]
  constructor
  · intro hread b hb
    by_contra hbyte
    have hsep : Byte.isSeparator b = true := by
      obtain rfl | rfl : b = 0x85 ∨ b = 0xA0 := by
        by_contra hneither
        exact hbyte (not_or.mp hneither)
      · rfl
      · rfl
    have hquotes : ∀ q ∈ encode (oneAttribute tag name value.toList).toList,
        q = 0x22 ∨ q = 0x27 → q ∈ encode value.toList :=
      fun q hq ↦ mem_encode_of_quote htag hname hq
    have hholds := holdsOfValues_ne hb hsep hquotes
    have hne := forall_mem_values_of_parseMarkup hholds hread _ List.mem_cons_self (name, value)
      List.mem_cons_self
    exact hne rfl
  · intro hbytes
    exact parseMarkup_oneAttribute htag hname (hvalue.attributeValue_eq hbytes)

/-- Marks, quotes and characters of several bytes in a value that does without quotes. -/
theorem parseMarkup_bare_umlauts : IsTagName "Script" ∧ IsAttributeName ":href" ∧
    IsBareValue "/größe?q='ä=ö'/" ∧
    parseMarkup (oneAttribute "Script" ":href" "/größe?q='ä=ö'/".toList) =
      .ok [.element () "Script" [(":href", "/größe?q='ä=ö'/")] []] := by
  have htag : IsTagName "Script" := by decide
  have hname : IsAttributeName ":href" := by decide
  have hvalue : IsBareValue "/größe?q='ä=ö'/" := by decide +kernel
  obtain ⟨hquoted, hiff⟩ := parseMarkup_bare_eq_quoted_iff htag hname hvalue
  exact ⟨htag, hname, hvalue, (hiff.mpr (by decide +kernel)).trans hquoted⟩

/-- The second byte of `à` is 0xA0. Without quotes the value ends in front of it, and what is left
of the character is no character. -/
theorem parseMarkup_bare_ne_quoted : IsTagName "p" ∧ IsAttributeName "a" ∧ IsBareValue "à" ∧
    oneAttribute "p" "a" "à".toList = "<p a=à></p>" ∧
    (treesOf (oneAttribute "p" "a" "à".toList)).map Tree.attrs = [[("a", "\uFFFD")]] ∧
    parseMarkup (oneAttribute "p" "a" "à".toList) ≠
      parseMarkup (oneAttribute "p" "a" (quoted "à")) := by
  have hbare : (treesOf (oneAttribute "p" "a" "à".toList)).map Tree.attrs =
      [[("a", "\uFFFD")]] := by decide +kernel
  have hquoted : (treesOf (oneAttribute "p" "a" (quoted "à"))).map Tree.attrs =
      [[("a", "à")]] := by decide +kernel
  refine ⟨by decide, by decide, by decide +kernel, by decide +kernel, hbare, fun heq ↦ ?_⟩
  rw [treesOf, heq] at hbare
  exact absurd (hbare.symm.trans hquoted) (by decide)

end LiveMarkup
