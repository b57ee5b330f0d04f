import LiveMarkup.Proofs.Markup.Scanning
import LiveMarkup.Proofs.Text.Boundary

/-!
# Where the pieces of a source end

Every scanning function leaves a suffix of its bytes. Within a tag this need not begin a character:
unknown bytes are skipped one by one, and the bytes 0x85 and 0xA0 end a value wherever they stand.
But a tag ends behind its `>` or its `/` or at the end of the source, and behind a byte below 0x80
there is a boundary again (`isText_of_tagBody`). So each event of a text leaves a text
(`isText_of_event`), and the body of a comment or a script and a run of text are texts themselves.

What an event can be, and what was read for it, is said once (`Reads`). Whatever is to hold of all
events is shown by cases of it.
-/

namespace LiveMarkup

open Utf8

namespace Byte

theorem separator_cases {b : UInt8} (h : isSeparator b = true) :
    b.toNat < 0x80 ∨ isContinuation b = true := by
  simp only [isSeparator, Bool.or_eq_true, Bool.and_eq_true, decide_eq_true_eq, beq_iff_eq,
    UInt8.le_iff_toNat_le, ← UInt8.toNat_inj] at h
  change (((9 ≤ b.toNat ∧ b.toNat ≤ 13) ∨ b.toNat = 32) ∨ b.toNat = 133) ∨ b.toNat = 160 at h
  simp only [isContinuation, Bool.and_eq_true, decide_eq_true_eq]
  omega

end Byte

namespace Scan

/-! ## The steps of a tag -/

theorem afterName_of_equals {bs r : List UInt8} (h : skip bs = 0x3D :: r) :
    afterName bs = attributeValue (skip r) := by
  simp only [afterName, h]

theorem afterName_of_ne {bs : List UInt8} (h : (skip bs).head? ≠ some 0x3D) :
    afterName bs = .ok ("", skip bs) := by
  unfold afterName
  split
  · rename_i r hskip
    rw [hskip] at h
    exact absurd rfl h
  · rfl

theorem tagBody_of_end {bs : List UInt8} (h : skip bs = []) (attrs : Attributes) :
    tagBody attrs bs = .ok (attrs, false, []) := by
  rw [tagBody]
  split <;> simp_all

/-- A byte that means nothing within a tag is passed over. -/
theorem tagBody_of_unknown {bs r : List UInt8} {b : UInt8} (h : skip bs = b :: r)
    (hslash : b ≠ 0x2F) (hclose : b ≠ 0x3E) (hname : Byte.isNameByte b = false)
    (attrs : Attributes) : tagBody attrs bs = tagBody attrs r := by
  rw [tagBody]
  split
  · simp_all
  · rename_i b' r' hskip
    rw [h] at hskip
    obtain ⟨rfl, rfl⟩ := List.cons.inj hskip
    rw [if_neg hslash, if_neg hclose, if_neg (by simp [hname])]

theorem tagBody_of_fault {bs r : List UInt8} {b : UInt8} {fault : Fault} (h : skip bs = b :: r)
    (hname : Byte.isNameByte b = true) (hvalue : afterName (r.dropWhile Byte.isNameByte) =
      .error fault) (attrs : Attributes) : tagBody attrs bs = .error fault := by
  have hbyte := hname
  rw [isNameByte_iff, isTagByte_iff] at hbyte
  rw [tagBody]
  split
  · simp_all
  · rename_i b' r' hskip
    rw [h] at hskip
    obtain ⟨rfl, rfl⟩ := List.cons.inj hskip
    rw [if_neg (fun hslash ↦ by subst hslash; revert hbyte; decide),
      if_neg (fun hclose ↦ by subst hclose; revert hbyte; decide), if_pos hname]
    split
    · simp_all
    · simp_all

/-! ## The kinds of events -/

theorem event_of_ne {b : UInt8} (h : b ≠ 0x3C) (r : List UInt8) :
    event b r = .ok (textEvent (b :: r)) := by
  unfold event
  rw [if_neg h]

theorem event_of_comment {r : List UInt8} (h : r.take 3 = [0x21, 0x2D, 0x2D]) :
    event 0x3C r = comment (0x3C :: r) (r.drop 3) := by
  unfold event
  rw [if_pos rfl, if_pos (by rw [h]; rfl)]

theorem event_of_closing (r : List UInt8) : event 0x3C (0x2F :: r) = .ok (closingTag r) := by
  unfold event
  rw [if_pos rfl, if_neg (by simp)]
  rfl

theorem event_of_opening {r : List UInt8} (hcomment : r.take 3 ≠ [0x21, 0x2D, 0x2D])
    (hclosing : r.head? ≠ some 0x2F) : event 0x3C r = openingTag r := by
  unfold event
  rw [if_pos rfl, if_neg (by simpa using hcomment)]
  split
  · exact absurd rfl hclosing
  · rfl

theorem openingTag_of_nil {bs : List UInt8} (h : bs.takeWhile Byte.isTagByte = []) :
    openingTag bs = .error (.missingTagName, 0x3C :: bs) := by
  rw [openingTag, h]

theorem openingTag_of_fault {bs : List UInt8} {fault : Fault}
    (h : bs.takeWhile Byte.isTagByte ≠ [])
    (hbody : tagBody [] (bs.dropWhile Byte.isTagByte) = .error fault) :
    openingTag bs = .error fault := by
  unfold openingTag
  rw [hbody]
  split
  · contradiction
  · rfl

theorem openingTag_of_ok {bs rest : List UInt8} {attrs : Attributes} {closed : Bool}
    (h : bs.takeWhile Byte.isTagByte ≠ [])
    (hbody : tagBody [] (bs.dropWhile Byte.isTagByte) = .ok (attrs, closed, rest)) :
    openingTag bs =
      .ok (element (pieceText (bs.takeWhile Byte.isTagByte)) attrs closed rest) := by
  unfold openingTag
  rw [hbody]
  split
  · contradiction
  · rfl

/-- How an event is read at the front of some bytes, and what it leaves. -/
inductive Reads : List UInt8 → Event → List UInt8 → Prop
  /-- A comment up to the first place that ends it. -/
  | comment {r body rest : List UInt8} (hmark : r.take 3 = [0x21, 0x2D, 0x2D])
      (hbreak : breakAt? endsComment (r.drop 3) = some (body, rest)) :
      Reads (0x3C :: r) (.leaf (.comment () (pieceText body))) (rest.drop 3)
  /-- A closing tag. -/
  | closing (r : List UInt8) : Reads (0x3C :: 0x2F :: r) (closingTag r).1 (closingTag r).2
  /-- An element with the attributes of its opening tag. -/
  | element {r rest : List UInt8} {attrs : Attributes} {closed : Bool}
      (hname : r.takeWhile Byte.isTagByte ≠ [])
      (hbody : tagBody [] (r.dropWhile Byte.isTagByte) = .ok (attrs, closed, rest)) :
      Reads (0x3C :: r) (element (pieceText (r.takeWhile Byte.isTagByte)) attrs closed rest).1
        (element (pieceText (r.takeWhile Byte.isTagByte)) attrs closed rest).2
  /-- A text up to the next mark. -/
  | text {b : UInt8} (hb : b ≠ 0x3C) (r : List UInt8) :
      Reads (b :: r) (textEvent (b :: r)).1 (textEvent (b :: r)).2

theorem reads_of_event {b : UInt8} {r rest : List UInt8} {e : Event}
    (h : event b r = .ok (e, rest)) : Reads (b :: r) e rest := by
  by_cases hb : b = 0x3C
  · subst hb
    by_cases hcomment : r.take 3 = [0x21, 0x2D, 0x2D]
    · rw [event_of_comment hcomment, Scan.comment] at h
      split at h
      · rename_i body rest' hbreak
        obtain ⟨rfl, rfl⟩ := Prod.mk.inj (Except.ok.inj h)
        exact .comment hcomment hbreak
      · contradiction
    by_cases hclosing : r.head? = some 0x2F
    · obtain ⟨r, rfl⟩ := List.head?_eq_some_iff.mp hclosing
      rw [event_of_closing] at h
      obtain ⟨rfl, rfl⟩ := Prod.mk.inj (Except.ok.inj h)
      exact .closing r
    rw [event_of_opening hcomment hclosing] at h
    by_cases hname : r.takeWhile Byte.isTagByte = []
    · rw [openingTag_of_nil hname] at h
      contradiction
    rcases hbody : tagBody [] (r.dropWhile Byte.isTagByte) with fault | ⟨attrs, closed, rest'⟩
    · rw [openingTag_of_fault hname hbody] at h
      contradiction
    rw [openingTag_of_ok hname hbody] at h
    obtain ⟨rfl, rfl⟩ := Prod.mk.inj (Except.ok.inj h)
    exact .element hname hbody
  · rw [event_of_ne hb] at h
    obtain ⟨rfl, rfl⟩ := Prod.mk.inj (Except.ok.inj h)
    exact .text hb r

theorem events_of_fault {b : UInt8} {r : List UInt8} {fault : Fault}
    (h : event b r = .error fault) : events (b :: r) = ([], some fault) := by
  rw [events]
  split
  · simp_all
  · simp_all

@[simp] theorem pieceText_nil : pieceText [] = "" := by
  rw [pieceText, decode_nil]

theorem toList_pieceText (bs : List UInt8) : (pieceText bs).toList = decode bs :=
  String.toList_ofList

/-- A piece of the source that is not empty has a text that is not. -/
theorem pieceText_ne_empty (b : UInt8) (bs : List UInt8) : pieceText (b :: bs) ≠ "" := by
  intro h
  refine decode_ne_nil (List.cons_ne_nil b bs) ?_
  rw [← toList_pieceText, h]
  rfl

/-! ## Suffixes -/

theorem skip_suffix (bs : List UInt8) : skip bs <:+ bs := List.dropWhile_suffix _

theorem suffix_of_skip {b : UInt8} {bs r : List UInt8} (h : skip bs = b :: r) : r <:+ bs :=
  (List.suffix_cons b r).trans (h ▸ skip_suffix bs)

theorem dropClose_suffix (bs : List UInt8) : dropClose bs <:+ bs := by
  unfold dropClose
  split
  · exact List.suffix_cons _ _
  · exact List.suffix_rfl

theorem suffix_of_attributeValue {bs rest : List UInt8} {v : String}
    (h : attributeValue bs = .ok (v, rest)) : rest <:+ bs := by
  unfold attributeValue at h
  split at h
  · obtain ⟨-, rfl⟩ := Prod.mk.inj (Except.ok.inj h)
    exact List.suffix_rfl
  · rename_i q r
    split at h
    · split at h
      · contradiction
      · rename_i b rest' hdrop
        obtain ⟨-, rfl⟩ := Prod.mk.inj (Except.ok.inj h)
        have hsuffix : b :: rest' <:+ r := hdrop ▸ List.dropWhile_suffix _
        exact (List.suffix_cons b rest').trans (hsuffix.trans (List.suffix_cons q r))
    · obtain ⟨-, rfl⟩ := Prod.mk.inj (Except.ok.inj h)
      exact List.dropWhile_suffix _

theorem suffix_of_afterName {bs rest : List UInt8} {v : String}
    (h : afterName bs = .ok (v, rest)) : rest <:+ bs := by
  unfold afterName at h
  split at h
  · rename_i r hskip
    exact (suffix_of_attributeValue h).trans ((skip_suffix r).trans (suffix_of_skip hskip))
  · obtain ⟨-, rfl⟩ := Prod.mk.inj (Except.ok.inj h)
    exact skip_suffix bs

theorem suffix_of_tagBody {attrs attrs' : Attributes} {closed : Bool} {bs rest : List UInt8}
    (h : tagBody attrs bs = .ok (attrs', closed, rest)) : rest <:+ bs := by
  fun_induction tagBody attrs bs with
  | case1 =>
    simp only [Except.ok.injEq, Prod.mk.injEq] at h
    exact h.2.2 ▸ List.nil_suffix
  | case2 attrs bs r hskip =>
    simp only [Except.ok.injEq, Prod.mk.injEq] at h
    exact h.2.2 ▸ (dropClose_suffix _).trans ((skip_suffix r).trans (suffix_of_skip hskip))
  | case3 attrs bs r hskip =>
    simp only [Except.ok.injEq, Prod.mk.injEq] at h
    exact h.2.2 ▸ suffix_of_skip hskip
  | case4 => contradiction
  | case5 attrs bs b r hskip _ _ _ name value rest' hvalue ih =>
    exact (ih h).trans ((suffix_of_afterName hvalue).trans
      ((List.dropWhile_suffix _).trans (suffix_of_skip hskip)))
  | case6 attrs bs b r hskip _ _ _ ih => exact (ih h).trans (suffix_of_skip hskip)

theorem scriptBody_suffix (bs : List UInt8) : (scriptBody bs).2 <:+ bs := by
  unfold scriptBody
  split
  · rename_i body rest hbreak
    rw [(eq_append_of_breakAt? hbreak).1]
    exact (List.drop_suffix _ _).trans ((List.dropWhile_suffix _).trans
      ((List.drop_suffix _ _).trans (List.suffix_append _ _)))
  · exact List.nil_suffix

theorem element_suffix (tag : String) (attrs : Attributes) (closed : Bool) (bs : List UInt8) :
    (element tag attrs closed bs).2 <:+ bs := by
  unfold element
  split
  · exact List.suffix_rfl
  · split
    · exact scriptBody_suffix bs
    · exact List.suffix_rfl

theorem suffix_of_comment {whole bs rest : List UInt8} {e : Event}
    (h : comment whole bs = .ok (e, rest)) : rest <:+ bs := by
  unfold comment at h
  split at h
  · rename_i body rest' hbreak
    obtain ⟨-, rfl⟩ := Prod.mk.inj (Except.ok.inj h)
    rw [(eq_append_of_breakAt? hbreak).1]
    exact (List.drop_suffix _ _).trans (List.suffix_append _ _)
  · contradiction

theorem closingTag_suffix (bs : List UInt8) : (closingTag bs).2 <:+ bs :=
  (dropClose_suffix _).trans ((skip_suffix _).trans (List.dropWhile_suffix _))

/-- An event leaves a suffix of the bytes. -/
theorem suffix_of_event {b : UInt8} {r rest : List UInt8} {e : Event}
    (h : event b r = .ok (e, rest)) : rest <:+ b :: r := by
  cases reads_of_event h with
  | comment hmark hbreak =>
    have hdrop : r.drop 3 <:+ 0x3C :: r := (List.drop_suffix _ _).trans (List.suffix_cons _ r)
    rw [(eq_append_of_breakAt? hbreak).1] at hdrop
    exact (List.drop_suffix _ _).trans ((List.suffix_append _ _).trans hdrop)
  | closing r =>
    exact (closingTag_suffix r).trans ((List.suffix_cons _ r).trans (List.suffix_cons _ _))
  | element hname hbody =>
    refine (element_suffix _ _ _ _).trans ((suffix_of_tagBody hbody).trans ?_)
    exact (List.dropWhile_suffix _).trans (List.suffix_cons _ r)
  | text hb r => exact List.dropWhile_suffix _

/-! ## Boundaries -/

theorem isText_skip {bs : List UInt8} (h : IsText bs) : IsText (skip bs) :=
  (h.span fun _ ↦ Byte.separator_cases).2

theorem isText_dropClose {bs : List UInt8} (h : IsText bs) : IsText (dropClose bs) := by
  unfold dropClose
  split
  · exact (h.split (u := []) (by decide)).2
  · exact h

/-- The rest of a tag ends at a boundary, though it may have been read byte by byte. -/
theorem isText_of_tagBody {attrs attrs' : Attributes} {closed : Bool} {bs rest : List UInt8}
    (h : tagBody attrs bs = .ok (attrs', closed, rest)) (hbs : IsTail bs) : IsText rest := by
  fun_induction tagBody attrs bs with
  | case1 =>
    simp only [Except.ok.injEq, Prod.mk.injEq] at h
    exact h.2.2 ▸ isText_nil
  | case2 attrs bs r hskip =>
    simp only [Except.ok.injEq, Prod.mk.injEq] at h
    have hslash : IsTail (0x2F :: r) := hskip ▸ hbs.of_suffix (skip_suffix bs)
    exact h.2.2 ▸ isText_dropClose (isText_skip (hslash.of_cons (by decide)))
  | case3 attrs bs r hskip =>
    simp only [Except.ok.injEq, Prod.mk.injEq] at h
    have hclose : IsTail (0x3E :: r) := hskip ▸ hbs.of_suffix (skip_suffix bs)
    exact h.2.2 ▸ hclose.of_cons (by decide)
  | case4 => contradiction
  | case5 attrs bs b r hskip _ _ _ name value rest' hvalue ih =>
    exact ih h (hbs.of_suffix ((suffix_of_afterName hvalue).trans
      ((List.dropWhile_suffix _).trans (suffix_of_skip hskip))))
  | case6 attrs bs b r hskip _ _ _ ih => exact ih h (hbs.of_suffix (suffix_of_skip hskip))

/-- Behind the mark of a comment there is a boundary. -/
theorem isText_drop_three {r : List UInt8} (h : IsText (0x3C :: r))
    (hmark : r.take 3 = [0x21, 0x2D, 0x2D]) : IsText (r.drop 3) := by
  have hopen : IsText (0x3C :: r.take 3 ++ r.drop 3) := by
    rwa [List.cons_append, List.take_append_drop]
  rw [hmark] at hopen
  exact hopen.of_append ⟨"<!--".toList, rfl⟩

/-- The end of a comment is a boundary on both sides. -/
theorem isText_of_endsComment {u rest : List UInt8} (h : IsText (u ++ rest))
    (hends : endsComment rest = true) : IsText u ∧ IsText (rest.drop 3) := by
  match rest, hends with
  | [], hends => simp [endsComment] at hends
  | [_], hends => simp [endsComment] at hends
  | [_, _], hends => simp [endsComment] at hends
  | x :: y :: z :: rest, hends =>
    simp only [endsComment, List.take_succ_cons, List.take_zero, beq_iff_eq, List.cons.injEq,
      and_true] at hends
    obtain ⟨rfl, rfl, rfl⟩ := hends
    refine ⟨(h.split (by decide)).1, ?_⟩
    exact (IsText.split (u := u ++ [0x2D, 0x2D]) (by simpa using h) (by decide)).2

/-- The closing tag of a script begins at a boundary. -/
theorem isText_of_endsScript {u rest : List UInt8} (h : IsText (u ++ rest))
    (hends : endsScript rest = true) : IsText u ∧ IsText rest := by
  rcases rest with - | ⟨b, rest⟩
  · simp [endsScript] at hends
  · have hlower : Byte.lower b = 0x3C := by
      simp only [endsScript, List.take_succ_cons, List.map_cons, beq_iff_eq,
        List.cons.injEq] at hends
      exact hends.1
    have hb : b.toNat < 0x80 := by
      have hnat := toNat_lower b
      rw [hlower] at hnat
      change 60 = _ at hnat
      split at hnat <;> omega
    exact ⟨(h.split hb).1, h.of_append (h.split hb).1⟩

/-- The body of a script and what follows its closing tag are texts. -/
theorem isText_scriptBody {bs : List UInt8} (h : IsText bs) :
    IsText (scriptBody bs).1 ∧ IsText (scriptBody bs).2 := by
  unfold scriptBody
  split
  · rename_i body rest hbreak
    obtain ⟨rfl, hends⟩ := eq_append_of_breakAt? hbreak
    obtain ⟨hbody, hrest⟩ := isText_of_endsScript h hends
    refine ⟨hbody, ?_⟩
    -- What follows the closing tag stands behind a `>` or is nothing.
    have hsuffix : (rest.drop 8).dropWhile (· != 0x3E) <:+ rest :=
      (List.dropWhile_suffix _).trans (List.drop_suffix _ _)
    rcases hdrop : (rest.drop 8).dropWhile (· != 0x3E) with - | ⟨b, rest'⟩
    · exact isText_nil
    · have hb := List.head?_dropWhile_not (· != 0x3E) (rest.drop 8)
      rw [hdrop] at hb hsuffix
      obtain rfl : b = 0x3E := by simpa using hb
      exact (hrest.isTail.of_suffix hsuffix).of_cons (by decide)
  · exact ⟨h, isText_nil⟩

theorem isText_element (tag : String) (attrs : Attributes) (closed : Bool) {bs : List UInt8}
    (h : IsText bs) : IsText (element tag attrs closed bs).2 := by
  unfold element
  split
  · exact h
  · split
    · exact (isText_scriptBody h).2
    · exact h

theorem lt_of_isTagByte {b : UInt8} (h : Byte.isTagByte b = true) : b.toNat < 0x80 := by
  rw [isTagByte_iff] at h
  omega

/-- A name ends at a boundary. -/
theorem isText_span_isTagByte {bs : List UInt8} (h : IsText bs) :
    IsText (bs.takeWhile Byte.isTagByte) ∧ IsText (bs.dropWhile Byte.isTagByte) :=
  h.span fun _ hb ↦ .inl (lt_of_isTagByte hb)

/-- An event of a text leaves a text. -/
theorem isText_of_event {b : UInt8} {r rest : List UInt8} {e : Event}
    (h : event b r = .ok (e, rest)) (hbs : IsText (b :: r)) : IsText rest := by
  cases reads_of_event h with
  | comment hmark hbreak =>
    obtain ⟨hsplit, hends⟩ := eq_append_of_breakAt? hbreak
    have hdrop := isText_drop_three hbs hmark
    exact (isText_of_endsComment (hsplit ▸ hdrop) hends).2
  | closing r =>
    have hr : IsText (0x2F :: r) := (hbs.split (u := []) (by decide)).2
    have hname := isText_span_isTagByte (hr.split (u := []) (by decide)).2
    exact isText_dropClose (isText_skip hname.2)
  | element hname hbody =>
    have hr : IsText r := (hbs.split (u := []) (by decide)).2
    exact isText_element _ _ _ (isText_of_tagBody hbody (isText_span_isTagByte hr).2.isTail)
  | text hb r => exact (hbs.span_ne (by decide)).2

end Scan

end LiveMarkup
