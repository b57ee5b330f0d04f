import LiveMarkup.Markup.Source
import LiveMarkup.Proofs.Markup.Boundaries
import Mathlib.Data.List.TakeWhile

/-!
# Where an error points

An error names the first byte of a piece that cannot be read, and what stands there is what the
error says (`events_fault`). Everything before it can be read by itself: a source cut off where the
error points has no defect (`events_cut`).

The second half compares two scans, of `xs ++ post` and of `xs`. As long as a function stops at or
before the cut it does not look behind it, so it gives the same for both (the lemmas `_append`);
that includes the functions that look ahead for the end of a comment or a script, because they only
stop behind that end. The one piece that is cut in the middle is a tag with an unterminated value,
and of this is left a tag that ends with an equals sign (`tagBody_cut`).
-/

namespace LiveMarkup

open Utf8

namespace Scan

variable {xs ys post : List UInt8}

/-- What ends in `ys ++ post` is something in front of `post`. -/
theorem exists_append_of_suffix {zs : List UInt8} (h : ys ++ post <:+ zs) :
    ∃ ws, zs = ws ++ post ∧ ys <:+ ws := by
  obtain ⟨t, rfl⟩ := h
  exact ⟨t ++ ys, (List.append_assoc ..).symm, List.suffix_append t ys⟩

/-! ## Stopping before the cut -/

theorem span_of_append {p : UInt8 → Bool} (h : (xs ++ post).dropWhile p = ys ++ post) :
    xs.takeWhile p = (xs ++ post).takeWhile p ∧ xs.dropWhile p = ys := by
  induction xs with
  | nil =>
    have hlength := length_dropWhile_le p post
    rw [List.nil_append] at h
    rw [h, List.length_append] at hlength
    obtain rfl : ys = [] := List.eq_nil_of_length_eq_zero (by omega)
    have hsplit := List.takeWhile_append_dropWhile (p := p) (l := post)
    rw [h, List.nil_append, List.append_left_eq_self] at hsplit
    exact ⟨hsplit.symm, rfl⟩
  | cons b xs ih =>
    rw [List.cons_append] at h ⊢
    by_cases hb : p b = true
    · rw [List.dropWhile_cons_of_pos hb] at h
      obtain ⟨htake, hdrop⟩ := ih h
      rw [List.takeWhile_cons_of_pos hb, List.takeWhile_cons_of_pos hb,
        List.dropWhile_cons_of_pos hb, htake]
      exact ⟨rfl, hdrop⟩
    · rw [List.dropWhile_cons_of_neg hb, ← List.cons_append] at h
      rw [List.takeWhile_cons_of_neg hb, List.takeWhile_cons_of_neg hb,
        List.dropWhile_cons_of_neg hb]
      exact ⟨rfl, List.append_cancel_right h⟩

theorem skip_of_append (h : skip (xs ++ post) = ys ++ post) : skip xs = ys := (span_of_append h).2

theorem skip_cons_of_append {b : UInt8} (h : skip (xs ++ post) = b :: (ys ++ post)) :
    skip xs = b :: ys :=
  skip_of_append (h.trans (List.cons_append ..).symm)

theorem dropClose_of_append (h : dropClose (xs ++ post) = ys ++ post) : dropClose xs = ys := by
  rcases xs with - | ⟨b, xs⟩
  · have hsuffix := (dropClose_suffix post).length_le
    rw [List.nil_append] at h
    rw [h, List.length_append] at hsuffix
    rw [List.eq_nil_of_length_eq_zero (show ys.length = 0 by omega)]
    rfl
  · by_cases hb : b = 0x3E
    · subst hb
      exact List.append_cancel_right h
    · have hself : ∀ r : List UInt8, dropClose (b :: r) = b :: r := fun r ↦ by
        unfold dropClose
        split
        · rename_i hcons
          exact absurd (List.cons.inj hcons).1 hb
        · rfl
      rw [List.cons_append, hself, ← List.cons_append] at h
      rw [hself, List.append_cancel_right h]

theorem attributeValue_of_append {v : String}
    (h : attributeValue (xs ++ post) = .ok (v, ys ++ post)) : attributeValue xs = .ok (v, ys) := by
  rcases xs with - | ⟨q, xs⟩
  · rcases post with - | ⟨q, r⟩
    · rwa [List.append_nil, List.append_nil] at h
    rw [List.nil_append, attributeValue] at h
    dsimp only at h
    split at h
    · split at h
      · contradiction
      -- A quoted value ends behind the cut.
      · rename_i x rest hdrop
        obtain ⟨-, hrest⟩ := Prod.mk.inj (Except.ok.inj h)
        have hlength := length_dropWhile_le (· != q) r
        rw [hdrop, hrest, List.length_cons, List.length_append, List.length_cons] at hlength
        omega
    · obtain ⟨hvalue, hrest⟩ := Prod.mk.inj (Except.ok.inj h)
      rw [← List.nil_append (q :: r)] at hrest
      obtain ⟨htake, hnil⟩ := span_of_append hrest
      rw [← hvalue, ← hnil, ← List.nil_append (q :: r), ← htake, List.takeWhile_nil,
        List.dropWhile_nil, pieceText_nil]
      rfl
  · rw [List.cons_append, attributeValue] at h
    rw [attributeValue]
    dsimp only at h ⊢
    by_cases hquote : (decide (q = 0x22) || decide (q = 0x27)) = true
    · rw [if_pos hquote] at h ⊢
      split at h
      · contradiction
      · rename_i x rest hdrop
        obtain ⟨hvalue, rfl⟩ := Prod.mk.inj (Except.ok.inj h)
        rw [← List.cons_append] at hdrop
        obtain ⟨htake, hdrop'⟩ := span_of_append hdrop
        rw [hdrop', htake, hvalue]
    · rw [if_neg hquote] at h ⊢
      obtain ⟨hvalue, hrest⟩ := Prod.mk.inj (Except.ok.inj h)
      rw [← List.cons_append] at hrest hvalue
      obtain ⟨htake, hdrop⟩ := span_of_append hrest
      rw [hdrop, htake, hvalue]

theorem afterName_of_append {v : String} (h : afterName (xs ++ post) = .ok (v, ys ++ post)) :
    afterName xs = .ok (v, ys) := by
  by_cases hhead : (skip (xs ++ post)).head? = some 0x3D
  · obtain ⟨r, hskip⟩ := List.head?_eq_some_iff.mp hhead
    rw [afterName_of_equals hskip] at h
    obtain ⟨zs, hzs, -⟩ := exists_append_of_suffix (suffix_of_attributeValue h)
    obtain ⟨ws, rfl, -⟩ := exists_append_of_suffix (hzs ▸ skip_suffix r)
    rw [afterName_of_equals (skip_cons_of_append hskip), skip_of_append hzs]
    exact attributeValue_of_append (hzs ▸ h)
  · rw [afterName_of_ne hhead] at h
    obtain ⟨rfl, hskip⟩ := Prod.mk.inj (Except.ok.inj h)
    have hcut := skip_of_append hskip
    rw [← hcut, afterName_of_ne]
    intro hhead'
    obtain ⟨r, hr⟩ := List.head?_eq_some_iff.mp hhead'
    rw [hskip, ← hcut, hr] at hhead
    exact hhead rfl

/-- What the rest of a tag does with the byte that comes first, if it does not end there: it goes on
behind an attribute, or behind the byte. -/
theorem tagBody_of_skip {attrs : Attributes} {bs r : List UInt8} {b : UInt8}
    (h : skip bs = b :: r) (hslash : b ≠ 0x2F) (hclose : b ≠ 0x3E) :
    tagBody attrs bs =
      if Byte.isNameByte b then
        match afterName (r.dropWhile Byte.isNameByte) with
        | .error fault => .error fault
        | .ok (value, rest) =>
          tagBody (attrs.set (pieceText (b :: r.takeWhile Byte.isNameByte)) value) rest
      else tagBody attrs r := by
  rcases hname : Byte.isNameByte b
  · rw [tagBody_of_unknown h hslash hclose hname, if_neg Bool.false_ne_true]
  · rw [if_pos rfl]
    rcases hvalue : afterName (r.dropWhile Byte.isNameByte) with fault | ⟨value, rest⟩
    · rw [tagBody_of_fault h hname hvalue]
    · rw [tagBody_of_name h hname hvalue]

theorem length_lt_of_skip {bs r : List UInt8} {b : UInt8} (h : skip bs = b :: r) :
    r.length < bs.length := by
  have hlength := length_skip_le bs
  rw [h, List.length_cons] at hlength
  exact hlength

/-- The rest of a tag that does not end with its first byte has a value without an end there, or it
goes on with some bytes that are left. If the cut is behind the beginning of these, it goes on in
the same way in the source that is cut. -/
theorem tagBody_next {b : UInt8} {r : List UInt8} (hskip : skip (xs ++ post) = b :: r)
    (hslash : b ≠ 0x2F) (hclose : b ≠ 0x3E) (attrs : Attributes) :
    (∃ fault, Byte.isNameByte b = true ∧
        afterName (r.dropWhile Byte.isNameByte) = .error fault ∧
        tagBody attrs (xs ++ post) = .error fault) ∨
      ∃ attrs' rest, tagBody attrs (xs ++ post) = tagBody attrs' rest ∧
        ∀ ws, rest = ws ++ post → ws.length < xs.length ∧ tagBody attrs xs = tagBody attrs' ws := by
  rw [tagBody_of_skip hskip hslash hclose]
  by_cases hname : Byte.isNameByte b = true
  · rw [if_pos hname]
    rcases hvalue : afterName (r.dropWhile Byte.isNameByte) with fault | ⟨value, rest⟩
    · exact .inl ⟨fault, hname, rfl, rfl⟩
    refine .inr ⟨_, rest, rfl, ?_⟩
    rintro ws rfl
    obtain ⟨vs, hvs, -⟩ := exists_append_of_suffix (suffix_of_afterName hvalue)
    obtain ⟨us, rfl, -⟩ := exists_append_of_suffix (hvs ▸ List.dropWhile_suffix _)
    have hus := skip_cons_of_append hskip
    obtain ⟨htake, hdrop⟩ := span_of_append hvs
    rw [hvs] at hvalue
    have hvalue' := afterName_of_append hvalue
    constructor
    · have hle := length_dropWhile_le Byte.isNameByte us
      rw [hdrop] at hle
      have hlength := (suffix_of_afterName hvalue').length_le
      have hlt := length_lt_of_skip hus
      omega
    · rw [tagBody_of_skip hus hslash hclose, if_pos hname, hdrop, hvalue', htake]
  · rw [if_neg hname]
    refine .inr ⟨attrs, r, rfl, ?_⟩
    rintro us rfl
    have hus := skip_cons_of_append hskip
    rw [tagBody_of_skip hus hslash hclose, if_neg hname]
    exact ⟨length_lt_of_skip hus, rfl⟩

/-- A tag that ends before the cut. -/
theorem tagBody_of_append {attrs attrs' : Attributes} {closed : Bool}
    (h : tagBody attrs (xs ++ post) = .ok (attrs', closed, ys ++ post)) :
    tagBody attrs xs = .ok (attrs', closed, ys) := by
  induction hn : xs.length using Nat.strongRecOn generalizing attrs xs with
  | ind n ih =>
    subst hn
    rcases hskip : skip (xs ++ post) with - | ⟨b, r⟩
    · rw [tagBody_of_end hskip] at h
      obtain ⟨rfl, rfl, hnil⟩ : attrs = attrs' ∧ false = closed ∧ [] = ys ++ post := by
        simpa using h
      obtain ⟨rfl, rfl⟩ := List.append_eq_nil_iff.mp hnil.symm
      rw [List.append_nil] at hskip
      exact tagBody_of_end hskip attrs
    by_cases hslash : b = 0x2F
    · subst hslash
      rw [tagBody_of_slash hskip] at h
      obtain ⟨rfl, rfl, hrest⟩ : attrs = attrs' ∧ true = closed ∧ _ = ys ++ post := by
        simpa using h
      obtain ⟨zs, hzs, -⟩ := exists_append_of_suffix (hrest ▸ dropClose_suffix (skip r))
      obtain ⟨us, rfl, -⟩ := exists_append_of_suffix (hzs ▸ skip_suffix r)
      rw [tagBody_of_slash (skip_cons_of_append hskip), skip_of_append hzs,
        dropClose_of_append (hzs ▸ hrest)]
    by_cases hclose : b = 0x3E
    · subst hclose
      rw [tagBody_of_close hskip] at h
      obtain ⟨rfl, rfl, rfl⟩ : attrs = attrs' ∧ false = closed ∧ r = ys ++ post := by
        simpa using h
      exact tagBody_of_close (skip_cons_of_append hskip) attrs
    obtain ⟨fault, -, -, hfault⟩ | ⟨attrs', rest, hnext, hcut⟩ :=
      tagBody_next hskip hslash hclose attrs
    · rw [hfault] at h
      contradiction
    · rw [hnext] at h
      obtain ⟨ws, rfl, -⟩ := exists_append_of_suffix (suffix_of_tagBody h)
      obtain ⟨hlt, hsame⟩ := hcut ws rfl
      rw [hsame]
      exact ih _ hlt h rfl

/-! ## Looking ahead for an end -/

/-- An end that stands before the cut is found there. -/
theorem breakAt?_of_append {p : List UInt8 → Bool} (hp : ∀ zs, p zs = true → p (zs ++ post) = true)
    {before zs : List UInt8} (h : breakAt? p (xs ++ post) = some (before, zs ++ post))
    (hzs : p zs = true) : xs = before ++ zs ∧ breakAt? p xs = some (before, zs) := by
  have hsplit := (eq_append_of_breakAt? h).1
  rw [← List.append_assoc] at hsplit
  obtain rfl := List.append_cancel_right hsplit
  refine ⟨rfl, breakAt?_append (fun u v huv hv ↦ ?_) hzs⟩
  rw [← Bool.not_eq_true]
  intro hends
  have hfalse := eq_false_of_breakAt? h huv hv
  rw [← List.append_assoc, hp _ hends] at hfalse
  contradiction

theorem endsComment_append {zs : List UInt8} (h : endsComment zs = true) :
    endsComment (zs ++ post) = true := by
  have hsize := congrArg List.length (beq_iff_eq.mp h)
  rw [List.length_take] at hsize
  rw [endsComment, List.take_append_of_le_length (by simp at hsize; omega)]
  exact h

theorem endsScript_append {zs : List UInt8} (h : endsScript zs = true) :
    endsScript (zs ++ post) = true := by
  have hsize := congrArg List.length (beq_iff_eq.mp h)
  rw [List.length_map, List.length_take] at hsize
  rw [endsScript, List.take_append_of_le_length (by simp at hsize; omega)]
  exact h

theorem comment_of_append {whole whole' : List UInt8} {e : Event}
    (h : comment whole (xs ++ post) = .ok (e, ys ++ post)) :
    comment whole' xs = .ok (e, ys) := by
  unfold comment at h
  split at h
  · rename_i body rest hbreak
    obtain ⟨rfl, hrest⟩ := Prod.mk.inj (Except.ok.inj h)
    obtain ⟨-, hends⟩ := eq_append_of_breakAt? hbreak
    have hsplit := List.take_append_drop 3 rest
    rw [hrest, ← List.append_assoc, beq_iff_eq.mp hends] at hsplit
    rw [← hsplit] at hbreak
    obtain ⟨-, hcut⟩ := breakAt?_of_append (fun _ ↦ endsComment_append) hbreak rfl
    rw [comment, hcut]
    rfl
  · contradiction

theorem scriptBody_of_append {body : List UInt8} (hpost : post ≠ [])
    (h : scriptBody (xs ++ post) = (body, ys ++ post)) : scriptBody xs = (body, ys) := by
  unfold scriptBody at h
  split at h
  · rename_i body' rest hbreak
    obtain ⟨rfl, hrest⟩ := Prod.mk.inj h
    obtain ⟨-, hends⟩ := eq_append_of_breakAt? hbreak
    -- The closing tag stands before the cut, up to its `>`.
    obtain ⟨x, hclose⟩ : ∃ x, (rest.drop 8).dropWhile (· != 0x3E) = x :: ys ++ post := by
      rcases hdrop : (rest.drop 8).dropWhile (· != 0x3E) with - | ⟨x, r⟩
      · rw [hdrop, List.drop_nil] at hrest
        exact absurd (List.append_eq_nil_iff.mp hrest.symm).2 hpost
      · rw [hdrop] at hrest
        exact ⟨x, congrArg (x :: ·) hrest⟩
    obtain ⟨ds, hds, -⟩ := exists_append_of_suffix (hclose ▸ List.dropWhile_suffix _)
    have hsize : (rest.take 8).length = 8 := by
      have := congrArg List.length (beq_iff_eq.mp hends)
      rwa [List.length_map] at this
    have hmark : endsScript (rest.take 8 ++ ds) = true := by
      rw [endsScript, List.take_append_of_le_length hsize.ge, List.take_take]
      exact hends
    have hsplit : rest = (rest.take 8 ++ ds) ++ post := by
      rw [List.append_assoc, ← hds, List.take_append_drop]
    rw [hsplit] at hbreak
    obtain ⟨-, hcut⟩ := breakAt?_of_append (fun _ ↦ endsScript_append) hbreak hmark
    rw [hds] at hclose
    simp only [scriptBody, hcut, List.drop_left' hsize, (span_of_append hclose).2]
    rfl
  · obtain ⟨-, hnil⟩ := Prod.mk.inj h
    exact absurd (List.append_eq_nil_iff.mp hnil.symm).2 hpost

/-! ## Events before the cut -/

theorem element_of_append {tag : String} {attrs : Attributes} {closed : Bool} {e : Event}
    (hpost : post ≠ []) (h : element tag attrs closed (xs ++ post) = (e, ys ++ post)) :
    element tag attrs closed xs = (e, ys) := by
  unfold element at h ⊢
  split
  · rename_i hleaf
    rw [if_pos hleaf] at h
    obtain ⟨rfl, hrest⟩ := Prod.mk.inj h
    rw [List.append_cancel_right hrest]
  rename_i hleaf
  rw [if_neg hleaf] at h
  split
  · rename_i hscript
    rw [if_pos hscript] at h
    rcases hbody : scriptBody (xs ++ post) with ⟨body, rest⟩
    rw [hbody] at h
    obtain ⟨rfl, rfl⟩ := Prod.mk.inj h
    rw [scriptBody_of_append hpost hbody]
  · rename_i hscript
    rw [if_neg hscript] at h
    obtain ⟨rfl, hrest⟩ := Prod.mk.inj h
    rw [List.append_cancel_right hrest]

theorem openingTag_of_append {e : Event} (hpost : post ≠ [])
    (h : openingTag (xs ++ post) = .ok (e, ys ++ post)) : openingTag xs = .ok (e, ys) := by
  by_cases hnil : (xs ++ post).takeWhile Byte.isTagByte = []
  · rw [openingTag_of_nil hnil] at h
    contradiction
  rcases hbody : tagBody [] ((xs ++ post).dropWhile Byte.isTagByte) with
    fault | ⟨attrs, closed, rest⟩
  · rw [openingTag_of_fault hnil hbody] at h
    contradiction
  rw [openingTag_of_ok hnil hbody] at h
  have helement := element_suffix (pieceText ((xs ++ post).takeWhile Byte.isTagByte)) attrs closed
    rest
  rw [Except.ok.inj h] at helement
  obtain ⟨zs, rfl, -⟩ := exists_append_of_suffix helement
  obtain ⟨vs, hvs, -⟩ := exists_append_of_suffix (suffix_of_tagBody hbody)
  obtain ⟨htake, hdrop⟩ := span_of_append hvs
  rw [hvs] at hbody
  rw [← htake] at hnil h
  rw [openingTag_of_ok hnil (hdrop ▸ tagBody_of_append hbody),
    element_of_append hpost (Except.ok.inj h)]

theorem closingTag_of_append {e : Event} (h : closingTag (xs ++ post) = (e, ys ++ post)) :
    closingTag xs = (e, ys) := by
  obtain ⟨rfl, hrest⟩ := Prod.mk.inj h
  obtain ⟨zs, hzs, -⟩ := exists_append_of_suffix (hrest ▸ dropClose_suffix _)
  obtain ⟨vs, hvs, -⟩ := exists_append_of_suffix (hzs ▸ skip_suffix _)
  obtain ⟨htake, hdrop⟩ := span_of_append hvs
  rw [closingTag, hdrop, htake, skip_of_append (hvs ▸ hzs), dropClose_of_append (hzs ▸ hrest)]

/-- What begins an opening tag begins one if the source is cut. -/
theorem event_eq_openingTag (hcomment : (xs ++ post).take 3 ≠ [0x21, 0x2D, 0x2D])
    (hclosing : (xs ++ post).head? ≠ some 0x2F) : event 0x3C xs = openingTag xs := by
  refine event_of_opening (fun hmark ↦ hcomment ?_) fun hhead ↦ ?_
  · have hsize := congrArg List.length hmark
    rw [List.length_take] at hsize
    rw [List.take_append_of_le_length (by simp at hsize; omega), hmark]
  · obtain ⟨r, rfl⟩ := List.head?_eq_some_iff.mp hhead
    exact hclosing rfl

/-- An event that ends before the cut is the same if the source is cut there. -/
theorem event_of_append {b : UInt8} {e : Event} (hpost : post ≠ [])
    (h : event b (xs ++ post) = .ok (e, ys ++ post)) : event b xs = .ok (e, ys) := by
  by_cases hb : b = 0x3C
  · subst hb
    by_cases hcomment : (xs ++ post).take 3 = [0x21, 0x2D, 0x2D]
    · rw [event_of_comment hcomment] at h
      obtain ⟨ws, hws, -⟩ := exists_append_of_suffix (suffix_of_comment h)
      have hsplit := List.take_append_drop 3 (xs ++ post)
      rw [hws, hcomment, ← List.append_assoc] at hsplit
      obtain rfl := List.append_cancel_right hsplit
      rw [event_of_comment rfl]
      exact comment_of_append (hws ▸ h)
    by_cases hclosing : (xs ++ post).head? = some 0x2F
    · obtain ⟨r, hr⟩ := List.head?_eq_some_iff.mp hclosing
      rw [hr, event_of_closing] at h
      obtain ⟨ws, rfl, -⟩ := exists_append_of_suffix
        (congrArg Prod.snd (Except.ok.inj h) ▸ closingTag_suffix r)
      obtain rfl : xs = 0x2F :: ws := List.append_cancel_right hr
      rw [event_of_closing, closingTag_of_append (Except.ok.inj h)]
    rw [event_of_opening hcomment hclosing] at h
    rw [event_eq_openingTag hcomment hclosing, openingTag_of_append hpost h]
  · rw [event_of_ne hb, textEvent] at h
    obtain ⟨rfl, hrest⟩ := Prod.mk.inj (Except.ok.inj h)
    rw [← List.cons_append] at hrest ⊢
    obtain ⟨htake, hdrop⟩ := span_of_append hrest
    rw [event_of_ne hb, textEvent, htake, hdrop]

/-! ## Faults -/

/-- Whether bytes begin with a piece that has the defect. -/
def Defective : Defect → List UInt8 → Prop
  | .missingTagName, bs => ∃ r, bs = 0x3C :: r ∧ r.take 3 ≠ [0x21, 0x2D, 0x2D] ∧
      r.head? ≠ some 0x2F ∧ ∀ b ∈ r.head?, Byte.isTagByte b = false
  | .unterminatedAttribute, bs => ∃ q r, bs = q :: r ∧ (q = 0x22 ∨ q = 0x27) ∧ q ∉ r
  | .unterminatedComment, bs => ∃ r, bs = 0x3C :: 0x21 :: 0x2D :: 0x2D :: r ∧
      ¬[0x2D, 0x2D, 0x3E] <:+: r

/-- A piece with a defect begins with a byte below 0x80. -/
theorem exists_cons_of_defective {d : Defect} {bs : List UInt8} (h : Defective d bs) :
    ∃ b r, bs = b :: r ∧ b.toNat < 0x80 := by
  cases d with
  | missingTagName =>
    obtain ⟨r, rfl, -⟩ := h
    exact ⟨_, r, rfl, by decide⟩
  | unterminatedAttribute =>
    obtain ⟨q, r, rfl, rfl | rfl, -⟩ := h <;> exact ⟨_, r, rfl, by decide⟩
  | unterminatedComment =>
    obtain ⟨r, rfl, -⟩ := h
    exact ⟨_, _, rfl, by decide⟩

theorem fault_of_attributeValue {bs : List UInt8} {fault : Fault}
    (h : attributeValue bs = .error fault) :
    fault = (.unterminatedAttribute, bs) ∧ Defective .unterminatedAttribute bs := by
  unfold attributeValue at h
  split at h
  · contradiction
  · rename_i q r
    split at h
    · rename_i hquote
      split at h
      · rename_i hdrop
        obtain rfl := Except.error.inj h
        refine ⟨rfl, q, r, rfl, by simpa using hquote, fun hmem ↦ ?_⟩
        have hne := List.dropWhile_eq_nil_iff.mp hdrop q hmem
        simp at hne
      · contradiction
    · contradiction

theorem fault_of_afterName {bs : List UInt8} {fault : Fault} (h : afterName bs = .error fault) :
    ∃ r, skip bs = 0x3D :: r ∧ attributeValue (skip r) = .error fault := by
  by_cases hhead : (skip bs).head? = some 0x3D
  · obtain ⟨r, hskip⟩ := List.head?_eq_some_iff.mp hhead
    rw [afterName_of_equals hskip] at h
    exact ⟨r, hskip, h⟩
  · rw [afterName_of_ne hhead] at h
    contradiction

theorem suffix_of_afterName_fault {bs : List UInt8} {fault : Fault}
    (h : afterName bs = .error fault) : fault.2 <:+ bs := by
  obtain ⟨r, hskip, hvalue⟩ := fault_of_afterName h
  obtain ⟨rfl, -⟩ := fault_of_attributeValue hvalue
  exact (skip_suffix r).trans (suffix_of_skip hskip)

/-- The only defect of the rest of a tag is a value without an end. -/
theorem fault_of_tagBody {attrs : Attributes} {bs : List UInt8} {fault : Fault}
    (h : tagBody attrs bs = .error fault) :
    fault.2 <:+ bs ∧ Defective fault.1 fault.2 := by
  fun_induction tagBody attrs bs with
  | case1 | case2 | case3 => contradiction
  | case4 attrs bs b r hskip _ _ _ fault' hvalue =>
    obtain rfl := Except.error.inj h
    refine ⟨(suffix_of_afterName_fault hvalue).trans
      ((List.dropWhile_suffix _).trans (suffix_of_skip hskip)), ?_⟩
    obtain ⟨r', -, hvalue'⟩ := fault_of_afterName hvalue
    obtain ⟨rfl, hdefect⟩ := fault_of_attributeValue hvalue'
    exact hdefect
  | case5 attrs bs b r hskip _ _ _ name value rest hvalue ih =>
    obtain ⟨hsuffix, hdefect⟩ := ih h
    exact ⟨hsuffix.trans ((suffix_of_afterName hvalue).trans
      ((List.dropWhile_suffix _).trans (suffix_of_skip hskip))), hdefect⟩
  | case6 attrs bs b r hskip _ _ _ ih =>
    obtain ⟨hsuffix, hdefect⟩ := ih h
    exact ⟨hsuffix.trans (suffix_of_skip hskip), hdefect⟩

theorem fault_of_comment {whole bs : List UInt8} {fault : Fault}
    (h : comment whole bs = .error fault) :
    fault = (.unterminatedComment, whole) ∧ ¬[0x2D, 0x2D, 0x3E] <:+: bs := by
  unfold comment at h
  split at h
  · contradiction
  · rename_i hbreak
    refine ⟨(Except.error.inj h).symm, ?_⟩
    rintro ⟨u, v, rfl⟩
    exact breakAt?_ne_none (u := u) (v := [0x2D, 0x2D, 0x3E] ++ v) rfl
      (by rwa [← List.append_assoc])

/-- A fault of an event is the defect of what begins where it points. -/
theorem fault_of_event {b : UInt8} {r : List UInt8} {fault : Fault}
    (h : event b r = .error fault) : fault.2 <:+ b :: r ∧ Defective fault.1 fault.2 := by
  by_cases hb : b = 0x3C
  · subst hb
    by_cases hcomment : r.take 3 = [0x21, 0x2D, 0x2D]
    · rw [event_of_comment hcomment] at h
      obtain ⟨rfl, hend⟩ := fault_of_comment h
      refine ⟨List.suffix_rfl, r.drop 3, ?_, hend⟩
      rw [← List.take_append_drop 3 r, hcomment]
      rfl
    by_cases hclosing : r.head? = some 0x2F
    · obtain ⟨r, rfl⟩ := List.head?_eq_some_iff.mp hclosing
      rw [event_of_closing] at h
      contradiction
    rw [event_of_opening hcomment hclosing] at h
    by_cases hnil : r.takeWhile Byte.isTagByte = []
    · rw [openingTag_of_nil hnil] at h
      obtain rfl := Except.error.inj h
      refine ⟨List.suffix_rfl, r, rfl, hcomment, hclosing, fun b hb ↦ ?_⟩
      obtain ⟨r, rfl⟩ := List.head?_eq_some_iff.mp (Option.mem_def.mp hb)
      rw [← Bool.not_eq_true]
      intro htag
      rw [List.takeWhile_cons_of_pos htag] at hnil
      contradiction
    · rcases hbody : tagBody [] (r.dropWhile Byte.isTagByte) with
        fault' | ⟨attrs, closed, rest⟩
      · rw [openingTag_of_fault hnil hbody] at h
        obtain rfl := Except.error.inj h
        obtain ⟨hsuffix, hdefect⟩ := fault_of_tagBody hbody
        exact ⟨hsuffix.trans ((List.dropWhile_suffix _).trans (List.suffix_cons _ r)), hdefect⟩
      · rw [openingTag_of_ok hnil hbody] at h
        contradiction
  · rw [event_of_ne hb] at h
    contradiction

/-- **An error points at a defect.** -/
theorem events_fault {bs : List UInt8} {es : List Event} {fault : Fault}
    (h : events bs = (es, some fault)) : fault.2 <:+ bs ∧ Defective fault.1 fault.2 := by
  fun_induction events bs generalizing es with
  | case1 => simp at h
  | case2 b r fault' hevent =>
    obtain rfl := Option.some.inj (Prod.mk.inj h).2
    exact fault_of_event hevent
  | case3 b r e rest hevent es' fault' hrest ih =>
    obtain ⟨-, rfl⟩ := Prod.mk.inj h
    obtain ⟨hsuffix, hdefect⟩ := ih hrest
    exact ⟨hsuffix.trans (suffix_of_event hevent), hdefect⟩

/-! ## Cutting where an error points -/

/-- Cut before a value without an end, a tag ends behind an equals sign. -/
theorem tagBody_cut {attrs : Attributes} {d : Defect}
    (h : tagBody attrs (xs ++ post) = .error (d, post)) :
    ∃ attrs', tagBody attrs xs = .ok (attrs', false, []) := by
  induction hn : xs.length using Nat.strongRecOn generalizing attrs xs with
  | ind n ih =>
    subst hn
    rcases hskip : skip (xs ++ post) with - | ⟨b, r⟩
    · rw [tagBody_of_end hskip] at h
      contradiction
    by_cases hslash : b = 0x2F
    · rw [tagBody_of_slash (hslash ▸ hskip)] at h
      contradiction
    by_cases hclose : b = 0x3E
    · rw [tagBody_of_close (hclose ▸ hskip)] at h
      contradiction
    obtain ⟨fault, hname, hvalue, hfault⟩ | ⟨attrs', rest, hnext, hcut⟩ :=
      tagBody_next hskip hslash hclose attrs
    · obtain rfl := Except.error.inj (hfault.symm.trans h)
      obtain ⟨vs, hvs⟩ : post <:+ _ := suffix_of_afterName_fault hvalue
      obtain ⟨us, rfl, -⟩ := exists_append_of_suffix (hvs ▸ List.dropWhile_suffix _)
      have hus := skip_cons_of_append hskip
      obtain ⟨r', hr', hvalue'⟩ := fault_of_afterName hvalue
      have hnil : skip r' = [] ++ post :=
        (congrArg Prod.snd (fault_of_attributeValue hvalue').1).symm
      obtain ⟨ws, rfl, -⟩ := exists_append_of_suffix (hnil ▸ skip_suffix r')
      rw [← hvs] at hr'
      have hequals := skip_cons_of_append hr'
      rw [tagBody_of_skip hus hslash hclose, if_pos hname, (span_of_append hvs.symm).2,
        afterName_of_equals hequals, skip_of_append hnil]
      exact ⟨_, tagBody_of_end rfl _⟩
    · rw [hnext] at h
      obtain ⟨ws, rfl⟩ : post <:+ _ := (fault_of_tagBody h).1
      obtain ⟨hlt, hsame⟩ := hcut ws rfl
      rw [hsame]
      exact ih _ hlt h rfl

/-- Cut within the tag that is in error, the source ends with the tag. -/
theorem event_cut {b : UInt8} {d : Defect} (h : event b (xs ++ post) = .error (d, post)) :
    ∃ e, event b xs = .ok (e, []) := by
  have hself : ∀ b : UInt8, b :: (xs ++ post) ≠ post := fun b hself ↦ by
    have := congrArg List.length hself
    rw [List.length_cons, List.length_append] at this
    omega
  by_cases hb : b = 0x3C
  · subst hb
    by_cases hcomment : (xs ++ post).take 3 = [0x21, 0x2D, 0x2D]
    · rw [event_of_comment hcomment] at h
      exact absurd (congrArg Prod.snd (fault_of_comment h).1).symm (hself 0x3C)
    by_cases hclosing : (xs ++ post).head? = some 0x2F
    · obtain ⟨r, hr⟩ := List.head?_eq_some_iff.mp hclosing
      rw [hr, event_of_closing] at h
      contradiction
    rw [event_of_opening hcomment hclosing] at h
    by_cases hnil : (xs ++ post).takeWhile Byte.isTagByte = []
    · rw [openingTag_of_nil hnil] at h
      exact absurd (congrArg Prod.snd (Except.error.inj h)) (hself 0x3C)
    rcases hbody : tagBody [] ((xs ++ post).dropWhile Byte.isTagByte) with
      fault | ⟨attrs, closed, rest⟩
    · rw [openingTag_of_fault hnil hbody] at h
      obtain rfl := Except.error.inj h
      obtain ⟨vs, hvs⟩ : post <:+ _ := (fault_of_tagBody hbody).1
      obtain ⟨htake, hdrop⟩ := span_of_append hvs.symm
      rw [← hvs] at hbody
      rw [← htake] at hnil
      obtain ⟨attrs', hcut⟩ := tagBody_cut hbody
      refine ⟨(element (pieceText (xs.takeWhile Byte.isTagByte)) attrs' false []).1, ?_⟩
      have hend := List.suffix_nil.mp
        (element_suffix (pieceText (xs.takeWhile Byte.isTagByte)) attrs' false [])
      rw [event_eq_openingTag hcomment hclosing, openingTag_of_ok hnil (hdrop ▸ hcut)]
      exact congrArg Except.ok (Prod.ext rfl hend)
    · rw [openingTag_of_ok hnil hbody] at h
      contradiction
  · rw [event_of_ne hb] at h
    contradiction

/-- **What stands before an error can be read.** Cut off where its error points, a source has no
defect. -/
theorem events_cut {es : List Event} {d : Defect}
    (h : events (xs ++ post) = (es, some (d, post))) : ∃ es', events xs = (es', none) := by
  induction hn : xs.length using Nat.strongRecOn generalizing es xs with
  | ind n ih =>
    subst hn
    rcases xs with - | ⟨b, xs⟩
    · exact ⟨[], by rw [events]⟩
    rw [List.cons_append] at h
    rcases hevent : event b (xs ++ post) with fault | ⟨e, rest⟩
    · rw [events_of_fault hevent] at h
      obtain rfl := Option.some.inj (Prod.mk.inj h).2
      obtain ⟨e, hcut⟩ := event_cut hevent
      exact ⟨_, by rw [events_of_event hcut, events]; rfl⟩
    · rw [events_of_event hevent] at h
      have hrest : events rest = ((events rest).1, some (d, post)) :=
        Prod.ext rfl (by simpa only [after] using congrArg Prod.snd h)
      obtain ⟨hsuffix, hdefect⟩ := events_fault hrest
      dsimp only at hsuffix hdefect
      obtain ⟨ys, rfl⟩ := hsuffix
      obtain ⟨b', r', hpost, -⟩ := exists_cons_of_defective hdefect
      have hcut := event_of_append (by rw [hpost]; exact List.cons_ne_nil b' r') hevent
      obtain ⟨es', hes'⟩ := ih ys.length (length_lt_of_event hcut) hrest rfl
      exact ⟨_, by rw [events_of_event hcut, hes']; rfl⟩

end Scan

/-! ## Errors of a source -/

namespace Defect

/-- Whether a text begins with a piece that has the defect: with a `<` that begins no comment, no
closing tag and no name; with a quote that does not occur again; with a comment that has no end. -/
def Begins : Defect → List Char → Prop
  | .missingTagName, cs => ∃ r, cs = '<' :: r ∧ ¬"!--".toList <+: r ∧ r.head? ≠ some '/' ∧
      ∀ c ∈ r.head?, isTagChar c = false
  | .unterminatedAttribute, cs => ∃ q r, cs = q :: r ∧ (q = '"' ∨ q = '\u0027') ∧ q ∉ r
  | .unterminatedComment, cs => ∃ r, cs = "<!--".toList ++ r ∧ ¬"-->".toList <:+: r

theorem begins_of_defective {d : Defect} {cs : List Char} (h : Scan.Defective d (encode cs)) :
    d.Begins cs := by
  cases d with
  | missingTagName =>
    obtain ⟨r, hr, hcomment, hclosing, hname⟩ := h
    obtain ⟨es, rfl, rfl⟩ := exists_cons_of_encode (c := '<') (by decide) hr
    refine ⟨es, rfl, ?_, ?_, ?_⟩
    · rintro ⟨fs, rfl⟩
      exact hcomment (by rw [encode_append]; rfl)
    · intro hhead
      obtain ⟨fs, rfl⟩ := List.head?_eq_some_iff.mp hhead
      exact hclosing (head?_encode_cons (by decide))
    · intro c hc
      obtain ⟨fs, rfl⟩ := List.head?_eq_some_iff.mp (Option.mem_def.mp hc)
      rw [← Bool.not_eq_true]
      intro htag
      have hlt : c.toNat < 0x80 := by
        rw [Scan.isTagChar_iff] at htag
        omega
      have hbytes : ∀ b ∈ encode [c], Byte.isTagByte b = true :=
        Scan.isTagByte_of_mem_encode (by simpa using htag)
      have hbyte := hbytes _ (mem_encode hlt List.mem_cons_self)
      rw [hname _ (head?_encode_cons hlt)] at hbyte
      contradiction
  | unterminatedAttribute =>
    obtain ⟨q, r, hr, rfl | rfl, hmem⟩ := h
    · obtain ⟨es, rfl, rfl⟩ := exists_cons_of_encode (c := '"') (by decide) hr
      exact ⟨'"', es, rfl, .inl rfl, fun hes ↦ hmem (mem_encode (by decide) hes)⟩
    · obtain ⟨es, rfl, rfl⟩ := exists_cons_of_encode (c := '\u0027') (by decide) hr
      exact ⟨_, es, rfl, .inr rfl, fun hes ↦ hmem (mem_encode (by decide) hes)⟩
  | unterminatedComment =>
    obtain ⟨r, hr, hend⟩ := h
    have hmark : encode cs = encode "<!--".toList ++ r := hr
    obtain ⟨es, rfl⟩ := (hmark ▸ isText_encode cs : IsText (_ ++ r)).of_append (isText_encode _)
    rw [← encode_append] at hmark
    refine ⟨es, encode_injective hmark, ?_⟩
    rintro ⟨u, v, rfl⟩
    exact hend ⟨encode u, encode v, by rw [encode_append, encode_append]; rfl⟩

end Defect

theorem parseMarkup_eq_error {source : String} {e : ParseError}
    (h : (Reading.ofSource source).error = some e) : parseMarkup source = .error e := by
  simp only [parseMarkup, h]

/-- **An error points at the first defect.** It points at a character of the source, what stands
before that can be read, and what begins there has the defect that the error names. -/
theorem parseMarkup_error {source : String} {e : ParseError} (h : parseMarkup source = .error e) :
    ∃ before after : String, source = before ++ after ∧
      (encode before.toList).length = e.offset ∧ (∃ ts, parseMarkup before = .ok ts) ∧
      e.defect.Begins after.toList := by
  rcases hevents : Scan.events (encode source.toList) with ⟨es, - | ⟨d, rest⟩⟩
  · simp [parseMarkup, Reading.ofSource, hevents] at h
  obtain rfl : e = ⟨d, (encode source.toList).length - rest.length⟩ := by
    have herror := parseMarkup_eq_error (by rw [Reading.ofSource, hevents]; rfl)
    exact Except.error.inj (h.symm.trans herror)
  obtain ⟨⟨xs, hxs⟩, hdefect⟩ := Scan.events_fault hevents
  dsimp only at hxs hdefect
  -- A defect begins with a byte below 0x80, so there is a boundary before it.
  obtain ⟨b, r, rfl, hb⟩ := Scan.exists_cons_of_defective hdefect
  have htext : IsText (xs ++ b :: r) := hxs ▸ isText_encode source.toList
  obtain ⟨ds, rfl⟩ := (htext.split hb).1
  obtain ⟨fs, hfs⟩ := htext.of_append (isText_encode ds)
  have hsource : source.toList = ds ++ fs := by
    refine encode_injective ?_
    rw [← hxs, encode_append, hfs]
  refine ⟨String.ofList ds, String.ofList fs, ?_, ?_, ?_, ?_⟩
  · rw [← String.ofList_toList (s := source), hsource, String.ofList_append]
  · rw [String.toList_ofList, ← hxs, List.length_append, Nat.add_sub_cancel]
  · rw [← hxs] at hevents
    obtain ⟨es', hcut⟩ := Scan.events_cut hevents
    refine ⟨(forestOf es').filter fun t ↦ !t.isBlankText, ?_⟩
    simp only [parseMarkup, Reading.ofSource, String.toList_ofList, hcut]
    rfl
  · rw [String.toList_ofList]
    exact Defect.begins_of_defective (hfs ▸ hdefect)

/-- The tag that has no end begins at the sixth byte; the error points at the quote within it. -/
theorem parseMarkup_error_quote :
    parseMarkup "<p>ä<a b='x>" = .error ⟨.unterminatedAttribute, 10⟩ ∧
      ∃ before after : String, "<p>ä<a b='x>" = before ++ after ∧
        (encode before.toList).length = 10 ∧ (∃ ts, parseMarkup before = .ok ts) ∧
        Defect.unterminatedAttribute.Begins after.toList :=
  have herror : parseMarkup "<p>ä<a b='x>" = .error ⟨.unterminatedAttribute, 10⟩ :=
    parseMarkup_eq_error (by decide +kernel)
  ⟨herror, parseMarkup_error herror⟩

end LiveMarkup
