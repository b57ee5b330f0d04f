import LiveMarkup.Proofs.Text.Encoding

/-!
# Character boundaries

Not every run of the bytes of a text is a text: it may begin or end in the middle of a character.
`IsText` says that it does neither. A byte below 0x80 is a character of its own, so there is a
boundary on either side of it (`IsText.split`), and a scan over such bytes ends at a boundary; so
does one that also takes continuation bytes, because none of these begins a character
(`IsText.span`).

`cut?` is the other reading of the same: it cuts a text behind a number of bytes, and fails if no
character ends there or the text has fewer bytes (`cut?_eq_some_iff`). `slice?` is the part of a
text from one byte up to another, if both are boundaries.
-/

namespace LiveMarkup.Utf8

/-- Whether these are the bytes of a text, so that they neither begin nor end within a
character. -/
def IsText (bs : List UInt8) : Prop := ∃ cs, encode cs = bs

theorem isText_encode (cs : List Char) : IsText (encode cs) := ⟨cs, rfl⟩

theorem isText_nil : IsText [] := ⟨[], rfl⟩

theorem IsText.encode_decode {bs : List UInt8} (h : IsText bs) : encode (decode bs) = bs := by
  obtain ⟨cs, rfl⟩ := h
  rw [Utf8.decode_encode]

/-- Bytes that are not a text are still read as something. -/
theorem isEmpty_decode (bs : List UInt8) : (decode bs).isEmpty = bs.isEmpty := by
  rcases bs with - | ⟨b, bs⟩
  · rw [decode_nil]
    rfl
  · rw [decode]
    split <;> rfl

theorem decode_ne_nil {bs : List UInt8} (h : bs ≠ []) : decode bs ≠ [] := by
  rw [← List.isEmpty_eq_false_iff, isEmpty_decode]
  exact List.isEmpty_eq_false_iff.mpr h

theorem IsText.append {u v : List UInt8} (hu : IsText u) (hv : IsText v) : IsText (u ++ v) := by
  obtain ⟨cs, rfl⟩ := hu
  obtain ⟨ds, rfl⟩ := hv
  exact ⟨cs ++ ds, encode_append cs ds⟩

/-- What follows a text in a text is a text. -/
theorem IsText.of_append {u v : List UInt8} (h : IsText (u ++ v)) (hu : IsText u) : IsText v := by
  obtain ⟨cs, hcs⟩ := h
  obtain ⟨ds, rfl⟩ := hu
  refine ⟨decode v, ?_⟩
  have hdecode : cs = ds ++ decode v := by
    rw [← decode_encode cs, hcs, decode_encode_append]
  rw [hdecode, encode_append] at hcs
  exact List.append_cancel_left hcs

/-- A byte below 0x80 is a character of its own. -/
theorem exists_char_of_lt {b : UInt8} (hb : b.toNat < 0x80) :
    ∃ c : Char, c.toNat < 0x80 ∧ UInt8.ofNat c.toNat = b := by
  have hvalid : b.toNat.isValidChar := .inl (by omega)
  have hchar : (Char.ofNatAux b.toNat hvalid).toNat = b.toNat := rfl
  exact ⟨Char.ofNatAux b.toNat hvalid, by rwa [hchar], by rw [hchar, UInt8.ofNat_toNat]⟩

theorem isText_singleton {b : UInt8} (hb : b.toNat < 0x80) : IsText [b] := by
  obtain ⟨c, hc, rfl⟩ := exists_char_of_lt hb
  exact ⟨[c], by rw [encode_cons, encodeChar_of_lt hc]; rfl⟩

theorem isText_of_forall_lt {bs : List UInt8} (h : ∀ b ∈ bs, b.toNat < 0x80) : IsText bs := by
  induction bs with
  | nil => exact isText_nil
  | cons b bs ih =>
    obtain ⟨hb, hbs⟩ := List.forall_mem_cons.mp h
    exact (isText_singleton hb).append (ih hbs)

/-- Bytes below 0x80 are read one by one, each as the character it is. -/
theorem forall_mem_decode {p : UInt8 → Bool} {q : Char → Bool}
    (hp : ∀ b, p b = true → b.toNat < 0x80)
    (hq : ∀ c : Char, c.toNat < 0x80 → p (UInt8.ofNat c.toNat) = true → q c = true)
    {bs : List UInt8} (h : ∀ b ∈ bs, p b = true) : ∀ c ∈ decode bs, q c = true := by
  obtain ⟨cs, rfl⟩ := isText_of_forall_lt fun b hb ↦ hp b (h b hb)
  rw [decode_encode]
  intro c hc
  obtain ⟨hlt, -⟩ | ⟨-, hne, hge⟩ := encodeChar_cases c
  · exact hq c hlt (h _ (mem_encode hlt hc))
  · obtain ⟨b, hb⟩ := List.exists_mem_of_ne_nil _ hne
    have := hp b (h b (List.mem_flatMap.mpr ⟨c, hc, hb⟩))
    have := hge b hb
    omega

/-- There is a boundary on either side of a byte below 0x80. -/
theorem IsText.split {u v : List UInt8} {b : UInt8} (h : IsText (u ++ b :: v))
    (hb : b.toNat < 0x80) : IsText u ∧ IsText v := by
  obtain ⟨cs, hcs⟩ := h
  obtain ⟨c, hc, rfl⟩ := exists_char_of_lt hb
  obtain ⟨ds, es, -, hds, hes⟩ := exists_of_encode_eq_append hc hcs
  exact ⟨⟨ds, hds⟩, ⟨es, hes⟩⟩

/-- No character begins with a continuation byte. -/
theorem IsText.not_isContinuation {b : UInt8} {bs : List UInt8} (h : IsText (b :: bs)) :
    isContinuation b = false := by
  obtain ⟨cs, hcs⟩ := h
  rcases cs with - | ⟨c, cs⟩
  · contradiction
  have hdecode := decodeChar?_encodeChar_append c (encode cs)
  rw [← encode_cons, hcs] at hdecode
  rw [← Bool.not_eq_true]
  intro hb
  simp only [isContinuation, Bool.and_eq_true, decide_eq_true_eq] at hb
  have hwidth : width b = 0 := by
    simp only [width, Bool.and_eq_true, decide_eq_true_eq]
    rw [if_neg (by omega), if_neg (by omega), if_neg (by omega), if_neg (by omega)]
  simp [decodeChar?, hwidth] at hdecode

theorem isContinuation_ofNat (n : Nat) : isContinuation (UInt8.ofNat (n % 64 + 128)) = true := by
  simp only [isContinuation, Bool.and_eq_true, decide_eq_true_eq]
  rw [toNat_ofNat (by omega)]
  omega

/-- Every byte of a character but the first continues it. -/
theorem isContinuation_of_mem_tail {c : Char} {b : UInt8}
    (h : b ∈ (String.utf8EncodeChar c).tail) : isContinuation b = true := by
  unfold String.utf8EncodeChar at h
  change b ∈ (if c.toNat ≤ 127 then _ else if c.toNat ≤ 2047 then _ else
    if c.toNat ≤ 65535 then _ else _ : List UInt8).tail at h
  split at h
  · contradiction
  split at h
  · obtain rfl := List.mem_singleton.mp h
    exact isContinuation_ofNat _
  split at h
  · simp only [List.tail_cons, List.mem_cons, List.not_mem_nil, or_false] at h
    obtain rfl | rfl := h <;> exact isContinuation_ofNat _
  · simp only [List.tail_cons, List.mem_cons, List.not_mem_nil, or_false] at h
    obtain rfl | rfl | rfl := h <;> exact isContinuation_ofNat _

/-- What stands before a text in a text is a text. -/
theorem IsText.of_append_right {u v : List UInt8} (h : IsText (u ++ v)) (hv : IsText v) :
    IsText u := by
  obtain ⟨cs, hcs⟩ := h
  induction cs generalizing u with
  | nil =>
    obtain ⟨rfl, -⟩ := List.append_eq_nil_iff.mp hcs.symm
    exact isText_nil
  | cons c cs ih =>
    rw [encode_cons] at hcs
    obtain ⟨u', rfl, h'⟩ | ⟨w, hw, rfl⟩ := List.append_eq_append_iff.mp hcs
    · obtain ⟨ds, hds⟩ := ih h'
      exact ⟨c :: ds, by rw [encode_cons, hds]⟩
    rcases u with - | ⟨b, u⟩
    · exact isText_nil
    rcases w with - | ⟨x, w⟩
    · exact ⟨[c], by rw [encode_cons, encode_nil, hw, List.append_nil, List.append_nil]⟩
    -- The boundary would be within `c`, but what follows there continues a character.
    · have hx : isContinuation x = true :=
        isContinuation_of_mem_tail (c := c) (by rw [hw]; simp)
      have := hv.not_isContinuation
      rw [hx] at this
      contradiction

/-- A run of bytes that are below 0x80 or continue a character ends at a boundary. -/
theorem IsText.span {p : UInt8 → Bool} {bs : List UInt8} (h : IsText bs)
    (hp : ∀ b, p b = true → b.toNat < 0x80 ∨ isContinuation b = true) :
    IsText (bs.takeWhile p) ∧ IsText (bs.dropWhile p) := by
  induction bs with
  | nil => exact ⟨isText_nil, isText_nil⟩
  | cons b bs ih =>
    by_cases hb : p b = true
    · have hlt : b.toNat < 0x80 :=
        (hp b hb).resolve_right (by rw [h.not_isContinuation]; exact Bool.false_ne_true)
      obtain ⟨htake, hdrop⟩ := ih (h.split (u := []) hlt).2
      rw [List.takeWhile_cons_of_pos hb, List.dropWhile_cons_of_pos hb]
      exact ⟨(isText_singleton hlt).append htake, hdrop⟩
    · rw [List.takeWhile_cons_of_neg hb, List.dropWhile_cons_of_neg hb]
      exact ⟨isText_nil, h⟩

/-- A text is cut at a boundary before the first byte of some value below 0x80. -/
theorem IsText.span_ne {m : UInt8} {bs : List UInt8} (h : IsText bs) (hm : m.toNat < 0x80) :
    IsText (bs.takeWhile (· != m)) ∧ IsText (bs.dropWhile (· != m)) := by
  have hsplit := List.takeWhile_append_dropWhile (p := (· != m)) (l := bs)
  rcases hrest : bs.dropWhile (· != m) with - | ⟨b, rest⟩
  · rw [hrest, List.append_nil] at hsplit
    exact ⟨hsplit.symm ▸ h, isText_nil⟩
  · have hb : (b != m) = false := by
      have := List.head?_dropWhile_not (· != m) bs
      rw [hrest] at this
      simpa using this
    obtain rfl : b = m := by simpa using hb
    rw [hrest] at hsplit
    rw [← hsplit] at h
    exact ⟨(h.split hm).1, h.of_append (h.split hm).1⟩

/-- Whether these are the last bytes of a text. They may begin within a character. -/
def IsTail (bs : List UInt8) : Prop := ∃ u, IsText (u ++ bs)

theorem IsText.isTail {bs : List UInt8} (h : IsText bs) : IsTail bs := ⟨[], h⟩

theorem IsTail.of_suffix {bs rest : List UInt8} (h : IsTail bs) (hrest : rest <:+ bs) :
    IsTail rest := by
  obtain ⟨u, hu⟩ := h
  obtain ⟨v, rfl⟩ := hrest
  exact ⟨u ++ v, by rwa [List.append_assoc]⟩

/-- Behind a byte below 0x80 there is a boundary, wherever one came from. -/
theorem IsTail.of_cons {b : UInt8} {bs : List UInt8} (h : IsTail (b :: bs)) (hb : b.toNat < 0x80) :
    IsText bs := by
  obtain ⟨u, hu⟩ := h
  exact (hu.split hb).2

/-! ## Cutting a text behind a number of bytes -/

/-- The first `n` bytes of a text and what follows them, if they are whole characters. -/
def cut? : Nat → List Char → Option (List Char × List Char)
  | 0, cs => some ([], cs)
  | _ + 1, [] => none
  | n + 1, c :: cs =>
    let width := (String.utf8EncodeChar c).length
    if width ≤ n + 1 then (cut? (n + 1 - width) cs).map fun (ds, es) ↦ (c :: ds, es) else none

theorem length_encodeChar_pos (c : Char) : 0 < (String.utf8EncodeChar c).length := by
  obtain ⟨-, hc⟩ | ⟨-, hne, -⟩ := encodeChar_cases c
  · rw [hc]
    exact Nat.one_pos
  · exact List.length_pos_iff.mpr hne

/-- A text is cut where a character ends, within its bytes, and nowhere else. -/
theorem cut?_eq_some_iff {n : Nat} {cs ds es : List Char} :
    cut? n cs = some (ds, es) ↔ cs = ds ++ es ∧ (encode ds).length = n := by
  constructor
  · intro h
    induction cs generalizing n ds with
    | nil =>
      rcases n with - | n
      · obtain ⟨rfl, rfl⟩ := Prod.mk.inj (Option.some.inj h)
        exact ⟨rfl, rfl⟩
      · contradiction
    | cons c cs ih =>
      rcases n with - | n
      · obtain ⟨rfl, rfl⟩ := Prod.mk.inj (Option.some.inj h)
        exact ⟨rfl, rfl⟩
      · rw [cut?] at h
        dsimp only at h
        split at h
        · obtain ⟨⟨ds', es'⟩, hcut, hpair⟩ := Option.map_eq_some_iff.mp h
          obtain ⟨rfl, rfl⟩ := Prod.mk.inj hpair
          obtain ⟨rfl, hlength⟩ := ih hcut
          refine ⟨rfl, ?_⟩
          rw [encode_cons, List.length_append, hlength]
          omega
        · contradiction
  · rintro ⟨rfl, rfl⟩
    induction ds with
    | nil => cases es <;> rfl
    | cons c ds ih =>
      have hpos := length_encodeChar_pos c
      obtain ⟨n, hn⟩ : ∃ n, (encode (c :: ds)).length = n + 1 :=
        Nat.exists_eq_succ_of_ne_zero (by rw [encode_cons, List.length_append]; omega)
      have hrest : n + 1 - (String.utf8EncodeChar c).length = (encode ds).length := by
        rw [encode_cons, List.length_append] at hn
        omega
      have hle : (String.utf8EncodeChar c).length ≤ n + 1 := by
        rw [encode_cons, List.length_append] at hn
        omega
      rw [hn, List.cons_append, cut?]
      dsimp only
      rw [if_pos hle, hrest, ih]
      rfl

/-- The part of a text from byte `i` up to byte `j`, if these lie in this order within the text and
are boundaries. -/
def slice? (i j : Nat) (cs : List Char) : Option (List Char) :=
  if i ≤ j then (cut? i cs).bind fun (_, rest) ↦ (cut? (j - i) rest).map Prod.fst else none

/-- A slice is a part of the text that begins and ends at the two bytes. -/
theorem slice?_eq_some_iff {i j : Nat} {cs ds : List Char} :
    slice? i j cs = some ds ↔ ∃ us vs, cs = us ++ (ds ++ vs) ∧ (encode us).length = i ∧
      i + (encode ds).length = j := by
  rw [slice?]
  constructor
  · intro h
    split at h
    · rename_i hle
      obtain ⟨⟨us, rest⟩, hus, h⟩ := Option.bind_eq_some_iff.mp h
      obtain ⟨⟨ds', vs⟩, hds, rfl⟩ := Option.map_eq_some_iff.mp h
      obtain ⟨rfl, rfl⟩ := cut?_eq_some_iff.mp hus
      obtain ⟨rfl, hlength⟩ := cut?_eq_some_iff.mp hds
      refine ⟨us, vs, rfl, rfl, ?_⟩
      dsimp only
      omega
    · contradiction
  · rintro ⟨us, vs, rfl, rfl, rfl⟩
    have hus : cut? (encode us).length (us ++ (ds ++ vs)) = some (us, ds ++ vs) :=
      cut?_eq_some_iff.mpr ⟨rfl, rfl⟩
    have hds : cut? (encode ds).length (ds ++ vs) = some (ds, vs) :=
      cut?_eq_some_iff.mpr ⟨rfl, rfl⟩
    rw [if_pos (Nat.le_add_right ..), hus, Option.bind_some, Nat.add_sub_cancel_left]
    dsimp only
    rw [hds, Option.map_some]

/-- Bytes between two boundaries are a slice. -/
theorem slice?_of_isText {u s v : List UInt8} {cs : List Char} (h : encode cs = u ++ (s ++ v))
    (hs : IsText s) (hv : IsText v) :
    slice? u.length (u.length + s.length) cs = some (decode s) := by
  have hu : IsText u := (h ▸ isText_encode cs).of_append_right (hs.append hv)
  obtain ⟨us, rfl⟩ := hu
  obtain ⟨ds, rfl⟩ := hs
  obtain ⟨vs, rfl⟩ := hv
  refine slice?_eq_some_iff.mpr ⟨us, vs, ?_, rfl, by rw [decode_encode]⟩
  rw [← encode_append, ← encode_append] at h
  rw [encode_injective h, decode_encode]

end LiveMarkup.Utf8
