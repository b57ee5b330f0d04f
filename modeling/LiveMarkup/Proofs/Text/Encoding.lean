import LiveMarkup.Text.Ascii
import LiveMarkup.Text.Utf8

/-!
# ASCII in an encoded text

A byte below 0x80 in an encoded text is a character of its own: the bytes of every other character
are 0x80 or above. A scanner that looks for ASCII marks among the bytes therefore finds exactly the
marks of the text (`exists_of_encode_eq_append`, `isInfix_of_encode`), and lower case can be taken
before or after encoding (`map_lower_encode`).
-/

namespace LiveMarkup.Utf8

/-- A character below 0x80 is its own only byte, and no other character has a byte below 0x80. -/
theorem encodeChar_cases (c : Char) :
    (c.toNat < 0x80 ∧ String.utf8EncodeChar c = [UInt8.ofNat c.toNat]) ∨
      (0x80 ≤ c.toNat ∧ String.utf8EncodeChar c ≠ [] ∧
        ∀ b ∈ String.utf8EncodeChar c, 0x80 ≤ b.toNat) := by
  have hv := toNat_valid c
  unfold String.utf8EncodeChar
  change (_ ∧ (if c.toNat ≤ 127 then _ else if c.toNat ≤ 2047 then _ else
    if c.toNat ≤ 65535 then _ else _) = _) ∨ (_ ∧ (if c.toNat ≤ 127 then _ else
    if c.toNat ≤ 2047 then _ else if c.toNat ≤ 65535 then _ else _) ≠ _ ∧
    ∀ b ∈ (if c.toNat ≤ 127 then _ else if c.toNat ≤ 2047 then _ else
    if c.toNat ≤ 65535 then _ else _), _)
  have hn : c.val.toNat = c.toNat := rfl
  simp only [hn]
  generalize c.toNat = n at hv ⊢
  by_cases h1 : n ≤ 127
  · exact .inl ⟨by omega, if_pos h1⟩
  refine .inr ⟨by omega, ?_⟩
  rw [if_neg h1]
  split
  · have e1 := toNat_ofNat (n := n / 64 % 32 + 192) (by omega)
    have e2 := toNat_ofNat (n := n % 64 + 128) (by omega)
    simp only [ne_eq, List.cons_ne_nil, not_false_eq_true, List.forall_mem_cons, true_and]
    exact ⟨by omega, by omega, by simp⟩
  split
  · have e1 := toNat_ofNat (n := n / 4096 % 16 + 224) (by omega)
    have e2 := toNat_ofNat (n := n / 64 % 64 + 128) (by omega)
    have e3 := toNat_ofNat (n := n % 64 + 128) (by omega)
    simp only [ne_eq, List.cons_ne_nil, not_false_eq_true, List.forall_mem_cons, true_and]
    exact ⟨by omega, by omega, by omega, by simp⟩
  · have e1 := toNat_ofNat (n := n / 262144 % 8 + 240) (by omega)
    have e2 := toNat_ofNat (n := n / 4096 % 64 + 128) (by omega)
    have e3 := toNat_ofNat (n := n / 64 % 64 + 128) (by omega)
    have e4 := toNat_ofNat (n := n % 64 + 128) (by omega)
    simp only [ne_eq, List.cons_ne_nil, not_false_eq_true, List.forall_mem_cons, true_and]
    exact ⟨by omega, by omega, by omega, by omega, by simp⟩

theorem encodeChar_of_lt {c : Char} (h : c.toNat < 0x80) :
    String.utf8EncodeChar c = [UInt8.ofNat c.toNat] := by
  obtain ⟨-, hc⟩ | ⟨hle, -⟩ := encodeChar_cases c
  · exact hc
  · omega

/-- The bytes of an encoded text that are below 0x80 are characters of the text. -/
theorem exists_mem_of_mem_encode {cs : List Char} {b : UInt8} (h : b ∈ encode cs)
    (hb : b.toNat < 0x80) : ∃ c ∈ cs, c.toNat = b.toNat := by
  obtain ⟨c, hc, hbc⟩ := List.mem_flatMap.mp h
  obtain ⟨hlt, henc⟩ | ⟨-, -, hge⟩ := encodeChar_cases c
  · rw [henc, List.mem_singleton] at hbc
    exact ⟨c, hc, by rw [hbc, toNat_ofNat (by omega)]⟩
  · have := hge b hbc
    omega

/-- Where an encoded text has a byte below 0x80, the text has that character. -/
theorem exists_of_encode_eq_append {cs : List Char} {u v : List UInt8} {c : Char}
    (hc : c.toNat < 0x80) (h : encode cs = u ++ UInt8.ofNat c.toNat :: v) :
    ∃ ds es, cs = ds ++ c :: es ∧ encode ds = u ∧ encode es = v := by
  have hbyte : (UInt8.ofNat c.toNat).toNat = c.toNat := toNat_ofNat (by omega)
  induction cs generalizing u with
  | nil => simp at h
  | cons d cs ih =>
    rw [encode_cons] at h
    obtain ⟨u', rfl, h'⟩ | ⟨w, hw, h'⟩ := List.append_eq_append_iff.mp h
    · obtain ⟨ds, es, rfl, rfl, rfl⟩ := ih h'
      exact ⟨d :: ds, es, rfl, rfl, rfl⟩
    rcases w with - | ⟨x, w⟩
    · obtain ⟨ds, es, rfl, hds, rfl⟩ := ih (u := []) h'.symm
      exact ⟨d :: ds, es, rfl, by rw [encode_cons, hds, hw, List.append_nil, List.append_nil], rfl⟩
    -- The byte lies within the bytes of `d`, so it is all of them.
    obtain ⟨rfl, hv⟩ := List.cons.inj h'
    obtain ⟨hlt, henc⟩ | ⟨-, -, hge⟩ := encodeChar_cases d
    · rw [henc, eq_comm, List.append_eq_singleton_iff] at hw
      obtain ⟨rfl, hw⟩ | ⟨-, hw⟩ := hw
      · obtain ⟨hbytes, rfl⟩ := List.cons.inj hw
        have hnat := congrArg UInt8.toNat hbytes
        rw [hbyte, toNat_ofNat (by omega)] at hnat
        rw [← Char.toNat_inj.mp hnat]
        exact ⟨[], cs, rfl, rfl, hv.symm⟩
      · contradiction
    · have := hge (UInt8.ofNat c.toNat) (by rw [hw]; simp)
      omega

/-- A text whose first byte is below 0x80 begins with that character. -/
theorem exists_cons_of_encode {cs : List Char} {c : Char} {v : List UInt8} (hc : c.toNat < 0x80)
    (h : encode cs = UInt8.ofNat c.toNat :: v) : ∃ es, cs = c :: es ∧ encode es = v := by
  obtain ⟨ds, es, rfl, hds, hes⟩ := exists_of_encode_eq_append (u := []) hc h
  rw [encode_injective (hds.trans encode_nil.symm)]
  exact ⟨es, rfl, hes⟩

theorem mem_encode {c : Char} {cs : List Char} (hc : c.toNat < 0x80) (h : c ∈ cs) :
    UInt8.ofNat c.toNat ∈ encode cs :=
  List.mem_flatMap.mpr ⟨c, h, by rw [encodeChar_of_lt hc]; exact List.mem_singleton_self _⟩

/-- A character below 0x80 that a text does not have is not among its bytes. -/
theorem ne_of_mem_encode {c : Char} {cs : List Char} (hc : c.toNat < 0x80) (h : c ∉ cs) :
    ∀ b ∈ encode cs, b ≠ UInt8.ofNat c.toNat := by
  rintro b hb rfl
  have hbyte : (UInt8.ofNat c.toNat).toNat = c.toNat := toNat_ofNat (by omega)
  obtain ⟨d, hd, hnat⟩ := exists_mem_of_mem_encode hb (by omega)
  rw [hbyte] at hnat
  exact h (Char.toNat_inj.mp hnat ▸ hd)

theorem head?_encode_cons {c : Char} {cs : List Char} (hc : c.toNat < 0x80) :
    (encode (c :: cs)).head? = some (UInt8.ofNat c.toNat) := by
  rw [encode_cons, encodeChar_of_lt hc]
  rfl

/-- An ASCII text stands in a text wherever its bytes stand among the bytes of the text. -/
theorem isInfix_of_encode {cs ws : List Char} (hws : ∀ c ∈ ws, c.toNat < 0x80)
    (h : encode ws <:+: encode cs) : ws <:+: cs := by
  rcases ws with - | ⟨c, ws⟩
  · exact List.nil_infix
  obtain ⟨hc, -⟩ := List.forall_mem_cons.mp hws
  obtain ⟨u, v, h⟩ := h
  rw [encode_cons, encodeChar_of_lt hc, List.append_assoc] at h
  obtain ⟨ds, es, rfl, -, hes⟩ := exists_of_encode_eq_append hc h.symm
  have htail : es = ws ++ decode v := by
    rw [← decode_encode es, hes]
    exact decode_encode_append ws v
  exact ⟨ds, decode v, by rw [htail, List.append_assoc]; rfl⟩

/-! ## Lower case -/

theorem toNat_toLower (c : Char) :
    c.toLower.toNat = if 65 ≤ c.toNat ∧ c.toNat ≤ 90 then c.toNat + 32 else c.toNat := by
  have hle : (c.val ≥ 'A'.val ∧ c.val ≤ 'Z'.val) ↔ (65 ≤ c.toNat ∧ c.toNat ≤ 90) := by
    rw [ge_iff_le, UInt32.le_iff_toNat_le, UInt32.le_iff_toNat_le]
    rfl
  unfold Char.toLower
  by_cases h : 65 ≤ c.toNat ∧ c.toNat ≤ 90
  · rw [dif_pos (hle.mpr h), if_pos h]
    have hlt : c.val.toNat ≤ 90 := h.2
    change (c.val + 32).toNat = c.val.toNat + 32
    rw [UInt32.toNat_add]
    change (c.val.toNat + 32) % 4294967296 = _
    omega
  · rw [dif_neg (fun h' ↦ h (hle.mp h')), if_neg h]

theorem toNat_lower (b : UInt8) :
    (Byte.lower b).toNat = if 65 ≤ b.toNat ∧ b.toNat ≤ 90 then b.toNat + 32 else b.toNat := by
  unfold Byte.lower
  by_cases h : 65 ≤ b.toNat ∧ b.toNat ≤ 90
  · rw [if_pos h, if_pos (by simpa [UInt8.le_iff_toNat_le] using h), UInt8.toNat_add]
    change (b.toNat + 32) % 256 = _
    omega
  · rw [if_neg h, if_neg (by simpa [UInt8.le_iff_toNat_le] using h)]

/-- The bytes in lower case are the bytes of the text in lower case. -/
theorem map_lower_encode (cs : List Char) :
    (encode cs).map Byte.lower = encode (cs.map Char.toLower) := by
  induction cs with
  | nil => rfl
  | cons c cs ih =>
    rw [encode_cons, List.map_append, ih, List.map_cons, encode_cons]
    congr 1
    have hc := toNat_toLower c
    obtain ⟨hlt, henc⟩ | ⟨hle, -, hge⟩ := encodeChar_cases c
    · rw [henc, encodeChar_of_lt (by split at hc <;> omega), List.map_singleton]
      congr 1
      refine UInt8.toNat_inj.mp ?_
      rw [toNat_lower, toNat_ofNat (by omega), hc, toNat_ofNat (by split <;> omega)]
    · rw [if_neg (by omega)] at hc
      rw [Char.toNat_inj.mp hc]
      refine (List.map_congr_left fun b hb ↦ ?_).trans (List.map_id _)
      have := hge b hb
      refine UInt8.toNat_inj.mp ?_
      rw [toNat_lower, if_neg (by omega)]
      rfl

end LiveMarkup.Utf8
