import LiveMarkup.Proofs.Text.Encoding

/-!
# What is decoded

Decoding writes a character only where its bytes stand (`eq_append_of_decodeChar?`): the first byte
says how many bytes there are, and the conditions on the second one leave out the numbers that are
no characters or that have a shorter form. U+FFFD may stand for anything else, so it is the only
character of a decoded text whose bytes need not be there (`mem_decode`).
-/

namespace LiveMarkup.Utf8

/-- The bytes of the character with a given number. -/
theorem encodeChar_ofNat {n : Nat} (h : n.isValidChar) :
    String.utf8EncodeChar (Char.ofNat n) =
      if n ≤ 0x7F then [UInt8.ofNat n]
      else if n ≤ 0x7FF then [UInt8.ofNat (n / 64 % 32 + 192), UInt8.ofNat (n % 64 + 128)]
      else if n ≤ 0xFFFF then
        [UInt8.ofNat (n / 4096 % 16 + 224), UInt8.ofNat (n / 64 % 64 + 128),
          UInt8.ofNat (n % 64 + 128)]
      else [UInt8.ofNat (n / 262144 % 8 + 240), UInt8.ofNat (n / 4096 % 64 + 128),
        UInt8.ofNat (n / 64 % 64 + 128), UInt8.ofNat (n % 64 + 128)] := by
  have hchar : Char.ofNat n = Char.ofNatAux n h := dif_pos h
  rw [hchar]
  rfl

theorem ofNat_eq {a : UInt8} {n : Nat} (h : n = a.toNat) : UInt8.ofNat n = a := by
  rw [h, UInt8.ofNat_toNat]

/-- How many bytes a character takes says in which range its first byte is. -/
theorem width_cases (a : UInt8) : (a.toNat < 0x80 ∧ width a = 1) ∨
    ((0xC2 ≤ a.toNat ∧ a.toNat ≤ 0xDF) ∧ width a = 2) ∨
    ((0xE0 ≤ a.toNat ∧ a.toNat ≤ 0xEF) ∧ width a = 3) ∨
    ((0xF0 ≤ a.toNat ∧ a.toNat ≤ 0xF4) ∧ width a = 4) ∨ width a = 0 := by
  by_cases h1 : a.toNat < 0x80
  · exact .inl ⟨h1, width_one h1⟩
  by_cases h2 : 0xC2 ≤ a.toNat ∧ a.toNat ≤ 0xDF
  · exact .inr (.inl ⟨h2, width_two h2.1 h2.2⟩)
  by_cases h3 : 0xE0 ≤ a.toNat ∧ a.toNat ≤ 0xEF
  · exact .inr (.inr (.inl ⟨h3, width_three h3.1 h3.2⟩))
  by_cases h4 : 0xF0 ≤ a.toNat ∧ a.toNat ≤ 0xF4
  · exact .inr (.inr (.inr (.inl ⟨h4, width_four h4.1 h4.2⟩)))
  refine .inr (.inr (.inr (.inr ?_)))
  simp only [width, Bool.and_eq_true, decide_eq_true_eq]
  rw [if_neg h1, if_neg h2, if_neg h3, if_neg h4]

theorem isContinuation_iff {b : UInt8} :
    isContinuation b = true ↔ 0x80 ≤ b.toNat ∧ b.toNat ≤ 0xBF := by
  simp only [isContinuation, Bool.and_eq_true, decide_eq_true_eq]

/-- A byte that may follow another one continues a character, and the first byte of some ranges
narrows it. -/
theorem maySecond_iff {a b : UInt8} : maySecond a b = true ↔
    (0x80 ≤ b.toNat ∧ b.toNat ≤ 0xBF) ∧ (a.toNat = 0xE0 → 0xA0 ≤ b.toNat) ∧
      (a.toNat = 0xED → b.toNat ≤ 0x9F) ∧ (a.toNat = 0xF0 → 0x90 ≤ b.toNat) ∧
      (a.toNat = 0xF4 → b.toNat ≤ 0x8F) := by
  unfold maySecond
  (repeat' split) <;> simp only [isContinuation, Bool.and_eq_true, decide_eq_true_eq] <;> omega

/-- Bytes that are read as a character are the bytes of that character. -/
theorem eq_append_of_decodeChar? {bs rest : List UInt8} {c : Char}
    (h : decodeChar? bs = some (c, rest)) : bs = String.utf8EncodeChar c ++ rest := by
  unfold decodeChar? at h
  split at h
  · contradiction
  rename_i a r
  have hwidth := width_cases a
  split at h
  · obtain ⟨rfl, rfl⟩ := Prod.mk.inj (Option.some.inj h)
    have ha : a.toNat ≤ 0x7F := by omega
    rw [encodeChar_ofNat (.inl (by omega)), if_pos ha, UInt8.ofNat_toNat]
    rfl
  · split at h
    · rename_i b r _ hb
      obtain ⟨rfl, rfl⟩ := Prod.mk.inj (Option.some.inj h)
      rw [isContinuation_iff] at hb
      rw [encodeChar_ofNat (.inl (by omega)), if_neg (by omega), if_pos (by omega),
        ofNat_eq (a := a) (by omega), ofNat_eq (a := b) (by omega)]
      rfl
    · contradiction
  · split at h
    · rename_i b d r _ hb
      obtain ⟨rfl, rfl⟩ := Prod.mk.inj (Option.some.inj h)
      rw [Bool.and_eq_true, maySecond_iff, isContinuation_iff] at hb
      rw [encodeChar_ofNat (by unfold Nat.isValidChar; omega), if_neg (by omega),
        if_neg (by omega), if_pos (by omega), ofNat_eq (a := a) (by omega),
        ofNat_eq (a := b) (by omega), ofNat_eq (a := d) (by omega)]
      rfl
    · contradiction
  · split at h
    · rename_i b d e r _ hb
      obtain ⟨rfl, rfl⟩ := Prod.mk.inj (Option.some.inj h)
      rw [Bool.and_eq_true, Bool.and_eq_true, maySecond_iff, isContinuation_iff,
        isContinuation_iff] at hb
      rw [encodeChar_ofNat (by unfold Nat.isValidChar; omega), if_neg (by omega),
        if_neg (by omega), if_neg (by omega), ofNat_eq (a := a) (by omega),
        ofNat_eq (a := b) (by omega), ofNat_eq (a := d) (by omega),
        ofNat_eq (a := e) (by omega)]
      rfl
    · contradiction
  · contradiction

theorem dropInvalid_suffix (bs : List UInt8) : dropInvalid bs <:+ bs :=
  (dropInvalid_suffix_tail bs).trans (List.tail_suffix bs)

/-- A character that is read from bytes has its bytes among them, unless it stands for bytes that
are no character. -/
theorem mem_decode {bs : List UInt8} {c : Char} (h : c ∈ decode bs) :
    c = '\uFFFD' ∨ ∀ b ∈ String.utf8EncodeChar c, b ∈ bs := by
  fun_induction decode bs with
  | case1 => contradiction
  | case2 a r d rest hread ih =>
    rw [eq_append_of_decodeChar? hread]
    obtain rfl | hmem := List.mem_cons.mp h
    · exact .inr fun b hb ↦ List.mem_append_left rest hb
    · exact (ih hmem).imp_right fun hbytes b hb ↦ List.mem_append_right _ (hbytes b hb)
  | case3 a r _ ih =>
    obtain rfl | hmem := List.mem_cons.mp h
    · exact .inl rfl
    · exact (ih hmem).imp_right fun hbytes b hb ↦ (dropInvalid_suffix _).mem (hbytes b hb)

/-- Decoding brings along no byte but those of U+FFFD. -/
theorem mem_of_mem_encode_decode {bs : List UInt8} {b : UInt8} (h : b ∈ encode (decode bs)) :
    b ∈ bs ∨ b ∈ encode ['\uFFFD'] := by
  obtain ⟨c, hc, hbc⟩ := List.mem_flatMap.mp h
  obtain rfl | hbytes := mem_decode hc
  · exact .inr (by rw [encode_cons, encode_nil, List.append_nil]; exact hbc)
  · exact .inl (hbytes b hbc)

end LiveMarkup.Utf8
