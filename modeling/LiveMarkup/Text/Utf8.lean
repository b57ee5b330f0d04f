/-!
# UTF-8

Markup is scanned as bytes, so texts go to UTF-8 and pieces of the source come back from it.
`decode` never fails: where the bytes are not UTF-8 it writes U+FFFD, once for each maximal part
that could begin a character but does not complete one, and once for a byte that can begin none.

* `decodeChar?_encodeChar_append`: a written character is read back, whatever follows.
* `decode_encode`: decoding undoes encoding.
-/

namespace LiveMarkup.Utf8

/-- The bytes of a text. -/
def encode (cs : List Char) : List UInt8 := cs.flatMap String.utf8EncodeChar

@[simp] theorem encode_nil : encode [] = [] := rfl

@[simp] theorem encode_cons (c : Char) (cs : List Char) :
    encode (c :: cs) = String.utf8EncodeChar c ++ encode cs := rfl

@[simp] theorem encode_append (cs ds : List Char) : encode (cs ++ ds) = encode cs ++ encode ds := by
  simp [encode]

/-- A byte that continues a character. -/
def isContinuation (b : UInt8) : Bool := 0x80 ≤ b.toNat && b.toNat ≤ 0xBF

/-- Whether `b` may follow the first byte `a`: beyond being a continuation byte, it must not make
an overlong form, a surrogate or a number above U+10FFFF. -/
def maySecond (a b : UInt8) : Bool :=
  if a.toNat = 0xE0 then 0xA0 ≤ b.toNat && b.toNat ≤ 0xBF
  else if a.toNat = 0xED then 0x80 ≤ b.toNat && b.toNat ≤ 0x9F
  else if a.toNat = 0xF0 then 0x90 ≤ b.toNat && b.toNat ≤ 0xBF
  else if a.toNat = 0xF4 then 0x80 ≤ b.toNat && b.toNat ≤ 0x8F
  else isContinuation b

/-- How many bytes the character takes that begins with this byte; 0 when none does. -/
def width (a : UInt8) : Nat :=
  let n := a.toNat
  if n < 0x80 then 1
  else if 0xC2 ≤ n && n ≤ 0xDF then 2
  else if 0xE0 ≤ n && n ≤ 0xEF then 3
  else if 0xF0 ≤ n && n ≤ 0xF4 then 4
  else 0

/-- The character at the front of the bytes and what follows it, if the bytes begin with one. -/
def decodeChar? : List UInt8 → Option (Char × List UInt8)
  | [] => none
  | a :: r =>
    match width a, r with
    | 1, r => some (Char.ofNat a.toNat, r)
    | 2, b :: r =>
      if isContinuation b then
        some (Char.ofNat (a.toNat % 32 * 64 + b.toNat % 64), r)
      else none
    | 3, b :: c :: r =>
      if maySecond a b && isContinuation c then
        some (Char.ofNat (a.toNat % 16 * 4096 + b.toNat % 64 * 64 + c.toNat % 64), r)
      else none
    | 4, b :: c :: d :: r =>
      if maySecond a b && isContinuation c && isContinuation d then
        some (Char.ofNat (a.toNat % 8 * 262144 + b.toNat % 64 * 4096 + c.toNat % 64 * 64 +
          d.toNat % 64), r)
      else none
    | _, _ => none

/-- What remains after the longest front that could begin a character but does not complete one;
at least one byte is left out. -/
def dropInvalid : List UInt8 → List UInt8
  | [] => []
  | a :: r =>
    match width a, r with
    | 3, b :: r => if maySecond a b then r else b :: r
    | 4, b :: c :: r =>
      if maySecond a b then if isContinuation c then r else c :: r else b :: c :: r
    | 4, [b] => if maySecond a b then [] else [b]
    | _, r => r

theorem dropInvalid_suffix_tail (bs : List UInt8) : dropInvalid bs <:+ bs.tail := by
  unfold dropInvalid
  (repeat' split) <;> first
    | exact List.suffix_rfl
    | exact List.nil_suffix
    | exact List.suffix_cons _ _
    | exact (List.suffix_cons _ _).trans (List.suffix_cons _ _)

theorem length_dropInvalid_lt (a : UInt8) (r : List UInt8) :
    (dropInvalid (a :: r)).length < (a :: r).length :=
  Nat.lt_succ_of_le (dropInvalid_suffix_tail (a :: r)).length_le

theorem length_lt_of_decodeChar? {bs r : List UInt8} {c : Char}
    (h : decodeChar? bs = some (c, r)) : r.length < bs.length := by
  unfold decodeChar? at h
  split at h
  · contradiction
  · split at h <;> (try split at h) <;> simp_all <;> omega

/-- The text of the bytes, with U+FFFD for each part that is not UTF-8. -/
def decode (bs : List UInt8) : List Char :=
  match bs with
  | [] => []
  | a :: r =>
    match _h : decodeChar? (a :: r) with
    | some (c, rest) => c :: decode rest
    | none => '\uFFFD' :: decode (dropInvalid (a :: r))
termination_by bs.length
decreasing_by
  · exact length_lt_of_decodeChar? _h
  · exact length_dropInvalid_lt a r

/-- The text of the bytes, if they are UTF-8 throughout. -/
def decode? (bs : List UInt8) : Option (List Char) :=
  match bs with
  | [] => some []
  | a :: r =>
    match _h : decodeChar? (a :: r) with
    | some (c, rest) => (decode? rest).map (c :: ·)
    | none => none
termination_by bs.length
decreasing_by exact length_lt_of_decodeChar? _h

@[simp] theorem decode_nil : decode [] = [] := by rw [decode]

@[simp] theorem decode?_nil : decode? [] = some [] := by rw [decode?]

theorem decode_of_decodeChar? {bs r : List UInt8} {c : Char} (h : decodeChar? bs = some (c, r)) :
    decode bs = c :: decode r := by
  cases bs with
  | nil => simp [decodeChar?] at h
  | cons a bs => rw [decode]; split <;> simp_all

theorem decode?_of_decodeChar? {bs r : List UInt8} {c : Char}
    (h : decodeChar? bs = some (c, r)) : decode? bs = (decode? r).map (c :: ·) := by
  cases bs with
  | nil => simp [decodeChar?] at h
  | cons a bs => rw [decode?]; split <;> simp_all

/-! ## Reading back what was written -/

theorem toNat_valid (c : Char) : c.toNat < 0xD800 ∨ (0xDFFF < c.toNat ∧ c.toNat < 0x110000) :=
  c.valid

theorem width_one {a : UInt8} (h : a.toNat < 0x80) : width a = 1 := if_pos h

theorem width_two {a : UInt8} (h : 0xC2 ≤ a.toNat) (h' : a.toNat ≤ 0xDF) : width a = 2 := by
  simp only [width, Bool.and_eq_true, decide_eq_true_eq]
  rw [if_neg (by omega), if_pos ⟨h, h'⟩]

theorem width_three {a : UInt8} (h : 0xE0 ≤ a.toNat) (h' : a.toNat ≤ 0xEF) : width a = 3 := by
  simp only [width, Bool.and_eq_true, decide_eq_true_eq]
  rw [if_neg (by omega), if_neg (by omega), if_pos ⟨h, h'⟩]

theorem width_four {a : UInt8} (h : 0xF0 ≤ a.toNat) (h' : a.toNat ≤ 0xF4) : width a = 4 := by
  simp only [width, Bool.and_eq_true, decide_eq_true_eq]
  rw [if_neg (by omega), if_neg (by omega), if_neg (by omega), if_pos ⟨h, h'⟩]

theorem toNat_ofNat {n : Nat} (h : n < 256) : (UInt8.ofNat n).toNat = n := by
  simpa using Nat.mod_eq_of_lt h

/-- A written character is read back, whatever follows. -/
theorem decodeChar?_encodeChar_append (c : Char) (rest : List UInt8) :
    decodeChar? (String.utf8EncodeChar c ++ rest) = some (c, rest) := by
  have hv := toNat_valid c
  have hc : Char.ofNat c.toNat = c := Char.ofNat_toNat c
  unfold String.utf8EncodeChar
  change decodeChar? ((if c.toNat ≤ 127 then _ else if c.toNat ≤ 2047 then _ else
    if c.toNat ≤ 65535 then _ else _) ++ rest) = _
  change c.val.toNat < 0xD800 ∨ _ at hv
  have hn : c.val.toNat = c.toNat := rfl
  simp only [hn] at hv ⊢
  generalize c.toNat = n at hv hc ⊢
  split
  · have h1 : (UInt8.ofNat n).toNat = n := toNat_ofNat (by omega)
    have hw := width_one (a := UInt8.ofNat n) (by omega)
    simp only [List.cons_append, List.nil_append, decodeChar?, hw, h1, hc]
  split
  · have h1 := toNat_ofNat (n := n / 64 % 32 + 192) (by omega)
    have h2 := toNat_ofNat (n := n % 64 + 128) (by omega)
    have hw := width_two (a := UInt8.ofNat (n / 64 % 32 + 192)) (by omega) (by omega)
    simp only [List.cons_append, List.nil_append, decodeChar?, hw, isContinuation, h1, h2]
    rw [if_pos (by simp only [Bool.and_eq_true, decide_eq_true_eq]; omega), ← hc]
    congr 3
    omega
  split
  · have h1 := toNat_ofNat (n := n / 4096 % 16 + 224) (by omega)
    have h2 := toNat_ofNat (n := n / 64 % 64 + 128) (by omega)
    have h3 := toNat_ofNat (n := n % 64 + 128) (by omega)
    have hw := width_three (a := UInt8.ofNat (n / 4096 % 16 + 224)) (by omega) (by omega)
    simp only [List.cons_append, List.nil_append, decodeChar?, hw, maySecond, isContinuation, h1,
      h2, h3]
    rw [if_pos, ← hc]
    · congr 3
      omega
    · simp only [Bool.and_eq_true, decide_eq_true_eq]
      (repeat' split) <;> simp only [Bool.and_eq_true, decide_eq_true_eq] <;> omega
  · have h1 := toNat_ofNat (n := n / 262144 % 8 + 240) (by omega)
    have h2 := toNat_ofNat (n := n / 4096 % 64 + 128) (by omega)
    have h3 := toNat_ofNat (n := n / 64 % 64 + 128) (by omega)
    have h4 := toNat_ofNat (n := n % 64 + 128) (by omega)
    have hw := width_four (a := UInt8.ofNat (n / 262144 % 8 + 240)) (by omega) (by omega)
    simp only [List.cons_append, List.nil_append, decodeChar?, hw, maySecond, isContinuation, h1,
      h2, h3, h4]
    rw [if_pos, ← hc]
    · congr 3
      omega
    · simp only [Bool.and_eq_true, decide_eq_true_eq]
      (repeat' split) <;> simp only [Bool.and_eq_true, decide_eq_true_eq] <;> omega

theorem decode_encode_append (cs : List Char) (rest : List UInt8) :
    decode (encode cs ++ rest) = cs ++ decode rest := by
  induction cs with
  | nil => rfl
  | cons c cs ih =>
    rw [encode_cons, List.append_assoc,
      decode_of_decodeChar? (decodeChar?_encodeChar_append c _), ih]
    rfl

/-- Decoding undoes encoding. -/
@[simp] theorem decode_encode (cs : List Char) : decode (encode cs) = cs := by
  simpa using decode_encode_append cs []

@[simp] theorem decode?_encode (cs : List Char) : decode? (encode cs) = some cs := by
  induction cs with
  | nil => exact decode?_nil
  | cons c cs ih =>
    rw [encode_cons, decode?_of_decodeChar? (decodeChar?_encodeChar_append c _), ih]
    rfl

theorem encode_injective {cs ds : List Char} (h : encode cs = encode ds) : cs = ds := by
  rw [← decode_encode cs, h, decode_encode]

end LiveMarkup.Utf8
