import LiveMarkup.Markup.Tree
import LiveMarkup.Text.Blank
import LiveMarkup.Text.Utf8

/-!
# Markup as events

Scanning turns the bytes of a source into events: an element opens, a leaf stands complete, or a
closing tag appears. A leaf is a text, a comment, an element that cannot have content (its tag
never has any, or it is closed with `/>`), or a script, whose body is raw text up to its closing
tag.

The scanner has one defect for each of the three ways in which a source cannot be read, and
points at the byte where the defective piece begins. Everything else is read as well as possible:
unknown bytes in a tag are skipped, a missing `>` is forgiven, an attribute without a value has
the empty one.
-/

namespace LiveMarkup

/-- What keeps a source from being read. -/
inductive Defect where
  /-- A `<` begins no comment, no closing tag and no element. -/
  | missingTagName
  /-- A quoted attribute value has no closing quote. -/
  | unterminatedAttribute
  /-- A comment has no `-->`. -/
  | unterminatedComment
deriving DecidableEq, Repr, Inhabited

/-- A part of the source. -/
inductive Event where
  /-- An element whose content follows. -/
  | opening (tag : String) (attrs : Attributes)
  /-- A tree that stands complete. -/
  | leaf (tree : Tree Unit)
  /-- A closing tag. -/
  | closing (tag : String)
deriving Repr

namespace Event

/-- The number of nodes that the event brings into being. -/
def nodeCount : Event → Nat
  | .opening .. => 1
  | .leaf t => t.size
  | .closing _ => 0

end Event

namespace Scan

/-- The bytes behind a failing place, with the defect found there. -/
abbrev Fault := Defect × List UInt8

/-- The text of a piece of the source. -/
def pieceText (bs : List UInt8) : String := String.ofList (Utf8.decode bs)

/-- The bytes without separators in front. -/
def skip (bs : List UInt8) : List UInt8 := bs.dropWhile Byte.isSeparator

theorem length_dropWhile_le (p : UInt8 → Bool) (bs : List UInt8) :
    (bs.dropWhile p).length ≤ bs.length := (List.dropWhile_suffix p).length_le

theorem length_skip_le (bs : List UInt8) : (skip bs).length ≤ bs.length :=
  length_dropWhile_le _ bs

/-- The bytes behind a `>`, if there is one in front. -/
def dropClose : List UInt8 → List UInt8
  | 0x3E :: r => r
  | bs => bs

theorem length_dropClose_le (bs : List UInt8) : (dropClose bs).length ≤ bs.length := by
  unfold dropClose
  split <;> simp

/-- The bytes before the first place where `p` holds of what follows, and the bytes from there. -/
def breakAt? (p : List UInt8 → Bool) (bs : List UInt8) : Option (List UInt8 × List UInt8) :=
  if p bs then some ([], bs)
  else match bs with
    | [] => none
    | b :: r => (breakAt? p r).map fun (before, rest) ↦ (b :: before, rest)

theorem eq_append_of_breakAt? {p : List UInt8 → Bool} {bs before rest : List UInt8}
    (h : breakAt? p bs = some (before, rest)) : bs = before ++ rest ∧ p rest = true := by
  induction bs generalizing before with
  | nil =>
    unfold breakAt? at h
    split at h
    · simp_all
    · contradiction
  | cons b bs ih =>
    unfold breakAt? at h
    split at h
    · simp_all
    · obtain ⟨⟨b', r'⟩, hb, h⟩ := Option.map_eq_some_iff.1 h
      simp only [Prod.mk.injEq] at h
      obtain ⟨rfl, rfl⟩ := h
      obtain ⟨rfl, hp⟩ := ih hb
      exact ⟨rfl, hp⟩

/-! ## Attributes -/

/-- An attribute's value behind the equals sign: between quotes of either kind, or up to a
separator or `>`. -/
def attributeValue : List UInt8 → Except Fault (String × List UInt8)
  | [] => .ok ("", [])
  | q :: r =>
    if q = 0x22 || q = 0x27 then
      match r.dropWhile (· != q) with
      | [] => .error (.unterminatedAttribute, q :: r)
      | _ :: rest => .ok (pieceText (r.takeWhile (· != q)), rest)
    else
      let plain (b : UInt8) : Bool := !Byte.isSeparator b && b != 0x3E
      .ok (pieceText ((q :: r).takeWhile plain), (q :: r).dropWhile plain)

theorem length_le_of_attributeValue {bs rest : List UInt8} {v : String}
    (h : attributeValue bs = .ok (v, rest)) : rest.length ≤ bs.length := by
  unfold attributeValue at h
  split at h
  · simp_all
  · split at h
    · split at h
      · contradiction
      · rename_i q r _ _ b rest' hr
        simp only [Except.ok.injEq, Prod.mk.injEq] at h
        obtain ⟨-, rfl⟩ := h
        have := length_dropWhile_le (· != q) r
        rw [hr] at this
        simp at this ⊢
        omega
    · simp only [Except.ok.injEq, Prod.mk.injEq] at h
      obtain ⟨-, rfl⟩ := h
      exact length_dropWhile_le _ _

/-- An attribute whose name is already read: its value if an equals sign follows, else the empty
text. -/
def afterName (bs : List UInt8) : Except Fault (String × List UInt8) :=
  match skip bs with
  | 0x3D :: r => attributeValue (skip r)
  | rest => .ok ("", rest)

theorem length_le_of_afterName {bs rest : List UInt8} {v : String}
    (h : afterName bs = .ok (v, rest)) : rest.length ≤ bs.length := by
  unfold afterName at h
  split at h
  · rename_i r hr
    have h1 := length_le_of_attributeValue h
    have h2 := length_skip_le r
    have h3 := length_skip_le bs
    rw [hr] at h3
    simp at h3
    omega
  · simp only [Except.ok.injEq, Prod.mk.injEq] at h
    obtain ⟨-, rfl⟩ := h
    exact length_skip_le bs

/-- The rest of an opening tag behind its name: the attributes, whether it ends with a slash, and
what follows the tag. -/
def tagBody (attrs : Attributes) (bs : List UInt8) :
    Except Fault (Attributes × Bool × List UInt8) :=
  match _h : skip bs with
  | [] => .ok (attrs, false, [])
  | b :: r =>
    if b = 0x2F then .ok (attrs, true, dropClose (skip r))
    else if b = 0x3E then .ok (attrs, false, r)
    else if Byte.isNameByte b then
      let name := pieceText (b :: r.takeWhile Byte.isNameByte)
      match _h' : afterName (r.dropWhile Byte.isNameByte) with
      | .error fault => .error fault
      | .ok (value, rest) => tagBody (attrs.set name value) rest
    else tagBody attrs r
termination_by bs.length
decreasing_by
  · have h1 := length_le_of_afterName _h'
    have h2 := length_dropWhile_le Byte.isNameByte r
    have h3 := length_skip_le bs
    rw [_h, List.length_cons] at h3
    omega
  · have h3 := length_skip_le bs
    rw [_h, List.length_cons] at h3
    omega

theorem length_le_of_tagBody {attrs attrs' : Attributes} {closed : Bool} {bs rest : List UInt8}
    (h : tagBody attrs bs = .ok (attrs', closed, rest)) : rest.length ≤ bs.length := by
  fun_induction tagBody attrs bs with
  | case1 => simp_all
  | case2 attrs bs r hr =>
    simp only [Except.ok.injEq, Prod.mk.injEq] at h
    obtain ⟨-, -, rfl⟩ := h
    have h1 := length_dropClose_le (skip r)
    have h2 := length_skip_le r
    have h3 := length_skip_le bs
    rw [hr] at h3
    simp at h3
    omega
  | case3 attrs bs r hr _ =>
    simp only [Except.ok.injEq, Prod.mk.injEq] at h
    obtain ⟨-, -, rfl⟩ := h
    have h3 := length_skip_le bs
    rw [hr] at h3
    simp at h3
    omega
  | case4 => contradiction
  | case5 attrs bs b r hr _ _ _ name value rest' hv ih =>
    have h0 := ih h
    have h1 := length_le_of_afterName hv
    have h2 := length_dropWhile_le Byte.isNameByte r
    have h3 := length_skip_le bs
    rw [hr] at h3
    simp at h3
    omega
  | case6 attrs bs b r hr _ _ _ ih =>
    have h0 := ih h
    have h3 := length_skip_le bs
    rw [hr] at h3
    simp at h3
    omega

/-! ## Events -/

/-- Whether the bytes begin with `-->`. -/
def endsComment (bs : List UInt8) : Bool := bs.take 3 == [0x2D, 0x2D, 0x3E]

/-- Whether the bytes begin with `</script`, in any case. -/
def endsScript (bs : List UInt8) : Bool :=
  (bs.take 8).map Byte.lower == [0x3C, 0x2F, 0x73, 0x63, 0x72, 0x69, 0x70, 0x74]

/-- The body of a script and what follows its closing tag. -/
def scriptBody (bs : List UInt8) : List UInt8 × List UInt8 :=
  match breakAt? endsScript bs with
  | some (body, rest) => (body, ((rest.drop 8).dropWhile (· != 0x3E)).drop 1)
  | none => (bs, [])

/-- A comment behind its `<!--`; `whole` is the comment with that mark. -/
def comment (whole bs : List UInt8) : Except Fault (Event × List UInt8) :=
  match breakAt? endsComment bs with
  | some (body, rest) => .ok (.leaf (Tree.comment () (pieceText body)), rest.drop 3)
  | none => .error (.unterminatedComment, whole)

/-- A closing tag behind its `</`. -/
def closingTag (bs : List UInt8) : Event × List UInt8 :=
  (.closing (pieceText (bs.takeWhile Byte.isTagByte)),
    dropClose (skip (bs.dropWhile Byte.isTagByte)))

/-- The event of an opening tag that has been read, and what follows it. A script takes its body
along. -/
def element (tag : String) (attrs : Attributes) (closed : Bool) (rest : List UInt8) :
    Event × List UInt8 :=
  if closed || isVoidTag tag then (.leaf (.element () tag attrs []), rest)
  else if equalIgnoringCase tag "script" then
    let (body, rest) := scriptBody rest
    let children := if body.isEmpty then [] else [.text () (pieceText body)]
    (.leaf (.element () tag attrs children), rest)
  else (.opening tag attrs, rest)

/-- An opening tag behind its `<`. -/
def openingTag (bs : List UInt8) : Except Fault (Event × List UInt8) :=
  match bs.takeWhile Byte.isTagByte with
  | [] => .error (.missingTagName, 0x3C :: bs)
  | name =>
    match tagBody [] (bs.dropWhile Byte.isTagByte) with
    | .error fault => .error fault
    | .ok (attrs, closed, rest) => .ok (element (pieceText name) attrs closed rest)

/-- A text up to the next `<`. Text that is only white space becomes a single space. -/
def textEvent (bs : List UInt8) : Event × List UInt8 :=
  let cs := Utf8.decode (bs.takeWhile (· != 0x3C))
  (.leaf (.text () (if allBlank cs then " " else String.ofList cs)), bs.dropWhile (· != 0x3C))

/-- The event at the front of the bytes `b :: r`, and what follows it. -/
def event (b : UInt8) (r : List UInt8) : Except Fault (Event × List UInt8) :=
  if b = 0x3C then
    if r.take 3 == [0x21, 0x2D, 0x2D] then comment (b :: r) (r.drop 3)
    else match r with
      | 0x2F :: r => .ok (closingTag r)
      | r => openingTag r
  else .ok (textEvent (b :: r))

theorem length_scriptBody_le (bs : List UInt8) : (scriptBody bs).2.length ≤ bs.length := by
  unfold scriptBody
  split
  · rename_i body rest h
    have h3 := congrArg List.length (eq_append_of_breakAt? h).1
    have h4 := length_dropWhile_le (· != 0x3E) (rest.drop 8)
    simp at h3 h4 ⊢
    omega
  · simp

theorem length_element_le (tag : String) (attrs : Attributes) (closed : Bool) (bs : List UInt8) :
    (element tag attrs closed bs).2.length ≤ bs.length := by
  unfold element
  split
  · exact Nat.le_refl _
  · split
    · exact length_scriptBody_le bs
    · exact Nat.le_refl _

theorem length_le_of_openingTag {bs rest : List UInt8} {e : Event}
    (h : openingTag bs = .ok (e, rest)) : rest.length ≤ bs.length := by
  unfold openingTag at h
  split at h
  · contradiction
  · split at h
    · contradiction
    · rename_i attrs closed rest' hb
      have h1 := length_le_of_tagBody hb
      have h2 := length_dropWhile_le Byte.isTagByte bs
      have h3 := length_element_le (pieceText (bs.takeWhile Byte.isTagByte)) attrs closed rest'
      simp only [Except.ok.injEq] at h
      rw [h] at h3
      exact Nat.le_trans h3 (Nat.le_trans h1 h2)

theorem length_lt_of_event {b : UInt8} {r rest : List UInt8} {e : Event}
    (h : event b r = .ok (e, rest)) : rest.length < (b :: r).length := by
  unfold event at h
  split at h
  · split at h
    · unfold comment at h
      split at h
      · rename_i body rest' hb
        simp only [Except.ok.injEq, Prod.mk.injEq] at h
        obtain ⟨-, rfl⟩ := h
        have h3 := congrArg List.length (eq_append_of_breakAt? hb).1
        simp at h3 ⊢
        omega
      · contradiction
    · split at h
      · simp only [closingTag, Except.ok.injEq, Prod.mk.injEq] at h
        obtain ⟨-, rfl⟩ := h
        rename_i r' _
        have h1 := length_dropClose_le (skip (r'.dropWhile Byte.isTagByte))
        have h2 := length_skip_le (r'.dropWhile Byte.isTagByte)
        have h3 := length_dropWhile_le Byte.isTagByte r'
        simp
        omega
      · have := length_le_of_openingTag h
        simp
        omega
  · rename_i hb
    simp only [textEvent, Except.ok.injEq, Prod.mk.injEq] at h
    obtain ⟨-, rfl⟩ := h
    have := length_dropWhile_le (· != 0x3C) r
    have hb' : (b != 0x3C) = true := by simpa using hb
    simp [hb']
    omega

/-- The events of a source up to its end or to the first defect. -/
def events (bs : List UInt8) : List Event × Option Fault :=
  match bs with
  | [] => ([], none)
  | b :: r =>
    match _h : event b r with
    | .error fault => ([], some fault)
    | .ok (e, rest) =>
      let (es, fault) := events rest
      (e :: es, fault)
termination_by bs.length
decreasing_by exact length_lt_of_event _h

end Scan

end LiveMarkup
