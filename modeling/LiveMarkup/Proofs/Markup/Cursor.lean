import LiveMarkup.Markup.Source
import LiveMarkup.Proofs.Markup.Boundaries
import Mathlib.Data.List.TakeWhile

/-!
# Reading with a cursor

The scanner hands on the bytes that it has not read and takes any of them for a piece. Here the
source stays in one place and a cursor, the number of the bytes before it, moves along it. Within a
tag the cursor moves byte by byte and can stand in the middle of a character. A comment, the body
of a script and a text are slices of the source as a text (`text`), and such a slice does not exist
unless it lies within the source and begins and ends at character boundaries. The loops count their
rounds and give up when none is left.

`parse_eq`: it never comes to either. As many rounds as the source has bytes are enough for every
loop, no slice is refused, and what is read is what `parseMarkup` reads. The two readings go along
with one another because the cursor stands where the bytes left over begin (`position`), and the
slices are the pieces that `Boundaries` shows to be texts.
-/

namespace LiveMarkup.Cursor

open Utf8 Scan

/-- Why the cursor stops. -/
inductive Halt where
  /-- A slice lies outside the source, or begins or ends within a character. -/
  | slice
  /-- The rounds of a loop are used up. -/
  | rounds
  /-- The source has a defect. -/
  | defect (e : ParseError)

/-! ## The reader -/

/-- The part of a text from byte `i` up to byte `j`. -/
def text (cs : List Char) (i j : Nat) : Except Halt (List Char) :=
  match slice? i j cs with
  | some ds => .ok ds
  | none => .error .slice

/-- The bytes from `i` up to `j`. -/
def piece (bs : List UInt8) (i j : Nat) : Except Halt (List UInt8) :=
  if i ≤ j ∧ j ≤ bs.length then .ok ((bs.drop i).take (j - i)) else .error .slice

/-- Moves the cursor along while there are bytes in `p`. -/
def advance (p : UInt8 → Bool) (bs : List UInt8) (i : Nat) : Nat :=
  match _h : bs[i]? with
  | some b => if p b then advance p bs (i + 1) else i
  | none => i
termination_by bs.length - i
decreasing_by
  have := (List.getElem?_eq_some_iff.mp _h).1
  omega

/-- Moves the cursor behind a `>`, if there is one. -/
def passClose (bs : List UInt8) (i : Nat) : Nat := if bs[i]? = some 0x3E then i + 1 else i

/-- Where the bytes of `mark` stand first. -/
def find? (mark : List UInt8) : List UInt8 → Option Nat
  | [] => if mark.isEmpty then some 0 else none
  | b :: r => if mark.isPrefixOf (b :: r) then some 0 else (find? mark r).map (· + 1)

/-- A tag name, which may be empty, and the cursor behind it. -/
def readName (bs : List UInt8) (i : Nat) : Except Halt (String × Nat) := do
  let j := advance Byte.isTagByte bs i
  let name ← piece bs i j
  return (String.ofList ((decode? name).getD []), j)

/-- An attribute's value behind the equals sign, and the cursor behind it. -/
def readValue (bs : List UInt8) (i : Nat) : Except Halt (String × Nat) :=
  match bs[i]? with
  | none => .ok ("", i)
  | some q =>
    if q = 0x22 || q = 0x27 then do
      let j := advance (· != q) bs (i + 1)
      if j < bs.length then
        let value ← piece bs (i + 1) j
        return (pieceText value, j + 1)
      else .error (.defect ⟨.unterminatedAttribute, i⟩)
    else do
      let j := advance (fun b ↦ !Byte.isSeparator b && b != 0x3E) bs i
      let value ← piece bs i j
      return (pieceText value, j)

/-- An attribute and the cursor behind it, if there is a name. -/
def readAttribute (bs : List UInt8) (i : Nat) : Except Halt (Option (String × String × Nat)) := do
  let j := advance Byte.isNameByte bs i
  if j = i then return none
  let name ← piece bs i j
  let k := advance Byte.isSeparator bs j
  if bs[k]? = some 0x3D then
    let (value, l) ← readValue bs (advance Byte.isSeparator bs (k + 1))
    return some (pieceText name, value, l)
  else return some (pieceText name, "", k)

/-- The rest of an opening tag behind its name. -/
def readTag (bs : List UInt8) : Nat → Attributes → Nat → Except Halt (Attributes × Bool × Nat)
  | 0, _, _ => .error .rounds
  | n + 1, attrs, i =>
    let i := advance Byte.isSeparator bs i
    match bs[i]? with
    | none => .ok (attrs, false, i)
    | some b =>
      if b = 0x2F then .ok (attrs, true, passClose bs (advance Byte.isSeparator bs (i + 1)))
      else if b = 0x3E then .ok (attrs, false, i + 1)
      else do
        match ← readAttribute bs i with
        | some (name, value, j) => readTag bs n (attrs.set name value) j
        | none => readTag bs n attrs (i + 1)

/-- The body of a script and the cursor behind its closing tag. -/
def readScript (cs : List Char) (bs : List UInt8) (i : Nat) : Except Halt (List Char × Nat) := do
  let rest ← text cs i bs.length
  let stop := (find? [0x3C, 0x2F, 0x73, 0x63, 0x72, 0x69, 0x70, 0x74]
    (encode (rest.map Char.toLower))).getD (encode rest).length
  let body ← text rest 0 stop
  if i + stop < bs.length then
    return (body, min (advance (· != 0x3E) bs (i + stop + 8) + 1) bs.length)
  else return (body, i + stop)

/-- One round of reading at a byte `b`: what becomes of the forest, and where the cursor goes. -/
def turn (cs : List Char) (bs : List UInt8) (rounds : Nat) (b : UInt8) (i : Nat) (g : Growth) :
    Except Halt (Growth × Nat) :=
  if b = 0x3C then do
    let rest ← text cs i bs.length
    if [0x3C, 0x21, 0x2D, 0x2D].isPrefixOf (encode rest) then
      let tail ← text cs (i + 4) bs.length
      match find? [0x2D, 0x2D, 0x3E] (encode tail) with
      | none => .error (.defect ⟨.unterminatedComment, i⟩)
      | some n =>
        let body ← text cs (i + 4) (i + 4 + n)
        return (g.step (.leaf (.comment () (String.ofList body))), i + 4 + n + 3)
    else if bs[i + 1]? = some 0x2F then
      let (tag, j) ← readName bs (i + 2)
      return (g.step (.closing tag), passClose bs (advance Byte.isSeparator bs j))
    else
      let (tag, j) ← readName bs (i + 1)
      if tag = "" then .error (.defect ⟨.missingTagName, i⟩)
      else
        let (attrs, closed, k) ← readTag bs rounds [] j
        if closed || isVoidTag tag then
          return (g.step (.leaf (.element () tag attrs [])), k)
        else if equalIgnoringCase tag "script" then
          let (body, l) ← readScript cs bs k
          let children := if body.isEmpty then [] else [.text () (String.ofList body)]
          return (g.step (.leaf (.element () tag attrs children)), l)
        else return (g.step (.opening tag attrs), k)
  else do
    let j := advance (· != 0x3C) bs i
    let data ← text cs i j
    if data.isEmpty then return (g, j)
    else
      return (g.step (.leaf (.text () (if allBlank data then " " else String.ofList data))), j)

/-- Rounds of reading up to the end of the source. -/
def run (cs : List Char) (bs : List UInt8) (rounds : Nat) :
    Nat → Nat → Growth → Except Halt Growth
  | n, i, g =>
    match bs[i]? with
    | none => .ok g
    | some b =>
      match n with
      | 0 => .error .rounds
      | n + 1 => do
        let (g, i) ← turn cs bs rounds b i g
        run cs bs rounds n i g

/-- Reads a source with a cursor, each loop in so many rounds at most. -/
def parse (rounds : Nat) (source : String) : Except Halt (List (Tree Unit)) := do
  let g ← run source.toList (encode source.toList) rounds rounds 0 .empty
  return g.finish.filter fun t ↦ !t.isBlankText

/-! ## Where the cursor stands -/

/-- Where the bytes begin that are left over. -/
def position (bs rest : List UInt8) : Nat := bs.length - rest.length

/-- A fault of the scanner as the reason for stopping. -/
def halt (bs : List UInt8) (fault : Fault) : Halt := .defect ⟨fault.1, position bs fault.2⟩

section Positions

variable {bs r rest u : List UInt8} {b : UInt8}

theorem position_self : position bs bs = 0 := Nat.sub_self _

theorem position_nil : position bs [] = bs.length := rfl

theorem position_append (h : u ++ rest <:+ bs) :
    position bs (u ++ rest) + u.length = position bs rest := by
  have := h.length_le
  rw [List.length_append] at this
  simp only [position, List.length_append]
  omega

theorem position_cons (h : b :: r <:+ bs) : position bs (b :: r) + 1 = position bs r :=
  position_append (u := [b]) h

theorem position_drop (h : rest <:+ bs) {n : Nat} (hn : n ≤ rest.length) :
    position bs rest + n = position bs (rest.drop n) := by
  have := h.length_le
  rw [position, position, List.length_drop]
  omega

theorem position_le : position bs rest ≤ bs.length := Nat.sub_le ..

theorem drop_position (h : rest <:+ bs) : bs.drop (position bs rest) = rest := by
  obtain ⟨u, rfl⟩ := h
  rw [position, List.length_append, Nat.add_sub_cancel, List.drop_left]

theorem getElem?_position (h : rest <:+ bs) : bs[position bs rest]? = rest.head? := by
  rw [← drop_position h, List.head?_drop, drop_position h]

theorem position_lt_iff (h : rest <:+ bs) : position bs rest < bs.length ↔ rest ≠ [] := by
  have := h.length_le
  rw [position, ← List.length_pos_iff]
  omega

/-- The bytes between two places are a piece. -/
theorem piece_position (h : u ++ rest <:+ bs) :
    piece bs (position bs (u ++ rest)) (position bs rest) = .ok u := by
  have hadd := position_append h
  rw [piece, if_pos ⟨by omega, position_le⟩, drop_position h, ← hadd, Nat.add_sub_cancel_left,
    List.take_left]

/-- A run of bytes is a piece. -/
theorem piece_takeWhile (p : UInt8 → Bool) (h : rest <:+ bs) :
    piece bs (position bs rest) (position bs (rest.dropWhile p)) = .ok (rest.takeWhile p) := by
  have hsplit := List.takeWhile_append_dropWhile (p := p) (l := rest)
  have hpiece := piece_position (hsplit.symm ▸ h)
  rwa [hsplit] at hpiece

/-- The bytes between two boundaries are a slice. -/
theorem text_position {cs : List Char} (h : u ++ rest <:+ encode cs) (hu : IsText u)
    (hrest : IsText rest) :
    text cs (position (encode cs) (u ++ rest)) (position (encode cs) rest) = .ok (decode u) := by
  have hadd := position_append h
  obtain ⟨v, hv⟩ := h
  have hlength : position (encode cs) (u ++ rest) = v.length := by
    rw [position, ← hv, List.length_append, Nat.add_sub_cancel]
  rw [text, ← hadd, hlength, slice?_of_isText hv.symm hu hrest]

theorem advance_position (p : UInt8 → Bool) (h : rest <:+ bs) :
    advance p bs (position bs rest) = position bs (rest.dropWhile p) := by
  induction rest with
  | nil =>
    rw [advance]
    split
    · rename_i hget
      rw [getElem?_position h] at hget
      contradiction
    · rfl
  | cons b r ih =>
    rw [advance]
    split
    · rename_i b' hget
      rw [getElem?_position h] at hget
      obtain rfl := Option.some.inj hget
      rw [List.dropWhile_cons]
      split
      · rw [position_cons h, ih ((List.suffix_cons _ r).trans h)]
      · rfl
    · rename_i hget
      rw [getElem?_position h] at hget
      contradiction

theorem skip_position (h : rest <:+ bs) :
    advance Byte.isSeparator bs (position bs rest) = position bs (skip rest) :=
  advance_position _ h

theorem passClose_position (h : rest <:+ bs) :
    passClose bs (position bs rest) = position bs (dropClose rest) := by
  rw [passClose, getElem?_position h]
  unfold dropClose
  split
  · rename_i hhead
    split
    · exact position_cons h
    · rename_i hne
      rcases rest with - | ⟨b, r⟩
      · contradiction
      · obtain rfl := Option.some.inj hhead
        exact absurd rfl (hne r)
  · rename_i hhead
    split
    · exact absurd rfl hhead
    · rfl

end Positions

/-! ## Marks -/

/-- A mark is found where the scanner breaks. -/
theorem find?_map (mark : List UInt8) (f : UInt8 → UInt8) (bs : List UInt8) :
    find? mark (bs.map f) =
      (breakAt? (fun r ↦ mark.isPrefixOf (r.map f)) bs).map fun broken ↦ broken.1.length := by
  induction bs with
  | nil =>
    rw [List.map_nil, find?, breakAt?]
    cases mark <;> rfl
  | cons b r ih =>
    rw [List.map_cons, find?, breakAt?, List.map_cons]
    split
    · rfl
    · rw [ih, Option.map_map, Option.map_map]
      rfl

theorem isPrefixOf_iff_take {mark bs : List UInt8} :
    mark.isPrefixOf bs = (bs.take mark.length == mark) := by
  rw [Bool.eq_iff_iff, List.isPrefixOf_iff_prefix, beq_iff_eq, List.prefix_iff_eq_take, eq_comm]

theorem find?_comment (bs : List UInt8) :
    find? [0x2D, 0x2D, 0x3E] bs = (breakAt? endsComment bs).map fun broken ↦ broken.1.length := by
  have hends : (fun r : List UInt8 ↦ [0x2D, 0x2D, 0x3E].isPrefixOf (r.map id)) = endsComment := by
    funext r
    rw [List.map_id, isPrefixOf_iff_take]
    rfl
  rw [← hends, ← find?_map, List.map_id]

theorem find?_script (bs : List UInt8) :
    find? [0x3C, 0x2F, 0x73, 0x63, 0x72, 0x69, 0x70, 0x74] (bs.map Byte.lower) =
      (breakAt? endsScript bs).map fun broken ↦ broken.1.length := by
  have hends : (fun r : List UInt8 ↦ [0x3C, 0x2F, 0x73, 0x63, 0x72, 0x69, 0x70, 0x74].isPrefixOf
      (r.map Byte.lower)) = endsScript := by
    funext r
    rw [isPrefixOf_iff_take, ← List.map_take]
    rfl
  rw [← hends, ← find?_map]

/-! ## Tags -/

section Tags

variable {bs rest : List UInt8}

/-- A name is read up to the first byte that belongs to none. -/
theorem readName_position (h : rest <:+ bs) :
    readName bs (position bs rest) = .ok (pieceText (rest.takeWhile Byte.isTagByte),
      position bs (rest.dropWhile Byte.isTagByte)) := by
  have htext : IsText (rest.takeWhile Byte.isTagByte) :=
    isText_of_forall_lt fun b hb ↦ lt_of_isTagByte (List.mem_takeWhile_imp hb)
  obtain ⟨ds, hds⟩ := htext
  simp only [readName, advance_position _ h, piece_takeWhile _ h]
  change Except.ok _ = _
  rw [← hds, decode?_encode, Option.getD_some, pieceText, decode_encode]

/-- A value is read as the scanner reads it. -/
theorem readValue_position (h : rest <:+ bs) :
    readValue bs (position bs rest) = ((attributeValue rest).mapError (halt bs)).map
      fun (value, rest') ↦ (value, position bs rest') := by
  rw [readValue, getElem?_position h]
  rcases rest with - | ⟨q, r⟩
  · rfl
  have hr : r <:+ bs := (List.suffix_cons q r).trans h
  simp only [List.head?_cons, attributeValue]
  by_cases hq : (decide (q = 0x22) || decide (q = 0x27)) = true
  · rw [if_pos hq, if_pos hq, position_cons h, advance_position _ hr]
    have hsuffix : r.dropWhile (· != q) <:+ bs := (List.dropWhile_suffix _).trans hr
    have hpiece := piece_takeWhile (· != q) hr
    have hlt := position_lt_iff hsuffix
    rcases hdrop : r.dropWhile (· != q) with - | ⟨x, rest'⟩
    · rw [hdrop] at hlt
      rw [if_neg (fun hlt' ↦ hlt.mp hlt' rfl)]
      rfl
    · rw [hdrop] at hlt hsuffix hpiece
      rw [if_pos (hlt.mpr (List.cons_ne_nil x rest')), hpiece, position_cons hsuffix]
      rfl
  · rw [if_neg hq, if_neg hq, advance_position _ h, piece_takeWhile _ h]
    rfl

/-- Where no name stands there is no attribute. -/
theorem readAttribute_of_not {b : UInt8} {r : List UInt8} (h : b :: r <:+ bs)
    (hb : Byte.isNameByte b = false) : readAttribute bs (position bs (b :: r)) = .ok none := by
  rw [readAttribute, advance_position _ h, List.dropWhile_cons_of_neg (by simp [hb]), if_pos rfl]
  rfl

/-- An attribute is read as the scanner reads it. -/
theorem readAttribute_position {b : UInt8} {r : List UInt8} (h : b :: r <:+ bs)
    (hb : Byte.isNameByte b = true) :
    readAttribute bs (position bs (b :: r)) =
      ((afterName (r.dropWhile Byte.isNameByte)).mapError (halt bs)).map fun (value, rest') ↦
        some (pieceText (b :: r.takeWhile Byte.isNameByte), value, position bs rest') := by
  have hr : r.dropWhile Byte.isNameByte <:+ bs :=
    (List.dropWhile_suffix _).trans ((List.suffix_cons b r).trans h)
  have hdrop : (b :: r).dropWhile Byte.isNameByte = r.dropWhile Byte.isNameByte :=
    List.dropWhile_cons_of_pos hb
  have hpiece := piece_takeWhile Byte.isNameByte h
  rw [hdrop, List.takeWhile_cons_of_pos hb] at hpiece
  have hmoved : position bs (r.dropWhile Byte.isNameByte) ≠ position bs (b :: r) := by
    have hlength := length_dropWhile_le Byte.isNameByte r
    have hle := h.length_le
    rw [List.length_cons] at hle
    rw [position, position, List.length_cons]
    omega
  have hskip : skip (r.dropWhile Byte.isNameByte) <:+ bs := (skip_suffix _).trans hr
  simp only [readAttribute, advance_position _ h, hdrop, if_neg hmoved, hpiece,
    skip_position hr, getElem?_position hskip]
  by_cases hhead : (skip (r.dropWhile Byte.isNameByte)).head? = some 0x3D
  · obtain ⟨r', hr'⟩ := List.head?_eq_some_iff.mp hhead
    rw [hr'] at hskip
    have hsuffix := (List.suffix_cons _ r').trans hskip
    have hvalue := readValue_position ((skip_suffix r').trans hsuffix)
    rw [afterName_of_equals hr']
    simp only [hr', position_cons hskip, skip_position hsuffix, hvalue]
    cases attributeValue (skip r') <;> rfl
  · rw [afterName_of_ne hhead]
    simp only [if_neg hhead]
    rfl

/-- The rest of a tag is read as the scanner reads it, in as many rounds as it has bytes, and one
more to see that it ends. -/
theorem readTag_position {n : Nat} (hn : rest.length < n) (attrs : Attributes)
    (h : rest <:+ bs) :
    readTag bs n attrs (position bs rest) = ((tagBody attrs rest).mapError (halt bs)).map
      fun (attrs, closed, rest') ↦ (attrs, closed, position bs rest') := by
  induction n generalizing attrs rest with
  | zero => omega
  | succ n ih =>
    have hskip : skip rest <:+ bs := (skip_suffix rest).trans h
    have hlength := length_skip_le rest
    simp only [readTag, skip_position h, getElem?_position hskip]
    rcases hcons : skip rest with - | ⟨b, r⟩
    · rw [tagBody_of_end hcons]
      rfl
    rw [hcons] at hskip hlength
    rw [List.length_cons] at hlength
    have hr : r <:+ bs := (List.suffix_cons b r).trans hskip
    simp only [List.head?_cons, position_cons hskip]
    by_cases hslash : b = 0x2F
    · rw [if_pos hslash, skip_position hr, passClose_position ((skip_suffix r).trans hr),
        tagBody_of_slash (hslash ▸ hcons)]
      rfl
    by_cases hclose : b = 0x3E
    · rw [if_neg hslash, if_pos hclose, tagBody_of_close (hclose ▸ hcons)]
      rfl
    rw [if_neg hslash, if_neg hclose]
    rcases hname : Byte.isNameByte b
    · rw [readAttribute_of_not hskip hname, tagBody_of_unknown hcons hslash hclose hname]
      exact ih (by omega) attrs hr
    · rw [readAttribute_position hskip hname]
      rcases hvalue : afterName (r.dropWhile Byte.isNameByte) with fault | ⟨value, rest'⟩
      · rw [tagBody_of_fault hcons hname hvalue]
        rfl
      · rw [tagBody_of_name hcons hname hvalue]
        have hsuffix := suffix_of_afterName hvalue
        have hdrop := length_dropWhile_le Byte.isNameByte r
        have hle := hsuffix.length_le
        exact ih (by omega) _ (hsuffix.trans ((List.dropWhile_suffix _).trans hr))

end Tags

/-! ## Scripts, comments and texts -/

section Events

variable {cs : List Char} {rest : List UInt8}

/-- The rest of the source at a boundary is a slice. -/
theorem text_to_end (h : rest <:+ encode cs) (hrest : IsText rest) :
    text cs (position (encode cs) rest) (encode cs).length = .ok (decode rest) := by
  have hend : rest ++ [] <:+ encode cs := by rwa [List.append_nil]
  have hslice := text_position hend hrest isText_nil
  rwa [List.append_nil] at hslice

theorem min_position_add_one {bs : List UInt8} (h : rest <:+ bs) :
    min (position bs rest + 1) bs.length = position bs (rest.drop 1) := by
  rcases rest with - | ⟨b, r⟩
  · rw [position_nil, List.drop_nil, position_nil]
    omega
  · rw [position_cons h]
    exact Nat.min_eq_left position_le

/-- The body of a script is a slice. -/
theorem readScript_position (h : rest <:+ encode cs) (hrest : IsText rest) :
    readScript cs (encode cs) (position (encode cs) rest) =
      .ok (decode (scriptBody rest).1, position (encode cs) (scriptBody rest).2) := by
  have hslice := text_to_end h hrest
  obtain ⟨ds, rfl⟩ := hrest
  rw [decode_encode] at hslice
  simp only [readScript, hslice, ← map_lower_encode, find?_script, bind, Except.bind, pure,
    Except.pure, scriptBody]
  rcases hbreak : breakAt? endsScript (encode ds) with - | ⟨body, after⟩
  · have hend : encode ds ++ [] <:+ encode cs := by rwa [List.append_nil]
    have hstop := position_append hend
    have hbody := text_to_end (List.suffix_refl (encode ds)) (isText_encode ds)
    rw [position_self] at hbody
    rw [List.append_nil, position_nil] at hstop
    simp only [Option.map_none, Option.getD_none, hbody, hstop, Nat.lt_irrefl, if_false,
      position_nil]
  · obtain ⟨hsplit, hends⟩ := eq_append_of_breakAt? hbreak
    obtain ⟨hbodyText, hafterText⟩ := isText_of_endsScript (hsplit ▸ isText_encode ds) hends
    have hwhole : body ++ after <:+ encode ds := hsplit ▸ List.suffix_rfl
    have hbody := text_position hwhole hbodyText hafterText
    have hlength := position_append hwhole
    rw [← hsplit, position_self] at hbody hlength
    rw [Nat.zero_add] at hlength
    rw [← hlength] at hbody
    rw [hsplit] at h
    have hafter : after <:+ encode cs := (List.suffix_append body after).trans h
    have hsize : 8 ≤ after.length := by
      have := congrArg List.length (beq_iff_eq.mp hends)
      simp only [List.length_map, List.length_take, List.length_cons, List.length_nil] at this
      omega
    have hstop := position_append h
    have hlt := (position_lt_iff hafter).mpr (List.ne_nil_of_length_pos (by omega))
    have hskipped := position_drop hafter hsize
    have hdrop : after.drop 8 <:+ encode cs := (List.drop_suffix 8 after).trans hafter
    rw [hsplit]
    simp only [Option.map_some, Option.getD_some, hbody, hstop, if_pos hlt, hskipped,
      advance_position _ hdrop, min_position_add_one ((List.dropWhile_suffix _).trans hdrop)]

/-- Behind the mark of a comment. -/
theorem position_drop_three {bs r : List UInt8} {b : UInt8} (h : b :: r <:+ bs)
    (hmark : r.take 3 = [0x21, 0x2D, 0x2D]) :
    position bs (b :: r) + 4 = position bs (r.drop 3) := by
  have hsize := congrArg List.length hmark
  rw [List.length_take, List.length_cons, List.length_cons, List.length_singleton] at hsize
  exact position_drop h (n := 4) (by rw [List.length_cons]; omega)

/-- A comment is read as the scanner reads it. -/
theorem turn_comment {r : List UInt8} (rounds : Nat) (h : 0x3C :: r <:+ encode cs)
    (htext : IsText (0x3C :: r)) (hmark : r.take 3 = [0x21, 0x2D, 0x2D]) (g : Growth) :
    turn cs (encode cs) rounds 0x3C (position (encode cs) (0x3C :: r)) g =
      ((comment (0x3C :: r) (r.drop 3)).mapError (halt (encode cs))).map fun (e, rest) ↦
        (g.step e, position (encode cs) rest) := by
  have hprefix : [0x3C, 0x21, 0x2D, 0x2D].isPrefixOf (encode (decode (0x3C :: r))) = true := by
    rw [htext.encode_decode, isPrefixOf_iff_take, beq_iff_eq]
    exact congrArg (0x3C :: ·) hmark
  have hdrop : r.drop 3 <:+ encode cs :=
    (List.drop_suffix 3 r).trans ((List.suffix_cons _ r).trans h)
  have hdropText := isText_drop_three htext hmark
  have htail := text_to_end hdrop hdropText
  simp only [turn, if_pos, text_to_end h htext, hprefix, position_drop_three h hmark, htail, bind,
    Except.bind, pure, Except.pure, hdropText.encode_decode, find?_comment, comment]
  rcases hbreak : breakAt? endsComment (r.drop 3) with - | ⟨body, after⟩
  · rfl
  · obtain ⟨hsplit, hends⟩ := eq_append_of_breakAt? hbreak
    rw [hsplit] at hdrop hdropText
    obtain ⟨hbody, -⟩ := isText_of_endsComment hdropText hends
    have hafter : after <:+ encode cs := (List.suffix_append body after).trans hdrop
    have hslice := text_position hdrop hbody (hdropText.of_append hbody)
    have hsize : 3 ≤ after.length := by
      have := congrArg List.length (beq_iff_eq.mp hends)
      simp only [List.length_take, List.length_cons, List.length_nil] at this
      omega
    have hclose := position_drop hafter hsize
    rw [hsplit]
    simp only [Option.map_some, position_append hdrop, hslice, hclose]
    rfl

/-- A closing tag is read as the scanner reads it. -/
theorem turn_closing {r : List UInt8} (rounds : Nat) (h : 0x3C :: 0x2F :: r <:+ encode cs)
    (htext : IsText (0x3C :: 0x2F :: r)) (g : Growth) :
    turn cs (encode cs) rounds 0x3C (position (encode cs) (0x3C :: 0x2F :: r)) g =
      .ok (g.step (closingTag r).1, position (encode cs) (closingTag r).2) := by
  have hprefix : [0x3C, 0x21, 0x2D, 0x2D].isPrefixOf (encode (decode (0x3C :: 0x2F :: r))) =
      false := by
    rw [htext.encode_decode]
    rfl
  have hslash : 0x2F :: r <:+ encode cs := (List.suffix_cons _ _).trans h
  have hr : r <:+ encode cs := (List.suffix_cons _ r).trans hslash
  have hname : r.dropWhile Byte.isTagByte <:+ encode cs := (List.dropWhile_suffix _).trans hr
  have htwo : position (encode cs) (0x3C :: 0x2F :: r) + 2 = position (encode cs) r := by
    rw [← position_cons hslash, ← position_cons h]
  simp only [turn, if_pos, text_to_end h htext, hprefix, position_cons h,
    getElem?_position hslash, List.head?_cons, htwo, readName_position hr, skip_position hname,
    passClose_position ((skip_suffix _).trans hname), bind, Except.bind, pure, Except.pure,
    Bool.false_eq_true, if_false, closingTag]

/-- An opening tag is read as the scanner reads it. -/
theorem turn_opening {n : Nat} {r : List UInt8} (hn : r.length < n)
    (h : 0x3C :: r <:+ encode cs) (htext : IsText (0x3C :: r))
    (hcomment : r.take 3 ≠ [0x21, 0x2D, 0x2D]) (hclosing : r.head? ≠ some 0x2F) (g : Growth) :
    turn cs (encode cs) n 0x3C (position (encode cs) (0x3C :: r)) g =
      ((openingTag r).mapError (halt (encode cs))).map fun (e, rest) ↦
        (g.step e, position (encode cs) rest) := by
  have hprefix : [0x3C, 0x21, 0x2D, 0x2D].isPrefixOf (encode (decode (0x3C :: r))) = false := by
    rw [htext.encode_decode, isPrefixOf_iff_take, ← Bool.not_eq_true, beq_iff_eq]
    exact fun hmark ↦ hcomment (List.cons.inj hmark).2
  have hr : r <:+ encode cs := (List.suffix_cons _ r).trans h
  have hname : r.dropWhile Byte.isTagByte <:+ encode cs := (List.dropWhile_suffix _).trans hr
  have hlength := length_dropWhile_le Byte.isTagByte r
  have hnameText : IsText (r.dropWhile Byte.isTagByte) :=
    (isText_span_isTagByte (htext.split (u := []) (by decide)).2).2
  have htag := readTag_position (Nat.lt_of_le_of_lt hlength hn) [] hname
  simp only [turn, if_pos, text_to_end h htext, hprefix, position_cons h, getElem?_position hr,
    if_neg hclosing, readName_position hr, htag, bind, Except.bind, pure, Except.pure,
    Bool.false_eq_true, if_false]
  rcases hbytes : r.takeWhile Byte.isTagByte with - | ⟨b, bytes⟩
  · rw [openingTag_of_nil hbytes, if_pos pieceText_nil]
    rfl
  have hne : r.takeWhile Byte.isTagByte ≠ [] := hbytes ▸ List.cons_ne_nil b bytes
  rw [if_neg (pieceText_ne_empty b bytes)]
  rcases hbody : tagBody [] (r.dropWhile Byte.isTagByte) with fault | ⟨attrs, closed, rest⟩
  · rw [openingTag_of_fault hne hbody]
    rfl
  rw [openingTag_of_ok hne hbody, hbytes]
  have hrest : rest <:+ encode cs := (suffix_of_tagBody hbody).trans hname
  have hscript := readScript_position hrest (isText_of_tagBody hbody hnameText.isTail)
  simp only [Except.mapError, Except.map, element, hscript, isEmpty_decode]
  by_cases hleaf : (closed || isVoidTag (pieceText (b :: bytes))) = true
  · rw [if_pos hleaf, if_pos hleaf]
  rw [if_neg hleaf, if_neg hleaf]
  by_cases htagScript : equalIgnoringCase (pieceText (b :: bytes)) "script" = true
  · rw [if_pos htagScript, if_pos htagScript]
    rfl
  · rw [if_neg htagScript, if_neg htagScript]

/-- A text is read as the scanner reads it. -/
theorem turn_text {b : UInt8} {r : List UInt8} (rounds : Nat) (h : b :: r <:+ encode cs)
    (htext : IsText (b :: r)) (hb : b ≠ 0x3C) (g : Growth) :
    turn cs (encode cs) rounds b (position (encode cs) (b :: r)) g =
      .ok (g.step (textEvent (b :: r)).1, position (encode cs) (textEvent (b :: r)).2) := by
  have hsplit := List.takeWhile_append_dropWhile (p := (· != 0x3C)) (l := b :: r)
  obtain ⟨htake, hdrop⟩ := htext.span_ne (m := 0x3C) (by decide)
  have hslice := text_position (hsplit.symm ▸ h) htake hdrop
  rw [hsplit] at hslice
  have hne : (decode ((b :: r).takeWhile (· != 0x3C))).isEmpty = false := by
    rw [← Bool.not_eq_true, List.isEmpty_iff]
    intro hempty
    have hnil := htake.encode_decode
    rw [hempty, List.takeWhile_cons_of_pos (by simpa using hb)] at hnil
    contradiction
  simp only [turn, if_neg hb, advance_position _ h, hslice, bind, Except.bind, pure,
    Except.pure, hne, Bool.false_eq_true, if_false, textEvent]

/-- One round of reading is one event of the scanner. -/
theorem turn_position {n : Nat} {b : UInt8} {r : List UInt8} (hn : r.length < n)
    (h : b :: r <:+ encode cs) (htext : IsText (b :: r)) (g : Growth) :
    turn cs (encode cs) n b (position (encode cs) (b :: r)) g =
      ((event b r).mapError (halt (encode cs))).map fun (e, rest) ↦
        (g.step e, position (encode cs) rest) := by
  by_cases hb : b = 0x3C
  · subst hb
    by_cases hcomment : r.take 3 = [0x21, 0x2D, 0x2D]
    · rw [event_of_comment hcomment, turn_comment n h htext hcomment]
    by_cases hclosing : r.head? = some 0x2F
    · obtain ⟨r', rfl⟩ := List.head?_eq_some_iff.mp hclosing
      rw [event_of_closing, turn_closing n h htext]
      rfl
    · rw [event_of_opening hcomment hclosing, turn_opening hn h htext hcomment hclosing]
  · rw [event_of_ne hb, turn_text n h htext hb]
    rfl

end Events

/-! ## Sources -/

/-- Reading from a boundary on takes in the events that follow. -/
theorem run_position {cs : List Char} {rounds n : Nat} {rest : List UInt8}
    (hrounds : (encode cs).length ≤ rounds) (hn : rest.length ≤ n) (h : rest <:+ encode cs)
    (htext : IsText rest) (g : Growth) :
    run cs (encode cs) rounds n (position (encode cs) rest) g =
      match events rest with
      | (es, none) => .ok (es.foldl Growth.step g)
      | (_, some fault) => .error (halt (encode cs) fault) := by
  induction n generalizing rest g with
  | zero =>
    obtain rfl := List.eq_nil_of_length_eq_zero (Nat.le_zero.mp hn)
    unfold run
    simp only [getElem?_position h]
    rw [events]
    rfl
  | succ n ih =>
    unfold run
    simp only [getElem?_position h]
    rcases rest with - | ⟨b, r⟩
    · rw [events]
      rfl
    have hlength := h.length_le
    rw [List.length_cons] at hn hlength
    simp only [List.head?_cons, turn_position (show r.length < rounds by omega) h htext]
    rcases hevent : event b r with fault | ⟨e, rest'⟩
    · rw [events_of_fault hevent]
      rfl
    · have hlt := length_lt_of_event hevent
      rw [List.length_cons] at hlt
      have hrest := (suffix_of_event hevent).trans h
      rw [events_of_event hevent, after]
      refine (ih (by omega) hrest (isText_of_event hevent htext) (g.step e)).trans ?_
      rcases events rest' with ⟨es, - | fault⟩ <;> rfl

/-- **The cursor is always where it may cut.** Whatever the source, reading it with a cursor comes
to an end in as many rounds of each loop as the source has bytes, no slice that it takes lies
outside the source or cuts a character, and it reads what the scanner reads. -/
theorem parse_eq (source : String) (k : Nat) :
    parse ((encode source.toList).length + k) source =
      (parseMarkup source).mapError Halt.defect := by
  have hrun := run_position (Nat.le_add_right (encode source.toList).length k)
    (Nat.le_add_right _ k) List.suffix_rfl (isText_encode source.toList) .empty
  rw [position_self] at hrun
  rw [parse, hrun, parseMarkup, Reading.ofSource]
  simp only [Reading.forest, forestOf]
  rcases events (encode source.toList) with ⟨es, - | ⟨defect, rest⟩⟩ <;> rfl

end LiveMarkup.Cursor
