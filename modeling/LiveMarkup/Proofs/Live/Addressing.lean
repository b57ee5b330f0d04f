import LiveMarkup.Live.Client
import LiveMarkup.Proofs.Live.Fields
import LiveMarkup.Proofs.Template.Paths

/-!
# Every part of the data has an address

A path leads from a value through the keys of objects and the numbers of items to a part of it
(`Value.Leads`). If it leads from the data of a view-model to a part, then the text of the path, its
segments joined by dots with any white space around them, evaluates to that part; and a path that
goes on with a segment that selects nothing there evaluates to `null`, however it goes on after
that (`Client.evaluate_path`).

What is to be seen is that the text is read as the path it was joined from, which is the subject of
`LiveMarkup.Proofs.Template.Paths`, and that a segment is a number exactly where the path means one.
-/

namespace LiveMarkup

variable {C H : Type}

/-! ## Numbers of items -/

namespace Value

/-- Whether a segment writes a number: in decimal digits, which a plus sign may precede. -/
def Writes (segment : List Char) (i : Nat) : Prop :=
  ∃ digits, (segment = digits ∨ segment = '+' :: digits) ∧ digits ≠ [] ∧
    (∀ c ∈ digits, c.isDigit = true) ∧ Nat.ofDigitChars 10 digits 0 = i

/-- The number that digits write. -/
private def decimal? (digits : List Char) : Option Nat :=
  if digits.isEmpty || !digits.all Char.isDigit then none
  else some (Nat.ofDigitChars 10 digits 0)

private theorem decimal?_eq_some_iff {digits : List Char} {i : Nat} :
    decimal? digits = some i ↔ digits ≠ [] ∧ (∀ c ∈ digits, c.isDigit = true) ∧
      Nat.ofDigitChars 10 digits 0 = i := by
  rw [decimal?]
  split
  · rename_i h
    simp only [Bool.or_eq_true, List.isEmpty_iff, Bool.not_eq_true', List.all_eq_false] at h
    constructor
    · intro hnone
      contradiction
    · rintro ⟨hne, hall, -⟩
      obtain hnil | ⟨c, hc, hdigit⟩ := h
      · exact absurd hnil hne
      · exact absurd (hall c hc) hdigit
  · rename_i h
    simp only [Bool.or_eq_true, List.isEmpty_iff, Bool.not_eq_true', List.all_eq_false, not_or,
      not_exists, not_and, not_not] at h
    rw [Option.some.injEq]
    exact ⟨fun hi ↦ ⟨h.1, h.2, hi⟩, fun hi ↦ hi.2.2⟩

/-- **Which segments are numbers.** -/
theorem index?_eq_some_iff {segment : List Char} {i : Nat} :
    index? segment = some i ↔ Writes segment i := by
  have hplus {digits : List Char} (h : ∀ c ∈ digits, c.isDigit = true) (r : List Char) :
      digits ≠ '+' :: r := by
    rintro rfl
    exact Bool.noConfusion (h '+' List.mem_cons_self)
  by_cases hsign : ∃ r, segment = '+' :: r
  · obtain ⟨r, rfl⟩ := hsign
    have hindex : index? ('+' :: r) = decimal? r := rfl
    rw [hindex, decimal?_eq_some_iff]
    constructor
    · exact fun h ↦ ⟨r, .inr rfl, h⟩
    · rintro ⟨digits, hdigits | hdigits, h⟩
      · exact absurd hdigits.symm (hplus h.2.1 r)
      · exact (List.cons.inj hdigits).2 ▸ h
  · have hindex : index? segment = decimal? segment := by
      rw [index?]
      · rfl
      · exact fun r hr ↦ hsign ⟨r, hr⟩
    rw [hindex, decimal?_eq_some_iff]
    constructor
    · exact fun h ↦ ⟨segment, .inl rfl, h⟩
    · rintro ⟨digits, rfl | rfl, h⟩
      · exact h
      · exact absurd ⟨digits, rfl⟩ hsign

theorem writes_repr (i : Nat) : Writes i.repr.toList i := by
  rw [Nat.toList_repr]
  refine ⟨_, .inl rfl, Nat.toDigits_ne_nil, fun c hc ↦ ?_, ?_⟩
  · exact Nat.isDigit_of_mem_toDigits (by decide) (by decide) hc
  · exact Nat.ofDigitChars_toDigits (by decide) (by decide)

/-! ## Parts of a value -/

/-- Whether a text has no dots and no white space at its ends, so that it can be a segment. -/
def Plain (segment : List Char) : Prop := '.' ∉ segment ∧ IsTrimmed segment

/-- Whether a path leads from a value to a part of it, by plain keys of members and by numbers of
items. -/
inductive Leads : Value → List (List Char) → Value → Prop where
  | here (v : Value) : Leads v [] v
  | member {members : List (String × Value)} {key : String} {v w : Value}
      {path : List (List Char)} (plain : Plain key.toList)
      (has_member : member? key members = some v) (rest : Leads v path w) :
      Leads (.object members) (key.toList :: path) w
  | item {items : List Value} {i : Nat} {segment : List Char} {v w : Value}
      {path : List (List Char)} (number : Writes segment i) (has_item : items[i]? = some v)
      (rest : Leads v path w) : Leads (.array items) (segment :: path) w

/-- Whether a segment selects nothing of a value: it is no key of an object, and no number of an
item of an array. -/
def Misses (segment : List Char) : Value → Prop
  | .object members => String.ofList segment ∉ members.map Prod.fst
  | .array items => ∀ i, Writes segment i → items.length ≤ i
  | _ => True

theorem Leads.descend {v w : Value} {path : List (List Char)} (h : Leads v path w) :
    v.descend path = w := by
  induction h with
  | here => rfl
  | member _ hmember _ ih =>
    rw [descend_cons, child, String.ofList_toList, hmember]
    exact ih
  | @item items i segment v w path hnumber hitem _ ih =>
    have hchild : (Value.array items).child segment = v := by
      rw [child, index?_eq_some_iff.mpr hnumber]
      exact congrArg (Option.getD · .null) hitem
    rw [descend_cons, hchild, ih]

theorem Misses.child {segment : List Char} {v : Value} (h : Misses segment v) :
    v.child segment = .null := by
  cases v with
  | object members =>
    rw [Value.child, member?_of_not_mem h]
    rfl
  | array items =>
    rw [Value.child]
    cases hi : index? segment with
    | none => rfl
    | some i =>
      have hlength : items.length ≤ i := h i (index?_eq_some_iff.mp hi)
      simp only [List.getElem?_eq_none hlength]
      rfl
  | _ => rfl

theorem isBlank_of_isDigit {c : Char} (h : c.isDigit = true) : isBlank c = false := by
  obtain ⟨hlow, hhigh⟩ := Bool.and_eq_true_iff.mp h
  have hlow : 48 ≤ c.toNat := of_decide_eq_true hlow
  have hhigh : c.toNat ≤ 57 := of_decide_eq_true hhigh
  simp only [isBlank, Bool.or_eq_false_iff, Bool.and_eq_false_iff, decide_eq_false_iff_not,
    beq_eq_false_iff_ne]
  omega

theorem plain_of_writes {segment : List Char} {i : Nat} (h : Writes segment i) :
    Plain segment := by
  have hchars : ∀ c ∈ segment, c ≠ '.' ∧ isBlank c = false := by
    obtain ⟨digits, hsegment, -, hdigits, -⟩ := h
    have hdigit (c : Char) (hc : c ∈ digits) : c ≠ '.' ∧ isBlank c = false := by
      refine ⟨?_, isBlank_of_isDigit (hdigits c hc)⟩
      rintro rfl
      exact Bool.noConfusion (hdigits '.' hc)
    rcases hsegment with rfl | rfl
    · exact hdigit
    · exact List.forall_mem_cons.mpr ⟨by decide, hdigit⟩
  refine ⟨fun hdot ↦ (hchars '.' hdot).1 rfl, fun c hc ↦ ?_, fun c hc ↦ ?_⟩
  · exact (hchars c (List.mem_of_head? hc)).2
  · exact (hchars c (List.mem_of_getLast? hc)).2

theorem Leads.plain {v w : Value} {path : List (List Char)} (h : Leads v path w) :
    ∀ segment ∈ path, Plain segment := by
  induction h with
  | here => exact List.forall_mem_nil _
  | member hplain _ _ ih => exact List.forall_mem_cons.mpr ⟨hplain, ih⟩
  | item hnumber _ _ ih => exact List.forall_mem_cons.mpr ⟨plain_of_writes hnumber, ih⟩

end Value

/-! ## Texts of paths -/

/-- Whether a text is a segment with white space around it. -/
def Padded (segment text : List Char) : Prop :=
  ∃ l r, allBlank l = true ∧ allBlank r = true ∧ text = l ++ segment ++ r

/-- The pieces of padded segments are the texts themselves, and trimmed they are the segments. -/
theorem map_trim_flatMap_splitOn {segments texts : List (List Char)}
    (htexts : List.Forall₂ Padded segments texts)
    (hplain : ∀ segment ∈ segments, Value.Plain segment) :
    (texts.flatMap (List.splitOn '.')).map trim = segments := by
  induction htexts with
  | nil => rfl
  | @cons segment _ _ _ hpadded _ ih =>
    obtain ⟨hsegment, hsegments⟩ := List.forall_mem_cons.mp hplain
    obtain ⟨l, r, hl, hr, rfl⟩ := hpadded
    have hdot : '.' ∉ l ++ segment ++ r := by
      rw [List.mem_append, List.mem_append, not_or, not_or]
      exact ⟨⟨not_mem_dot_of_allBlank hl, hsegment.1⟩, not_mem_dot_of_allBlank hr⟩
    rw [List.flatMap_cons, List.splitOn_eq_singleton hdot, List.map_append, ih hsegments,
      List.map_singleton, trim_append_blank hr, trim_blank_append hl, trim_eq_self hsegment.2]
    rfl

/-- A text with pieces that are a path evaluates to what the path selects of the data. -/
theorem Client.run_evaluate (client : Client C H) {members : List (String × Value)}
    (hmembers : (members.map Prod.fst).Nodup) {st : LiveState C H} (hst : st.graph.Drained)
    {text key : List Char} {segments : List (List Char)}
    (hpieces : (text.splitOn '.').map trim = key :: segments)
    (hname : Expression.BeginsName key) (hwords : segments = [] → key ∉ Expression.words)
    (fuel : Nat) :
    ∃ st', client.run fuel
        (ViewModelId.ofData (.object members) >>= fun vm ↦ vm.evaluate text) st =
      some ((Value.object members).descend (key :: segments), st') := by
  obtain ⟨vm, st₁, hdata, -, hfields, -⟩ := Runner.Yields.ofData hmembers st hst
  have hrun : (client.meaning.runner fuel).Yields fuel
      (ViewModelId.ofData (.object members) >>= fun vm ↦ vm.evaluate text) st _ _ :=
    (hdata _ _).bind (.evaluate vm text st₁)
  rw [Expression.parse_of_splitOn hpieces hname hwords, hfields] at hrun
  exact ⟨_, hrun⟩

/-- **Every part of the data has an address.** Let a path lead from the data to a part `w`. The text
of the path, with any white space around its segments, evaluates to `w` on a view-model that is made
from the data. If the path goes on with a segment that selects nothing of `w`, then it evaluates to
`null`, whatever follows. -/
theorem Client.evaluate_path (client : Client C H) {members : List (String × Value)}
    (hmembers : (members.map Prod.fst).Nodup) {st : LiveState C H} (hst : st.graph.Drained)
    {key : List Char} {path : List (List Char)} {w : Value}
    (hleads : Value.Leads (.object members) (key :: path) w) (hname : Expression.BeginsName key)
    (hwords : ['.'].intercalate (key :: path) ∉ Expression.words) {texts : List (List Char)}
    (htexts : List.Forall₂ Padded (key :: path) texts) (fuel : Nat) :
    (∃ st', client.run fuel (ViewModelId.ofData (.object members) >>= fun vm ↦
        vm.evaluate (['.'].intercalate texts)) st = some (w, st')) ∧
    ∀ text more, '.' ∉ text → Value.Misses (trim text) w →
      ∃ st', client.run fuel (ViewModelId.ofData (.object members) >>= fun vm ↦
        vm.evaluate (['.'].intercalate (texts ++ text :: more))) st = some (.null, st') := by
  have hpieces : (texts.flatMap (List.splitOn '.')).map trim = key :: path :=
    map_trim_flatMap_splitOn htexts hleads.plain
  constructor
  · have hne : texts ≠ [] := by
      rintro rfl
      cases htexts
    rw [← splitOn_intercalate_dot hne] at hpieces
    have hword : path = [] → key ∉ Expression.words := by
      rintro rfl
      rwa [List.intercalate_singleton] at hwords
    obtain ⟨st', hrun⟩ := client.run_evaluate hmembers hst hpieces hname hword fuel
    rw [hleads.descend] at hrun
    exact ⟨st', hrun⟩
  · intro text more htext hmisses
    let rest := (more.flatMap (List.splitOn '.')).map trim
    have hlonger : ((['.'].intercalate (texts ++ text :: more)).splitOn '.').map trim =
        key :: (path ++ trim text :: rest) := by
      rw [splitOn_intercalate_dot (List.append_ne_nil_of_right_ne_nil _ (List.cons_ne_nil _ _)),
        List.flatMap_append, List.map_append, hpieces, List.flatMap_cons,
        List.splitOn_eq_singleton htext]
      rfl
    obtain ⟨st', hrun⟩ := client.run_evaluate hmembers hst hlonger hname
      (fun hnil ↦ absurd hnil (List.append_ne_nil_of_right_ne_nil _ (List.cons_ne_nil _ _))) fuel
    have hnull : (Value.object members).descend (key :: (path ++ trim text :: rest)) = .null := by
      rw [← List.cons_append, Value.descend_append, hleads.descend, Value.descend_cons,
        hmisses.child, Value.descend_null]
    rw [hnull] at hrun
    exact ⟨st', hrun⟩

/-- The second tag of a user, whose address is written with white space, and what lies below it. -/
theorem evaluate_path_tags :
    (∃ st', Client.none.run 0 (ViewModelId.ofData (.object [("user", .object
          [("tags", .array [.string "a", .string "b"])])]) >>= fun vm ↦
        vm.evaluate (['.'].intercalate [" user".toList, "tags ".toList, "1".toList]))
        ⟨.empty, { host := () }⟩ = some (.string "b", st')) ∧
    ∀ text more, '.' ∉ text → Value.Misses (trim text) (.string "b") →
      ∃ st', Client.none.run 0 (ViewModelId.ofData (.object [("user", .object
          [("tags", .array [.string "a", .string "b"])])]) >>= fun vm ↦
        vm.evaluate (['.'].intercalate
          ([" user".toList, "tags ".toList, "1".toList] ++ text :: more)))
        ⟨.empty, { host := () }⟩ = some (.null, st') := by
  have hplain (key : String) (hdot : '.' ∉ key.toList) (htrim : trim key.toList = key.toList) :
      Value.Plain key.toList := ⟨hdot, htrim ▸ isTrimmed_trim _⟩
  have hleads : Value.Leads
      (.object [("user", .object [("tags", .array [.string "a", .string "b"])])])
      ["user".toList, "tags".toList, "1".toList] (.string "b") := by
    refine .member (hplain "user" (by decide) rfl) rfl ?_
    refine .member (hplain "tags" (by decide) rfl) rfl ?_
    exact .item (Value.writes_repr 1) rfl (.here _)
  have htexts : List.Forall₂ Padded ["user".toList, "tags".toList, "1".toList]
      [" user".toList, "tags ".toList, "1".toList] :=
    .cons ⟨[' '], [], rfl, rfl, rfl⟩
      (.cons ⟨[], [' '], rfl, rfl, rfl⟩ (.cons ⟨[], [], rfl, rfl, rfl⟩ .nil))
  have hname : Expression.BeginsName "user".toList :=
    ⟨'u', "ser".toList, rfl, by decide, by decide, by decide, rfl⟩
  have hmembers : ([("user", Value.object [("tags", .array [.string "a", .string "b"])])].map
      Prod.fst).Nodup := List.pairwise_singleton _ "user"
  exact Client.none.evaluate_path hmembers (fun _ ↦ rfl) hleads hname (by decide) htexts 0

end LiveMarkup
