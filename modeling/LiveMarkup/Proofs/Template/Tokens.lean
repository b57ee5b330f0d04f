import Mathlib.Data.List.Chain
import Mathlib.Data.List.Infix
import LiveMarkup.Template.Interpolation
import LiveMarkup.Proofs.Binding.Plan

/-!
# What the tokens of a text are

`Interpolation.Pairing` says which braces of a text belong together, without reading it character by
character: of the openings `{{` that have a `}}` behind them the first pairs with the first `}}`
behind it, and what stands behind the pair is paired in the same way. Every text is cut in exactly
one way (`Interpolation.Pairing.unique`, `Interpolation.exists_pairing`).

The tokens of a text are then the one list without empty and without neighbouring literals that says
the same as the segments do (`Interpolation.eq_tokenize_iff`). What a list of tokens says is the
list of its `Token.Atom`s: the single characters of its literals, and its expressions as they are.
Joining neighbouring literals does not change the atoms, and a list in normal form is determined by
them. -/

namespace LiveMarkup

namespace Interpolation

/-! ## Closings -/

/-- Whether a closing `}}` stands somewhere in the text. -/
def HasClosing (cs : List Char) : Prop := ['}', '}'] <:+: cs

theorem HasClosing.append_left {cs : List Char} (h : HasClosing cs) (before : List Char) :
    HasClosing (before ++ cs) :=
  List.IsInfix.trans h (List.suffix_append before cs).isInfix

theorem HasClosing.cons {cs : List Char} (h : HasClosing cs) (c : Char) : HasClosing (c :: cs) :=
  h.append_left [c]

theorem hasClosing_between (body rest : List Char) : HasClosing (body ++ '}' :: '}' :: rest) :=
  ⟨body, rest, by simp⟩

theorem hasClosing_cons_iff {c : Char} {cs : List Char} :
    HasClosing (c :: cs) ↔ (c = '}' ∧ cs.head? = some '}') ∨ HasClosing cs := by
  rw [HasClosing, List.infix_cons_iff]
  refine or_congr_left ?_
  cases cs with
  | nil => simp
  | cons d cs => simp [List.cons_prefix_cons, eq_comm]

/-- Behind an opening the first `}}` is found. A closing may not begin in the body, also not with
the body's last character and the first of the two braces. -/
theorem closing?_eq_some_iff {cs body rest : List Char} :
    closing? cs = some (body, rest) ↔
      cs = body ++ '}' :: '}' :: rest ∧ ¬ HasClosing (body ++ ['}']) := by
  induction cs generalizing body with
  | nil => simp [closing?]
  | cons c r ih =>
    unfold closing?
    split
    case h_1 r =>
      cases body with
      | nil =>
        have hshort : ¬ HasClosing ['}'] := fun h ↦ by simpa using h.length_le
        simp [hshort, eq_comm]
      | cons b body =>
        simp only [Option.some.injEq, Prod.mk.injEq, List.nil_eq, reduceCtorEq, false_and,
          false_iff, not_and, not_not, List.cons_append, List.cons.injEq]
        rintro ⟨rfl, hr⟩
        refine hasClosing_cons_iff.mpr (.inl ⟨rfl, ?_⟩)
        cases body with
        | nil => rfl
        | cons b body => exact (congrArg List.head? hr).symm
    case h_2 hne =>
      rw [Option.map_eq_some_iff]
      cases body with
      | nil =>
        constructor
        · rintro ⟨_, _, h⟩
          simp at h
        · rintro ⟨h, -⟩
          obtain ⟨rfl, rfl⟩ := List.cons.inj h
          exact (hne rest rfl rfl).elim
      | cons b body =>
        have hhead : ¬ (c = '}' ∧ r.head? = some '}') := by
          rintro ⟨rfl, hr⟩
          obtain ⟨r', rfl⟩ := List.head?_eq_some_iff.mp hr
          exact hne r' rfl rfl
        constructor
        · rintro ⟨⟨b', rest'⟩, hcl, h⟩
          simp only [Prod.mk.injEq, List.cons.injEq] at h
          obtain ⟨⟨rfl, rfl⟩, rfl⟩ := h
          obtain ⟨rfl, hno⟩ := ih.mp hcl
          refine ⟨rfl, fun h ↦ ?_⟩
          rw [List.cons_append, hasClosing_cons_iff] at h
          rcases h with ⟨rfl, hb⟩ | h
          · refine hhead ⟨rfl, ?_⟩
            cases b' with
            | nil => rfl
            | cons d b' => exact hb
          · exact hno h
        · rintro ⟨h, hno⟩
          obtain ⟨rfl, rfl⟩ := List.cons.inj h
          exact ⟨(body, rest), ih.mpr ⟨rfl, fun h ↦ hno (h.cons c)⟩, rfl⟩

theorem closing?_eq_none_iff {cs : List Char} : closing? cs = none ↔ ¬ HasClosing cs := by
  induction cs with
  | nil => simp [closing?, HasClosing]
  | cons c r ih =>
    rw [hasClosing_cons_iff]
    unfold closing?
    split
    case h_1 => simp
    case h_2 hne =>
      rw [Option.map_eq_none_iff, ih, not_or]
      refine (and_iff_right ?_).symm
      rintro ⟨rfl, hr⟩
      obtain ⟨r', rfl⟩ := List.head?_eq_some_iff.mp hr
      exact hne r' rfl rfl

/-! ## Pairs of braces -/

/-- The text has an opening behind `before`, with `behind` after it. -/
def OpensAt (cs before behind : List Char) : Prop := cs = before ++ '{' :: '{' :: behind

/-- Behind `before` stands the first opening of the text that has a later closing. -/
structure FirstOpening (cs before behind : List Char) : Prop where
  opens : OpensAt cs before behind
  closes : HasClosing behind
  first {before' behind' : List Char} (h : OpensAt cs before' behind') (hc : HasClosing behind') :
    before.length ≤ before'.length

/-- A stretch of a text. -/
inductive Segment where
  /-- Text outside all pairs. -/
  | outside (text : List Char)
  /-- A pair of braces with the text between them. -/
  | pair (body : List Char)

/-- The segments into which the pairs of braces cut a text, from the left. -/
inductive Pairing : List Char → List Segment → Prop where
  | plain {cs : List Char} (h : ∀ before behind, OpensAt cs before behind → ¬ HasClosing behind) :
      Pairing cs [.outside cs]
  | pair {cs before behind body rest : List Char} {segments : List Segment}
      (hfirst : FirstOpening cs before behind) (hbehind : behind = body ++ '}' :: '}' :: rest)
      (hbody : ¬ HasClosing (body ++ ['}'])) (hrest : Pairing rest segments) :
      Pairing cs (.outside before :: .pair body :: segments)

theorem FirstOpening.unique {cs before behind before' behind' : List Char}
    (h : FirstOpening cs before behind) (h' : FirstOpening cs before' behind') :
    before = before' ∧ behind = behind' := by
  have hlength : before.length = before'.length :=
    le_antisymm (h.first h'.opens h'.closes) (h'.first h.opens h.closes)
  obtain ⟨hbefore, hbehind⟩ := List.append_inj (h.opens.symm.trans h'.opens) hlength
  exact ⟨hbefore, (List.cons.inj (List.cons.inj hbehind).2).2⟩

/-- A text is cut in at most one way. -/
theorem Pairing.unique {cs : List Char} {segments segments' : List Segment}
    (h : Pairing cs segments) (h' : Pairing cs segments') : segments = segments' := by
  induction h generalizing segments' with
  | plain hno =>
    cases h' with
    | plain => rfl
    | pair hfirst => exact (hno _ _ hfirst.opens hfirst.closes).elim
  | pair hfirst hbehind hbody _ ih =>
    cases h' with
    | plain hno => exact (hno _ _ hfirst.opens hfirst.closes).elim
    | pair hfirst' hbehind' hbody' hrest' =>
      obtain ⟨rfl, rfl⟩ := hfirst.unique hfirst'
      have hclosing := closing?_eq_some_iff.mpr ⟨hbehind, hbody⟩
      rw [closing?_eq_some_iff.mpr ⟨hbehind', hbody'⟩, Option.some.injEq, Prod.mk.injEq] at hclosing
      obtain ⟨rfl, rfl⟩ := hclosing
      rw [ih hrest']

/-! ## What tokens and segments say -/

end Interpolation

/-- A character of a literal, or an expression. -/
inductive Token.Atom where
  | char (c : Char)
  | expression (source : List Char)

/-- What a token says. -/
def Token.atoms : Token → List Token.Atom
  | .literal text => text.map .char
  | .expression source => [.expression source]

/-- Whether a token is the reading of a stretch of a text: a literal stands for itself, an
expression for a pair of braces around it and around blanks on either side. -/
inductive Token.Reads : Token → List Char → Prop where
  | literal (text : List Char) : Reads (.literal text) text
  | expression (body : List Char) :
      Reads (.expression (trim body)) ('{' :: '{' :: body ++ ['}', '}'])

namespace Interpolation

namespace Segment

/-- The stretch as it is written. -/
def source : Segment → List Char
  | .outside text => text
  | .pair body => '{' :: '{' :: body ++ ['}', '}']

/-- What the stretch says. A pair around blank text is text. -/
def atoms : Segment → List Token.Atom
  | .outside text => text.map .char
  | .pair body =>
    if trim body = [] then (Segment.pair body).source.map .char else [.expression (trim body)]

/-- The stretch with its expression replaced by what `resolve` makes of it. -/
def resolved (resolve : List Char → List Char) : Segment → List Char
  | .outside text => text
  | .pair body => if trim body = [] then (Segment.pair body).source else resolve (trim body)

end Segment

/-- Tokens without empty and without neighbouring literals. -/
structure Normal (tokens : List Token) : Prop where
  filled : Token.literal [] ∉ tokens
  apart : tokens.IsChain fun a b ↦ a.isExpression ∨ b.isExpression

theorem normal_nil : Normal [] := ⟨List.not_mem_nil, .nil⟩

theorem normal_cons_iff {token : Token} {tokens : List Token} :
    Normal (token :: tokens) ↔
      token ≠ .literal [] ∧ (∀ b ∈ tokens.head?, token.isExpression ∨ b.isExpression) ∧
        Normal tokens := by
  constructor
  · intro h
    obtain ⟨hhead, htail⟩ := List.isChain_cons.mp h.apart
    exact ⟨fun heq ↦ h.filled (heq ▸ List.mem_cons_self), hhead,
      fun hmem ↦ h.filled (List.mem_cons_of_mem token hmem), htail⟩
  · rintro ⟨hne, hhead, h⟩
    refine ⟨fun hmem ↦ ?_, List.isChain_cons.mpr ⟨hhead, h.apart⟩⟩
    rcases List.mem_cons.mp hmem with heq | hmem
    · exact hne heq.symm
    · exact h.filled hmem

theorem Normal.expression {tokens : List Token} (h : Normal tokens) (source : List Char) :
    Normal (.expression source :: tokens) :=
  normal_cons_iff.mpr ⟨by simp, fun _ _ ↦ .inl rfl, h⟩

theorem Normal.pushLiteral {tokens : List Token} (h : Normal tokens) {text : List Char}
    (ht : text ≠ []) : Normal (pushLiteral text tokens) := by
  unfold Interpolation.pushLiteral
  split
  case h_1 t tokens =>
    obtain ⟨-, hhead, hrest⟩ := normal_cons_iff.mp h
    exact normal_cons_iff.mpr ⟨by simp [ht], hhead, hrest⟩
  case h_2 hne =>
    refine normal_cons_iff.mpr ⟨by simpa using ht, fun b hb ↦ .inr ?_, h⟩
    cases b with
    | literal t =>
      obtain ⟨tokens, rfl⟩ := List.head?_eq_some_iff.mp hb
      exact (hne t tokens rfl).elim
    | expression => rfl

@[simp] theorem atoms_pushLiteral (text : List Char) (tokens : List Token) :
    (pushLiteral text tokens).flatMap Token.atoms =
      text.map .char ++ tokens.flatMap Token.atoms := by
  unfold pushLiteral
  split <;> simp [Token.atoms]

theorem normal_tokenize (cs : List Char) : Normal (tokenize cs) := by
  fun_induction tokenize cs with
  | case1 => exact normal_nil
  | case2 r body rest _ _ ih => exact ih.pushLiteral (by simp)
  | case3 r body rest _ _ ih => exact ih.expression _
  | case4 r _ => exact normal_nil.pushLiteral (List.cons_ne_nil '{' ('{' :: r))
  | case5 c r _ ih => exact ih.pushLiteral (by simp)

/-- Behind a literal of a list in normal form no further character of text follows. -/
theorem Normal.head_atoms {tokens : List Token} {text : List Char}
    (h : Normal (.literal text :: tokens)) (c : Char) :
    (tokens.flatMap Token.atoms).head? ≠ some (.char c) := by
  obtain ⟨-, hhead, -⟩ := normal_cons_iff.mp h
  cases tokens with
  | nil => simp
  | cons b tokens =>
    rcases hhead b rfl with hlit | hb
    · simp [Token.isExpression] at hlit
    · cases b with
      | literal => simp [Token.isExpression] at hb
      | expression => simp [Token.atoms]

/-- A text and what follows it are determined by their atoms, if no text follows. -/
theorem eq_of_map_char_append {text text' : List Char} {atoms atoms' : List Token.Atom}
    (hhead : ∀ c, atoms.head? ≠ some (.char c)) (hhead' : ∀ c, atoms'.head? ≠ some (.char c))
    (h : text.map .char ++ atoms = text'.map .char ++ atoms') : text = text' ∧ atoms = atoms' := by
  induction text generalizing text' with
  | nil =>
    cases text' with
    | nil => exact ⟨rfl, h⟩
    | cons c text' => exact (hhead c (congrArg List.head? h)).elim
  | cons c text ih =>
    cases text' with
    | nil => exact (hhead' c (congrArg List.head? h.symm)).elim
    | cons c' text' =>
      simp only [List.map_cons, List.cons_append, List.cons.injEq, Token.Atom.char.injEq] at h
      obtain ⟨rfl, rfl⟩ := ih h.2
      exact ⟨by rw [h.1], rfl⟩

/-- A list of tokens in normal form is determined by what it says. -/
theorem Normal.eq_of_atoms {tokens tokens' : List Token} (h : Normal tokens)
    (h' : Normal tokens') (heq : tokens.flatMap Token.atoms = tokens'.flatMap Token.atoms) :
    tokens = tokens' := by
  have hne {token : Token} (ht : token ≠ .literal []) : token.atoms ≠ [] := by
    cases token with
    | literal text => simpa [Token.atoms] using ht
    | expression => simp [Token.atoms]
  induction tokens generalizing tokens' with
  | nil =>
    cases tokens' with
    | nil => rfl
    | cons b tokens' =>
      have := List.append_eq_nil_iff.mp heq.symm
      exact (hne (normal_cons_iff.mp h').1 this.1).elim
  | cons a tokens ih =>
    cases tokens' with
    | nil =>
      have := List.append_eq_nil_iff.mp heq
      exact (hne (normal_cons_iff.mp h).1 this.1).elim
    | cons b tokens' =>
      obtain ⟨hfilled, -, hrest⟩ := normal_cons_iff.mp h
      obtain ⟨hfilled', -, hrest'⟩ := normal_cons_iff.mp h'
      rw [List.flatMap_cons, List.flatMap_cons] at heq
      -- A literal cannot begin like an expression, so both tokens are of one kind.
      cases a with
      | literal text =>
        cases b with
        | literal text' =>
          obtain ⟨rfl, hatoms⟩ := eq_of_map_char_append h.head_atoms h'.head_atoms heq
          rw [ih hrest hrest' hatoms]
        | expression source =>
          cases text with
          | nil => exact (hfilled rfl).elim
          | cons c text => simp [Token.atoms] at heq
      | expression source =>
        cases b with
        | literal text =>
          cases text with
          | nil => exact (hfilled' rfl).elim
          | cons c text => simp [Token.atoms] at heq
        | expression source' =>
          simp only [Token.atoms, List.singleton_append, List.cons.injEq,
            Token.Atom.expression.injEq] at heq
          rw [heq.1, ih hrest hrest' heq.2]

/-! ## The tokens of a text -/

theorem OpensAt.cons {cs before behind : List Char} (h : OpensAt cs before behind) (c : Char) :
    OpensAt (c :: cs) (c :: before) behind := congrArg (c :: ·) h

/-- An opening stands at the head of a text, or behind its first character. -/
theorem OpensAt.cases_cons {c : Char} {cs before behind : List Char}
    (h : OpensAt (c :: cs) before behind) :
    (before = [] ∧ c :: cs = '{' :: '{' :: behind) ∨
      ∃ before', before = c :: before' ∧ OpensAt cs before' behind := by
  cases before with
  | nil => exact .inl ⟨rfl, h⟩
  | cons b before =>
    obtain ⟨rfl, htail⟩ := List.cons.inj h
    exact .inr ⟨before, rfl, htail⟩

theorem OpensAt.hasClosing {cs before behind : List Char} (h : OpensAt cs before behind)
    (hc : HasClosing behind) : HasClosing cs := by
  rw [h]
  exact ((hc.cons '{').cons '{').append_left before

/-- A character at which no opening stands goes to the text in front of the first pair. -/
theorem Pairing.cons {c : Char} {cs : List Char} {segments : List Segment}
    (h : Pairing cs segments) (hc : ∀ behind, c :: cs ≠ '{' :: '{' :: behind) :
    ∃ text rest, segments = .outside text :: rest ∧
      Pairing (c :: cs) (.outside (c :: text) :: rest) := by
  cases h with
  | plain hno =>
    refine ⟨cs, [], rfl, .plain fun before behind hopens ↦ ?_⟩
    rcases hopens.cases_cons with ⟨-, h⟩ | ⟨before', -, h⟩
    · exact (hc behind h).elim
    · exact hno before' behind h
  | @pair _ before behind body rest segments hfirst hbehind hbody hrest =>
    refine ⟨before, .pair body :: segments, rfl, .pair ⟨hfirst.opens.cons c, hfirst.closes, ?_⟩
      hbehind hbody hrest⟩
    intro before' behind' hopens hclosing
    rcases hopens.cases_cons with ⟨-, h⟩ | ⟨before'', rfl, h⟩
    · exact (hc behind' h).elim
    · simpa using hfirst.first h hclosing

/-- A text is cut in some way, and its tokens say what the segments say. -/
theorem exists_pairing (cs : List Char) :
    ∃ segments, Pairing cs segments ∧
      (tokenize cs).flatMap Token.atoms = segments.flatMap Segment.atoms := by
  have hpair {r body rest : List Char} {segments : List Segment}
      (hcl : closing? r = some (body, rest)) (h : Pairing rest segments) :
      Pairing ('{' :: '{' :: r) (.outside [] :: .pair body :: segments) := by
    obtain ⟨hr, hbody⟩ := closing?_eq_some_iff.mp hcl
    refine .pair ⟨rfl, ?_, fun _ _ ↦ Nat.zero_le _⟩ hr hbody h
    rw [hr]
    exact hasClosing_between body rest
  fun_induction tokenize cs with
  | case1 => exact ⟨[.outside []], .plain (by simp [OpensAt]), rfl⟩
  | case2 r body rest hcl hblank ih =>
    obtain ⟨segments, hsegments, hatoms⟩ := ih
    refine ⟨_, hpair hcl hsegments, ?_⟩
    rw [List.isEmpty_iff] at hblank
    simp [hatoms, Segment.atoms, Segment.source, hblank]
  | case3 r body rest hcl hblank ih =>
    obtain ⟨segments, hsegments, hatoms⟩ := ih
    refine ⟨_, hpair hcl hsegments, ?_⟩
    rw [List.isEmpty_iff] at hblank
    simp [hatoms, Token.atoms, Segment.atoms, hblank]
  | case4 r hcl =>
    refine ⟨[.outside ('{' :: '{' :: r)], .plain fun before behind hopens hclosing ↦ ?_,
      by simp [Token.atoms, Segment.atoms]⟩
    -- A later opening with a closing would lie behind the first one.
    have hno := closing?_eq_none_iff.mp hcl
    rcases hopens.cases_cons with ⟨-, h⟩ | ⟨before', -, h⟩
    · simp only [List.cons.injEq, true_and] at h
      exact hno (h ▸ hclosing)
    · rcases h.cases_cons with ⟨-, h⟩ | ⟨before'', -, h⟩
      · simp only [List.cons.injEq, true_and] at h
        exact hno (h ▸ hclosing.cons '{')
      · exact hno (h.hasClosing hclosing)
  | case5 c r hc ih =>
    obtain ⟨segments, hsegments, hatoms⟩ := ih
    obtain ⟨text, rest, rfl, h⟩ := hsegments.cons (c := c) fun behind h ↦ by
      obtain ⟨rfl, rfl⟩ := List.cons.inj h
      exact hc behind rfl rfl
    refine ⟨_, h, ?_⟩
    rw [atoms_pushLiteral, hatoms]
    simp [Segment.atoms]

/-- The tokens of a text are the only list without empty and without neighbouring literals that
says what the segments of the text say. -/
theorem eq_tokenize_iff {cs : List Char} {segments : List Segment} (h : Pairing cs segments)
    (tokens : List Token) :
    tokens = tokenize cs ↔
      Normal tokens ∧ tokens.flatMap Token.atoms = segments.flatMap Segment.atoms := by
  obtain ⟨segments', h', hatoms⟩ := exists_pairing cs
  obtain rfl := h.unique h'
  constructor
  · rintro rfl
    exact ⟨normal_tokenize cs, hatoms⟩
  · rintro ⟨hnormal, heq⟩
    exact hnormal.eq_of_atoms (normal_tokenize cs) (heq.trans hatoms.symm)

/-- Nothing of a text is lost: its tokens are the readings of stretches that make up the text. -/
theorem exists_sources (cs : List Char) :
    ∃ sources, List.Forall₂ Token.Reads (tokenize cs) sources ∧ sources.flatten = cs := by
  have hpush (text : List Char) {tokens : List Token} {sources : List (List Char)}
      (h : List.Forall₂ Token.Reads tokens sources) :
      ∃ sources', List.Forall₂ Token.Reads (pushLiteral text tokens) sources' ∧
        sources'.flatten = text ++ sources.flatten := by
    unfold pushLiteral
    split
    · cases h with
      | cons ht h =>
        cases ht
        exact ⟨_, .cons (.literal _) h, by simp⟩
    · exact ⟨_, .cons (.literal text) h, rfl⟩
  fun_induction tokenize cs with
  | case1 => exact ⟨[], .nil, rfl⟩
  | case2 r body rest hcl _ ih =>
    obtain ⟨sources, hreads, rfl⟩ := ih
    obtain ⟨sources', hreads', heq⟩ := hpush ('{' :: '{' :: body ++ ['}', '}']) hreads
    exact ⟨sources', hreads', by simp [heq, eq_append_of_closing? hcl]⟩
  | case3 r body rest hcl _ ih =>
    obtain ⟨sources, hreads, rfl⟩ := ih
    exact ⟨_, .cons (.expression body) hreads, by simp [eq_append_of_closing? hcl]⟩
  | case4 r _ => exact ⟨[_], .cons (.literal _) .nil, by simp⟩
  | case5 c r _ ih =>
    obtain ⟨sources, hreads, rfl⟩ := ih
    exact hpush [c] hreads

/-- A body without `}}` has none when it is trimmed. -/
theorem not_hasClosing_trim {body : List Char} (h : ¬ HasClosing (body ++ ['}'])) :
    ¬ HasClosing (trim body) := by
  have hright : trim body <+: trimLeft body := by
    have hsuffix := List.dropWhile_suffix isBlank (l := (trimLeft body).reverse)
    rw [trim, trimRight]
    simpa only [List.reverse_reverse] using List.reverse_prefix.mpr hsuffix
  have htrim : trim body <:+: body :=
    hright.isInfix.trans (List.dropWhile_suffix isBlank).isInfix
  exact fun hc ↦ h ((hc.trans htrim).trans (List.prefix_append body ['}']).isInfix)

/-- Every expression of a text is trimmed, is not empty and has no `}}` in it. -/
theorem of_expression_mem_tokenize {cs source : List Char}
    (h : Token.expression source ∈ tokenize cs) :
    source ≠ [] ∧ IsTrimmed source ∧ ¬ HasClosing source := by
  have hpush {text : List Char} {tokens : List Token}
      (h : Token.expression source ∈ pushLiteral text tokens) :
      Token.expression source ∈ tokens := by
    unfold pushLiteral at h
    split at h <;> simpa using h
  fun_induction tokenize cs with
  | case1 => simp at h
  | case2 r body rest _ _ ih => exact ih (hpush h)
  | case3 r body rest hcl hblank ih =>
    rcases List.mem_cons.mp h with heq | h
    · obtain rfl := Token.expression.inj heq
      exact ⟨fun hnil ↦ hblank (List.isEmpty_iff.mpr hnil), isTrimmed_trim body,
        not_hasClosing_trim (closing?_eq_some_iff.mp hcl).2⟩
    · exact ih h
  | case4 r _ => simp at h
  | case5 c r _ ih => exact ih (hpush h)

/-- What the quick test and the tokens say together is what the pairs say. -/
theorem hasExpression_iff {cs : List Char} {segments : List Segment} (h : Pairing cs segments) :
    hasExpression cs = true ↔ ∃ body, .pair body ∈ segments ∧ trim body ≠ [] := by
  have hatoms := ((eq_tokenize_iff h _).mp rfl).2
  have htokens : hasExpression cs = true ↔
      ∃ source, Token.Atom.expression source ∈ (tokenize cs).flatMap Token.atoms := by
    rw [hasExpression_eq, List.any_eq_true]
    constructor
    · rintro ⟨token, hmem, hexpr⟩
      cases token with
      | literal => simp [Token.isExpression] at hexpr
      | expression source => exact ⟨source, List.mem_flatMap.mpr ⟨_, hmem, by simp [Token.atoms]⟩⟩
    · rintro ⟨source, hmem⟩
      obtain ⟨token, hmem, hatom⟩ := List.mem_flatMap.mp hmem
      refine ⟨token, hmem, ?_⟩
      cases token with
      | literal => simp [Token.atoms] at hatom
      | expression => rfl
  rw [htokens, hatoms]
  constructor
  · rintro ⟨source, hmem⟩
    obtain ⟨segment, hmem, hatom⟩ := List.mem_flatMap.mp hmem
    cases segment with
    | outside => simp [Segment.atoms] at hatom
    | pair body =>
      refine ⟨body, hmem, fun hblank ↦ ?_⟩
      simp [Segment.atoms, hblank] at hatom
  · rintro ⟨body, hmem, hbody⟩
    exact ⟨trim body, List.mem_flatMap.mpr ⟨_, hmem, by simp [Segment.atoms, hbody]⟩⟩

/-- Interpolating replaces the pairs around an expression and keeps every other character. -/
theorem interpolate_eq {cs : List Char} {segments : List Segment} (h : Pairing cs segments)
    (resolve : List Char → List Char) :
    interpolate resolve cs = segments.flatMap (Segment.resolved resolve) := by
  let say : Token.Atom → List Char
    | .char c => [c]
    | .expression source => resolve source
  have hsay (text : List Char) : (text.map Token.Atom.char).flatMap say = text := by
    induction text with
    | nil => rfl
    | cons c text ih => exact congrArg (c :: ·) ih
  have hsegment (segment : Segment) : segment.resolved resolve = segment.atoms.flatMap say := by
    cases segment with
    | outside text => exact (hsay text).symm
    | pair body =>
      by_cases hblank : trim body = []
      · simp only [Segment.resolved, Segment.atoms, if_pos hblank, hsay]
      · simp [Segment.resolved, Segment.atoms, hblank, say]
  calc interpolate resolve cs
      = (tokenize cs).flatMap fun token ↦ token.atoms.flatMap say := by
        refine List.flatMap_congr fun token _ ↦ ?_
        cases token with
        | literal text => exact (hsay text).symm
        | expression source => simp [Token.atoms, say]
    _ = ((tokenize cs).flatMap Token.atoms).flatMap say := List.flatMap_assoc.symm
    _ = (segments.flatMap Segment.atoms).flatMap say := by
        rw [((eq_tokenize_iff h _).mp rfl).2]
    _ = segments.flatMap (Segment.resolved resolve) := by
        rw [List.flatMap_assoc]
        exact List.flatMap_congr fun segment _ ↦ (hsegment segment).symm

end Interpolation

end LiveMarkup
