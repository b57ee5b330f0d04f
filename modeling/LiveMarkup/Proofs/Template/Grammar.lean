import LiveMarkup.Proofs.Template.Tokens

/-!
# The grammar of interpolated texts

A text is a sequence of segments, and a segment is an expression, or else a literal, or else a stray
opening:

* an expression is `{{`, a body that goes on as long as no `}}` begins, and `}}`;
* a literal is at least one character, and goes on as long as no `{{` begins;
* a stray opening is `{{`.

The grammar is a parsing expression (`Peg`): choices are ordered and repetitions are greedy, so that
it matches a text in at most one way (`Peg.Matches.unique`). It matches every text up to its end,
and collecting what its rules have matched, from the left, yields the tokens of the text
(`Interpolation.exists_matches_template`). Together with what the tokens of a text are, this is
`Interpolation.tokenize_meets_grammar`.
-/

namespace LiveMarkup

namespace Interpolation

/-! ## Parsing expressions -/

/-- The rules whose matches are reported. -/
inductive Rule where
  | expression
  | body
  | literal
  | strayOpen
  | endOfText
deriving DecidableEq

/-- The match of a rule: the text that it covers and the matches inside. -/
inductive Capture where
  | mk (rule : Rule) (text : List Char) (inner : List Capture)

/-- A parsing expression. -/
inductive Peg where
  /-- The start of the text. -/
  | start
  /-- The end of the text. -/
  | stop
  /-- Any one character. -/
  | any
  /-- Exactly these characters. -/
  | str (s : List Char)
  /-- One behind the other. -/
  | seq (a b : Peg)
  /-- The second, if the first does not match. -/
  | choice (a b : Peg)
  /-- As often as it matches. -/
  | many (a : Peg)
  /-- Nothing, where it does not match. -/
  | reject (a : Peg)
  /-- A rule whose match is reported. -/
  | rule (name : Rule) (a : Peg)

/-- A place in a text: what has been read, and what lies ahead. -/
structure Place where
  read : List Char
  ahead : List Char

namespace Peg

/-- What comes of matching at a place: the reported matches and the place behind, or a failure. -/
inductive Matches : Peg → Place → Option (List Capture × Place) → Prop where
  | start_ok {p : Place} (h : p.read = []) : Matches .start p (some ([], p))
  | start_fail {p : Place} (h : p.read ≠ []) : Matches .start p none
  | stop_ok {p : Place} (h : p.ahead = []) : Matches .stop p (some ([], p))
  | stop_fail {p : Place} (h : p.ahead ≠ []) : Matches .stop p none
  | any_ok {read ahead : List Char} {c : Char} :
      Matches .any ⟨read, c :: ahead⟩ (some ([], ⟨read ++ [c], ahead⟩))
  | any_fail {read : List Char} : Matches .any ⟨read, []⟩ none
  | str_ok {s read ahead : List Char} :
      Matches (.str s) ⟨read, s ++ ahead⟩ (some ([], ⟨read ++ s, ahead⟩))
  | str_fail {s : List Char} {p : Place} (h : ¬ s <+: p.ahead) : Matches (.str s) p none
  | seq_ok {a b : Peg} {p q r : Place} {xs ys : List Capture} (ha : Matches a p (some (xs, q)))
      (hb : Matches b q (some (ys, r))) : Matches (.seq a b) p (some (xs ++ ys, r))
  | seq_fail_left {a b : Peg} {p : Place} (ha : Matches a p none) : Matches (.seq a b) p none
  | seq_fail_right {a b : Peg} {p q : Place} {xs : List Capture} (ha : Matches a p (some (xs, q)))
      (hb : Matches b q none) : Matches (.seq a b) p none
  | choice_left {a b : Peg} {p : Place} {x : List Capture × Place} (ha : Matches a p (some x)) :
      Matches (.choice a b) p (some x)
  | choice_right {a b : Peg} {p : Place} {x : Option (List Capture × Place)}
      (ha : Matches a p none) (hb : Matches b p x) : Matches (.choice a b) p x
  | many_stop {a : Peg} {p : Place} (ha : Matches a p none) : Matches (.many a) p (some ([], p))
  | many_more {a : Peg} {p q r : Place} {xs ys : List Capture} (ha : Matches a p (some (xs, q)))
      (hrest : Matches (.many a) q (some (ys, r))) : Matches (.many a) p (some (xs ++ ys, r))
  | reject_ok {a : Peg} {p : Place} (ha : Matches a p none) :
      Matches (.reject a) p (some ([], p))
  | reject_fail {a : Peg} {p : Place} {x : List Capture × Place} (ha : Matches a p (some x)) :
      Matches (.reject a) p none
  | rule_ok {name : Rule} {a : Peg} {p q : Place} {xs : List Capture} {text : List Char}
      (ha : Matches a p (some (xs, q))) (htext : q.read = p.read ++ text) :
      Matches (.rule name a) p (some ([⟨name, text, xs⟩], q))
  | rule_fail {name : Rule} {a : Peg} {p : Place} (ha : Matches a p none) :
      Matches (.rule name a) p none

/-- A parsing expression matches in at most one way. -/
theorem Matches.unique {e : Peg} {p : Place} {x y : Option (List Capture × Place)}
    (hx : e.Matches p x) (hy : e.Matches p y) : x = y := by
  -- By the first match: what its parts came to decides which rule the second one ends with.
  induction hx generalizing y with
  | start_ok h =>
    cases hy with
    | start_ok => rfl
    | start_fail h' => exact (h' h).elim
  | start_fail h =>
    cases hy with
    | start_ok h' => exact (h h').elim
    | start_fail => rfl
  | stop_ok h =>
    cases hy with
    | stop_ok => rfl
    | stop_fail h' => exact (h' h).elim
  | stop_fail h =>
    cases hy with
    | stop_ok h' => exact (h h').elim
    | stop_fail => rfl
  | any_ok => cases hy; rfl
  | any_fail => cases hy; rfl
  | @str_ok s read ahead =>
    generalize hp : (⟨read, s ++ ahead⟩ : Place) = p at hy
    cases hy with
    | @str_ok _ read' ahead' =>
      obtain ⟨rfl, hahead⟩ := Place.mk.inj hp
      rw [List.append_cancel_left hahead]
    | str_fail h => exact (h (hp ▸ List.prefix_append s ahead)).elim
  | @str_fail s p h =>
    cases hy with
    | str_ok => exact (h (List.prefix_append _ _)).elim
    | str_fail => rfl
  | seq_ok _ _ iha ihb =>
    cases hy with
    | seq_ok ha' hb' =>
      cases iha ha'
      cases ihb hb'
      rfl
    | seq_fail_left ha' => cases iha ha'
    | seq_fail_right ha' hb' =>
      cases iha ha'
      cases ihb hb'
  | seq_fail_left _ iha =>
    cases hy with
    | seq_ok ha' => cases iha ha'
    | seq_fail_left => rfl
    | seq_fail_right ha' => cases iha ha'
  | seq_fail_right _ _ iha ihb =>
    cases hy with
    | seq_ok ha' hb' =>
      cases iha ha'
      cases ihb hb'
    | seq_fail_left => rfl
    | seq_fail_right => rfl
  | choice_left _ iha =>
    cases hy with
    | choice_left ha' => exact iha ha'
    | choice_right ha' => cases iha ha'
  | choice_right _ _ iha ihb =>
    cases hy with
    | choice_left ha' => cases iha ha'
    | choice_right _ hb' => exact ihb hb'
  | many_stop _ iha =>
    cases hy with
    | many_stop => rfl
    | many_more ha' => cases iha ha'
  | many_more _ _ iha ihrest =>
    cases hy with
    | many_stop ha' => cases iha ha'
    | many_more ha' hrest' =>
      cases iha ha'
      cases ihrest hrest'
      rfl
  | reject_ok _ iha =>
    cases hy with
    | reject_ok => rfl
    | reject_fail ha' => cases iha ha'
  | reject_fail _ iha =>
    cases hy with
    | reject_ok ha' => cases iha ha'
    | reject_fail => rfl
  | rule_ok _ htext iha =>
    cases hy with
    | rule_ok ha' htext' =>
      cases iha ha'
      rw [List.append_cancel_left (htext.symm.trans htext')]
    | rule_fail ha' => cases iha ha'
  | rule_fail _ iha =>
    cases hy with
    | rule_ok ha' => cases iha ha'
    | rule_fail => rfl

/-- Characters up to where `s` begins, or up to the end of the text. -/
def upTo (s : List Char) : Peg := .many (.seq (.reject (.str s)) .any)

/-- A run of characters in which `s` does not begin, up to where it does or the text ends. -/
inductive Run (s : List Char) : List Char → List Char → Prop where
  | stop {rest : List Char} (h : rest = [] ∨ s <+: rest) : Run s [] rest
  | more {c : Char} {text rest : List Char} (h : ¬ s <+: c :: (text ++ rest))
      (hrest : Run s text rest) : Run s (c :: text) rest

theorem Run.rest {s text rest : List Char} (h : Run s text rest) : rest = [] ∨ s <+: rest := by
  induction h with
  | stop h => exact h
  | more _ _ ih => exact ih

theorem exists_run (s cs : List Char) : ∃ text rest, cs = text ++ rest ∧ Run s text rest := by
  induction cs with
  | nil => exact ⟨[], [], rfl, .stop (.inl rfl)⟩
  | cons c cs ih =>
    by_cases hs : s <+: c :: cs
    · exact ⟨[], c :: cs, rfl, .stop (.inr hs)⟩
    · obtain ⟨text, rest, rfl, hrun⟩ := ih
      exact ⟨c :: text, rest, rfl, .more hs hrun⟩

theorem Run.matches_upTo {s text rest : List Char} (h : Run s text rest) (read : List Char) :
    (Peg.upTo s).Matches ⟨read, text ++ rest⟩ (some ([], ⟨read ++ text, rest⟩)) := by
  induction h generalizing read with
  | @stop rest h =>
    rw [List.append_nil, List.nil_append]
    refine .many_stop ?_
    by_cases hs : s <+: rest
    · obtain ⟨behind, rfl⟩ := hs
      exact .seq_fail_left (.reject_fail .str_ok)
    · obtain rfl := h.resolve_right hs
      exact .seq_fail_right (.reject_ok (.str_fail hs)) .any_fail
  | @more c text rest h _ ih =>
    have hstep : (Peg.seq (.reject (.str s)) .any).Matches ⟨read, c :: (text ++ rest)⟩
        (some ([], ⟨read ++ [c], text ++ rest⟩)) := .seq_ok (.reject_ok (.str_fail h)) .any_ok
    have hall := Matches.many_more hstep (ih (read ++ [c]))
    rwa [List.append_assoc] at hall

end Peg

/-! ## The grammar

No rule skips white space between its parts. -/

namespace Grammar

/-- What stands between the braces of an expression. -/
def body : Peg := .rule .body (.upTo ['}', '}'])

/-- An expression in its braces. -/
def expression : Peg :=
  .rule .expression (.seq (.str ['{', '{']) (.seq body (.str ['}', '}'])))

/-- Text up to the next opening. -/
def literal : Peg :=
  .rule .literal (.seq (.seq (.reject (.str ['{', '{'])) .any) (.upTo ['{', '{']))

/-- An opening that no expression begins with. -/
def strayOpen : Peg := .rule .strayOpen (.str ['{', '{'])

/-- A segment of a text. -/
def segment : Peg := .choice expression (.choice literal strayOpen)

/-- A whole text. -/
def template : Peg := .seq .start (.seq (.many segment) (.rule .endOfText .stop))

end Grammar

/-! ## Collecting tokens -/

/-- Puts literal text behind tokens, as part of a literal that stands last. -/
def appendText (tokens : List Token) (text : List Char) : List Token :=
  if text = [] then tokens
  else
    match tokens.getLast? with
    | some (.literal last) => tokens.dropLast ++ [.literal (last ++ text)]
    | _ => tokens ++ [.literal text]

/-- Reads the match of a rule, behind the tokens of what was matched before. -/
def collect (tokens : List Token) : Capture → List Token
  | .mk .expression text inner =>
    let source := (inner.head?.map fun | .mk _ body _ => trim body).getD []
    if source = [] then appendText tokens text else tokens ++ [.expression source]
  | .mk .literal text _ | .mk .strayOpen text _ => appendText tokens text
  | .mk .body _ _ | .mk .endOfText _ _ => tokens

/-- The tokens of what has come of matching a text. -/
def tokensOf (cs : List Char) : Option (List Capture × Place) → List Token
  | some (captures, _) => captures.foldl collect []
  | none => appendText [] cs

/-- Tokens behind tokens, where a literal that stands last takes in a literal that stands first. -/
def join (before tokens : List Token) : List Token :=
  match before.getLast? with
  | some (.literal text) => before.dropLast ++ pushLiteral text tokens
  | _ => before ++ tokens

@[simp] theorem join_nil_left (tokens : List Token) : join [] tokens = tokens := rfl

@[simp] theorem join_literal (before tokens : List Token) (text : List Char) :
    join (before ++ [.literal text]) tokens = before ++ pushLiteral text tokens := by simp [join]

@[simp] theorem join_expression (before tokens : List Token) (source : List Char) :
    join (before ++ [.expression source]) tokens = before ++ .expression source :: tokens := by
  simp [join]

@[simp] theorem appendText_nil_left {text : List Char} (h : text ≠ []) :
    appendText [] text = [.literal text] := if_neg h

@[simp] theorem appendText_literal (before : List Token) (last : List Char) {text : List Char}
    (h : text ≠ []) :
    appendText (before ++ [.literal last]) text = before ++ [.literal (last ++ text)] := by
  simp [appendText, h]

@[simp] theorem appendText_expression (before : List Token) (source : List Char) {text : List Char}
    (h : text ≠ []) : appendText (before ++ [.expression source]) text =
      before ++ [.expression source] ++ [.literal text] := by
  simp [appendText, h]

theorem pushLiteral_pushLiteral (a b : List Char) (tokens : List Token) :
    pushLiteral a (pushLiteral b tokens) = pushLiteral (a ++ b) tokens := by
  rw [pushLiteral.eq_def b tokens, pushLiteral.eq_def (a ++ b) tokens]
  split <;> simp [pushLiteral]

theorem join_nil_right (before : List Token) : join before [] = before := by
  rcases before.eq_nil_or_concat' with rfl | ⟨before, last, rfl⟩
  · rfl
  · cases last <;> simp [pushLiteral]

theorem join_appendText (before tokens : List Token) {text : List Char} (h : text ≠ []) :
    join (appendText before text) tokens = join before (pushLiteral text tokens) := by
  rcases before.eq_nil_or_concat' with rfl | ⟨before, last, rfl⟩
  · rw [appendText_nil_left h]
    exact join_literal [] tokens text
  · cases last with
    | literal last => rw [appendText_literal before last h, join_literal, join_literal,
        pushLiteral_pushLiteral]
    | expression source => rw [appendText_expression before source h, join_literal,
        join_expression, List.append_assoc]; rfl

theorem join_append_expression (before tokens : List Token) (source : List Char) :
    join (before ++ [.expression source]) tokens = join before (.expression source :: tokens) := by
  rw [join_expression]
  rcases before.eq_nil_or_concat' with rfl | ⟨before, last, rfl⟩
  · rfl
  · cases last <;> simp [pushLiteral]

/-! ## What the rules match -/

theorem closing?_of_run_end {text : List Char} (h : Peg.Run ['}', '}'] text []) :
    closing? text = none := by
  rw [closing?_eq_none_iff]
  induction text with
  | nil => simp [HasClosing]
  | cons c text ih =>
    cases h with
    | more hc hrest =>
      rw [List.append_nil] at hc
      intro hclosing
      rcases List.infix_cons_iff.mp hclosing with hpre | hin
      · exact hc hpre
      · exact ih hrest hin

theorem closing?_of_run {text rest : List Char}
    (h : Peg.Run ['}', '}'] text ('}' :: '}' :: rest)) :
    closing? (text ++ '}' :: '}' :: rest) = some (text, rest) := by
  induction text with
  | nil => rfl
  | cons c text ih =>
    cases h with
    | more hc hrest =>
      rw [List.cons_append]
      unfold closing?
      split
      case h_1 r heq =>
        rw [heq] at hc
        exact (hc (List.prefix_append ['}', '}'] r)).elim
      case h_2 => rw [ih hrest]; rfl

theorem tokenize_cons {c : Char} {cs : List Char} (h : ¬ ['{', '{'] <+: c :: cs) :
    tokenize (c :: cs) = pushLiteral [c] (tokenize cs) := by
  rw [tokenize]
  rintro r rfl rfl
  exact h (List.prefix_append ['{', '{'] r)

theorem tokenize_of_run {c : Char} {text rest : List Char}
    (h : Peg.Run ['{', '{'] (c :: text) rest) :
    tokenize (c :: (text ++ rest)) = pushLiteral (c :: text) (tokenize rest) := by
  induction text generalizing c with
  | nil =>
    cases h with
    | more hc => exact tokenize_cons hc
  | cons d text ih =>
    cases h with
    | more hc hrest =>
      rw [tokenize_cons hc, List.cons_append, ih hrest, pushLiteral_pushLiteral]
      rfl

/-- Without a closing everything is one literal. -/
theorem tokenize_of_closing?_eq_none {cs : List Char} (h : closing? cs = none) :
    tokenize cs = if cs = [] then [] else [.literal cs] := by
  rw [closing?_eq_none_iff] at h
  fun_induction tokenize cs with
  | case1 => rfl
  | case2 r body rest hcl =>
    -- Behind a pair of braces there is a closing.
    exact (h ((((eq_append_of_closing? hcl) ▸ hasClosing_between body rest).cons '{').cons '{')).elim
  | case3 r body rest hcl =>
    exact (h ((((eq_append_of_closing? hcl) ▸ hasClosing_between body rest).cons '{').cons '{')).elim
  | case4 => rfl
  | case5 c r _ ih =>
    rw [ih fun hc ↦ h (hc.cons c), if_neg (List.cons_ne_nil c r)]
    by_cases hr : r = []
    · rw [if_pos hr, hr]; rfl
    · rw [if_neg hr]; rfl

theorem tokenize_opening {r body rest : List Char} (h : closing? r = some (body, rest)) :
    tokenize ('{' :: '{' :: r) =
      if trim body = [] then pushLiteral ('{' :: '{' :: body ++ ['}', '}']) (tokenize rest)
      else .expression (trim body) :: tokenize rest := by
  rw [tokenize]
  split
  case h_1 body' rest' heq =>
    rw [h, Option.some.injEq, Prod.mk.injEq] at heq
    obtain ⟨rfl, rfl⟩ := heq
    simp only [List.isEmpty_iff]
  case h_2 heq => simp [h] at heq

theorem tokenize_stray {r : List Char} (h : closing? r = none) :
    tokenize ('{' :: '{' :: r) = pushLiteral ['{', '{'] (tokenize r) := by
  rw [tokenize_of_closing?_eq_none h, tokenize]
  split
  case h_1 heq => simp [h] at heq
  case h_2 =>
    by_cases hr : r = []
    · rw [if_pos hr, hr]; rfl
    · rw [if_neg hr]; rfl

theorem source_pair_append (body rest : List Char) :
    (Segment.pair body).source ++ rest = '{' :: '{' :: (body ++ '}' :: '}' :: rest) := by
  simp [Segment.source]

open Peg.Matches in
/-- Where a closed pair stands, the match of a segment is an expression. -/
theorem segment_matches_pair {body rest : List Char} (read : List Char)
    (hrun : Peg.Run ['}', '}'] body ('}' :: '}' :: rest)) :
    Grammar.segment.Matches ⟨read, (Segment.pair body).source ++ rest⟩
      (some ([⟨.expression, (Segment.pair body).source, [⟨.body, body, []⟩]⟩],
        ⟨read ++ (Segment.pair body).source, rest⟩)) := by
  have hbody : Grammar.body.Matches ⟨read ++ ['{', '{'], body ++ '}' :: '}' :: rest⟩
      (some ([⟨.body, body, []⟩], ⟨read ++ ['{', '{'] ++ body, '}' :: '}' :: rest⟩)) :=
    rule_ok (hrun.matches_upTo _) rfl
  have hopen : (Peg.str ['{', '{']).Matches ⟨read, ['{', '{'] ++ (body ++ '}' :: '}' :: rest)⟩
      (some ([], ⟨read ++ ['{', '{'], body ++ '}' :: '}' :: rest⟩)) := str_ok
  have hclose : (Peg.str ['}', '}']).Matches ⟨read ++ ['{', '{'] ++ body, ['}', '}'] ++ rest⟩
      (some ([], ⟨read ++ ['{', '{'] ++ body ++ ['}', '}'], rest⟩)) := str_ok
  have hall := seq_ok hopen (seq_ok hbody hclose)
  refine choice_left (rule_ok ?_ rfl)
  rw [source_pair_append]
  simpa [Segment.source] using hall

open Peg.Matches in
/-- Where no opening stands, the match of a segment is a literal. -/
theorem segment_matches_literal {c : Char} {text rest : List Char} (read : List Char)
    (hrun : Peg.Run ['{', '{'] (c :: text) rest) :
    Grammar.segment.Matches ⟨read, c :: (text ++ rest)⟩
      (some ([⟨.literal, c :: text, []⟩], ⟨read ++ c :: text, rest⟩)) := by
  cases hrun with
  | more hc hrest =>
    have hfirst := seq_ok (reject_ok (str_fail (p := ⟨read, c :: (text ++ rest)⟩) hc)) any_ok
    have hall := seq_ok hfirst (hrest.matches_upTo (read ++ [c]))
    refine choice_right (rule_fail (seq_fail_left (str_fail hc))) (choice_left (rule_ok ?_ rfl))
    simpa using hall

open Peg.Matches in
/-- An opening without a closing does not begin an expression, and not a literal either. -/
theorem segment_matches_stray {r : List Char} (read : List Char)
    (hrun : Peg.Run ['}', '}'] r []) :
    Grammar.segment.Matches ⟨read, '{' :: '{' :: r⟩
      (some ([⟨.strayOpen, ['{', '{'], []⟩], ⟨read ++ ['{', '{'], r⟩)) := by
  -- The body takes all that is left, so that no braces follow.
  have hbody := hrun.matches_upTo (read ++ ['{', '{'])
  rw [List.append_nil] at hbody
  have hopen : (Peg.str ['{', '{']).Matches ⟨read, '{' :: '{' :: r⟩
      (some ([], ⟨read ++ ['{', '{'], r⟩)) := str_ok
  have hrule : Grammar.body.Matches ⟨read ++ ['{', '{'], r⟩
      (some ([⟨.body, r, []⟩], ⟨read ++ ['{', '{'] ++ r, []⟩)) := rule_ok hbody rfl
  have hclose : (Peg.str ['}', '}']).Matches ⟨read ++ ['{', '{'] ++ r, []⟩ none :=
    str_fail (by simp)
  have hexpression := seq_fail_right hopen (seq_fail_right hrule hclose)
  exact choice_right (rule_fail hexpression)
    (choice_right (rule_fail (seq_fail_left (seq_fail_left (reject_fail hopen))))
      (rule_ok hopen rfl))

open Peg.Matches in
/-- At the end of the text no segment matches. -/
theorem segment_fails_at_end (read : List Char) : Grammar.segment.Matches ⟨read, []⟩ none :=
  choice_right (rule_fail (seq_fail_left (str_fail (by simp))))
    (choice_right (rule_fail (seq_fail_left (seq_fail_right (reject_ok (str_fail (by simp)))
      any_fail))) (rule_fail (str_fail (by simp))))

/-- Behind what has been read, the segments match up to the end of the text, and what they report
is collected to the tokens of the text. -/
def Covers (read cs : List Char) : Prop :=
  ∃ captures, (Peg.many Grammar.segment).Matches ⟨read, cs⟩ (some (captures, ⟨read ++ cs, []⟩)) ∧
    ∀ tokens, captures.foldl collect tokens = join tokens (tokenize cs)

theorem covers_nil (read : List Char) : Covers read [] := by
  refine ⟨[], ?_, fun tokens ↦ ?_⟩
  · rw [List.append_nil]
    exact .many_stop (segment_fails_at_end read)
  · simpa [tokenize] using (join_nil_right tokens).symm

/-- One segment, and what comes of the rest of the text. -/
theorem Covers.more {read text rest : List Char} {x : Capture}
    (hsegment : Grammar.segment.Matches ⟨read, text ++ rest⟩ (some ([x], ⟨read ++ text, rest⟩)))
    (hcollect : ∀ tokens, join (collect tokens x) (tokenize rest) =
      join tokens (tokenize (text ++ rest)))
    (h : Covers (read ++ text) rest) : Covers read (text ++ rest) := by
  obtain ⟨captures, hmatches, htokens⟩ := h
  rw [List.append_assoc] at hmatches
  refine ⟨x :: captures, .many_more hsegment hmatches, fun tokens ↦ ?_⟩
  rw [List.foldl_cons, htokens, hcollect]

theorem collect_expression (tokens : List Token) (text body : List Char) :
    collect tokens ⟨.expression, text, [⟨.body, body, []⟩]⟩ =
      if trim body = [] then appendText tokens text
      else tokens ++ [.expression (trim body)] := rfl

theorem join_collect_pair (tokens : List Token) {body rest : List Char}
    (hrun : Peg.Run ['}', '}'] body ('}' :: '}' :: rest)) :
    join (collect tokens ⟨.expression, (Segment.pair body).source, [⟨.body, body, []⟩]⟩)
        (tokenize rest) =
      join tokens (tokenize ((Segment.pair body).source ++ rest)) := by
  rw [collect_expression, source_pair_append, tokenize_opening (closing?_of_run hrun)]
  split
  case isTrue => exact join_appendText _ _ (by simp [Segment.source])
  case isFalse => exact join_append_expression _ _ _

theorem covers (read cs : List Char) : Covers read cs := by
  -- By the length of the text, since a segment may take any number of characters.
  induction hn : cs.length using Nat.strong_induction_on generalizing read cs with
  | _ n ih =>
    obtain ⟨text, rest, rfl, hrun⟩ := Peg.exists_run ['{', '{'] cs
    cases text with
    | cons c text =>
      -- No opening stands here: a literal is taken, up to the next one.
      have hlt : rest.length < n := by
        rw [← hn, List.length_append, List.length_cons]
        omega
      have hrest := ih rest.length hlt (read ++ c :: text) rest rfl
      refine hrest.more (segment_matches_literal read hrun) fun tokens ↦ ?_
      rw [collect, join_appendText _ _ (List.cons_ne_nil c text), List.cons_append,
        tokenize_of_run hrun]
    | nil =>
      rcases hrun.rest with rfl | ⟨r, rfl⟩
      · exact covers_nil read
      · obtain ⟨body, rest, rfl, hbody⟩ := Peg.exists_run ['}', '}'] r
        rcases hbody.rest with rfl | ⟨rest, rfl⟩
        · -- The opening has no closing, and stands alone.
          rw [List.append_nil] at hn ⊢
          have hlt : body.length < n := by
            rw [← hn]
            simp only [List.nil_append, List.length_append, List.length_cons]
            omega
          have hrest := ih body.length hlt (read ++ ['{', '{']) body rfl
          have hcollect (tokens : List Token) :
              join (collect tokens ⟨.strayOpen, ['{', '{'], []⟩) (tokenize body) =
                join tokens (tokenize (['{', '{'] ++ body)) := by
            rw [collect, join_appendText _ _ (by simp)]
            exact congrArg (join tokens) (tokenize_stray (closing?_of_run_end hbody)).symm
          have hall : Covers read (['{', '{'] ++ body) :=
            hrest.more (segment_matches_stray read hbody) hcollect
          exact hall
        · -- The opening has a closing: a pair is taken.
          have hsource : [] ++ (['{', '{'] ++ (body ++ (['}', '}'] ++ rest))) =
              (Segment.pair body).source ++ rest := (source_pair_append body rest).symm
          rw [hsource] at hn ⊢
          have hlt : rest.length < n := by
            rw [← hn, source_pair_append]
            simp only [List.length_cons, List.length_append]
            omega
          exact (ih rest.length hlt (read ++ (Segment.pair body).source) rest rfl).more
            (segment_matches_pair read hbody) (join_collect_pair · hbody)

/-- The grammar matches every text up to its end, and what it reports is collected to the tokens
of the text. -/
theorem exists_matches_template (cs : List Char) :
    ∃ captures, Grammar.template.Matches ⟨[], cs⟩ (some (captures, ⟨cs, []⟩)) ∧
      tokensOf cs (some (captures, ⟨cs, []⟩)) = tokenize cs := by
  obtain ⟨captures, hmatches, htokens⟩ := covers [] cs
  have hend : (Peg.rule .endOfText .stop).Matches ⟨cs, []⟩
      (some ([⟨.endOfText, [], []⟩], ⟨cs, []⟩)) := .rule_ok (.stop_ok rfl) (by simp)
  refine ⟨_, .seq_ok (.start_ok rfl) (.seq_ok hmatches hend), ?_⟩
  simp [tokensOf, collect, htokens]

/-- Matching the grammar never fails, and the tokens collected from the match are the tokens of the
text. They are determined by the pairs of braces: each pair around a text that is not blank is an
expression, everything else is literal, nothing is lost, and no literal is empty or next to another.
Expressions are trimmed, are not empty and have no `}}` in them. So the test for expressions finds
out whether there is such a pair, and interpolating replaces these pairs and nothing else. -/
theorem tokenize_meets_grammar (cs : List Char) :
    (∃ x, Grammar.template.Matches ⟨[], cs⟩ x) ∧
      (∀ x, Grammar.template.Matches ⟨[], cs⟩ x → x ≠ none ∧ tokensOf cs x = tokenize cs) ∧
      (∃ sources, List.Forall₂ Token.Reads (tokenize cs) sources ∧ sources.flatten = cs) ∧
      (∀ source, .expression source ∈ tokenize cs →
        source ≠ [] ∧ IsTrimmed source ∧ ¬ HasClosing source) ∧
      ∃ segments, Pairing cs segments ∧ (∀ segments', Pairing cs segments' → segments' = segments) ∧
        (∀ tokens, tokens = tokenize cs ↔
          Normal tokens ∧ tokens.flatMap Token.atoms = segments.flatMap Segment.atoms) ∧
        (hasExpression cs = true ↔ ∃ body, .pair body ∈ segments ∧ trim body ≠ []) ∧
        ∀ resolve, interpolate resolve cs = segments.flatMap (Segment.resolved resolve) := by
  obtain ⟨captures, hmatches, htokens⟩ := exists_matches_template cs
  obtain ⟨segments, hpairing, -⟩ := exists_pairing cs
  refine ⟨⟨_, hmatches⟩, fun x hx ↦ ?_, exists_sources cs,
    fun source ↦ of_expression_mem_tokenize, segments, hpairing, fun _ h ↦ h.unique hpairing,
    eq_tokenize_iff hpairing, hasExpression_iff hpairing, interpolate_eq hpairing⟩
  obtain rfl := hx.unique hmatches
  exact ⟨by simp, htokens⟩

end Interpolation

end LiveMarkup
