import LiveMarkup.Text.Blank

/-!
# Interpolation

A text can hold expressions between `{{` and `}}`. Reading from the left, an opening `{{` pairs
with the first `}}` behind it; the trimmed text between them is an expression unless it is blank.
A pair around blank text, everything outside the pairs, and an opening without a later `}}` are
literal text. Neighbouring literals are one token, so that no two literals stand side by side.
-/

namespace LiveMarkup

/-- A part of an interpolated text. -/
inductive Token where
  /-- Text that stands for itself. -/
  | literal (text : List Char)
  /-- A trimmed expression. -/
  | expression (source : List Char)
deriving DecidableEq, Repr

namespace Token

/-- Whether the token is an expression. -/
def isExpression : Token → Bool
  | .expression _ => true
  | .literal _ => false

end Token

namespace Interpolation

/-- The text before the first `}}` and the text behind it. -/
def closing? : List Char → Option (List Char × List Char)
  | [] => none
  | c :: r =>
    match c, r with
    | '}', '}' :: r => some ([], r)
    | c, r => (closing? r).map fun (body, rest) ↦ (c :: body, rest)

theorem eq_append_of_closing? {cs body rest : List Char} (h : closing? cs = some (body, rest)) :
    cs = body ++ '}' :: '}' :: rest := by
  induction cs generalizing body with
  | nil => simp [closing?] at h
  | cons c r ih =>
    unfold closing? at h
    split at h
    · simp only [Option.some.injEq, Prod.mk.injEq] at h
      obtain ⟨rfl, rfl⟩ := h
      rfl
    · obtain ⟨⟨b, r'⟩, hb, h⟩ := Option.map_eq_some_iff.1 h
      simp only [Prod.mk.injEq] at h
      obtain ⟨rfl, rfl⟩ := h
      rw [ih hb]
      rfl

/-- Puts literal text in front of tokens, as part of a literal that stands first. -/
def pushLiteral (text : List Char) : List Token → List Token
  | .literal t :: tokens => .literal (text ++ t) :: tokens
  | tokens => .literal text :: tokens

/-- The tokens of a text. -/
def tokenize (cs : List Char) : List Token :=
  match cs with
  | [] => []
  | '{' :: '{' :: r =>
    match _h : closing? r with
    | some (body, rest) =>
      if (trim body).isEmpty then pushLiteral ('{' :: '{' :: body ++ ['}', '}']) (tokenize rest)
      else .expression (trim body) :: tokenize rest
    | none => [.literal ('{' :: '{' :: r)]
  | c :: r => pushLiteral [c] (tokenize r)
termination_by cs.length
decreasing_by
  all_goals simp_wf
  all_goals first
    | omega
    | have h := congrArg List.length (eq_append_of_closing? _h)
      simp at h
      omega

/-- Whether the text contains an opening `{{`. -/
def hasOpening : List Char → Bool
  | '{' :: '{' :: _ => true
  | _ :: r => hasOpening r
  | [] => false

/-- Whether the text contains an expression. A text without an opening is rejected without a
closer look. -/
def hasExpression (cs : List Char) : Bool :=
  hasOpening cs && (tokenize cs).any Token.isExpression

/-- The text with every expression replaced by what `resolve` makes of it. -/
def interpolate (resolve : List Char → List Char) (cs : List Char) : List Char :=
  (tokenize cs).flatMap fun
    | .literal t => t
    | .expression e => resolve e

end Interpolation

end LiveMarkup
