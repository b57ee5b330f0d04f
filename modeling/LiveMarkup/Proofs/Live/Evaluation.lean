import Mathlib.Data.List.Basic
import LiveMarkup.Proofs.Live.Yields
import LiveMarkup.Proofs.Reactive.Graph

/-!
# Evaluating expressions

Evaluating an expression or an interpolated text answers what it is worth where the fields have
their current values, and does nothing but read the signals of the fields that it mentions. Fields
that do not exist count as `null`, and reading them leaves no trace.
-/

namespace LiveMarkup

variable {C H : Type}

/-! ## Values of texts -/

namespace Expression

/-- The value of an expression as text, where the fields have the given values. -/
def textWith (field : String → Value) (source : List Char) : String :=
  ((parse source).value field).display

/-- The field that an expression mentions, if it does. -/
def mentioned (source : List Char) : List String := (parse source).field?.toList

theorem value_congr {field field' : String → Value} (e : Expression)
    (h : ∀ name ∈ e.field?, field name = field' name) : e.value field = e.value field' := by
  cases e with
  | constant v => rfl
  | path head segments => rw [value, value, h head rfl]

/-- An expression is worth the same where the field it mentions is. -/
theorem textWith_congr {field field' : String → Value} {source : List Char}
    (h : ∀ name ∈ mentioned source, field name = field' name) :
    textWith field source = textWith field' source := by
  rw [textWith, textWith, value_congr (parse source) fun name hname ↦
    h name (Option.mem_toList.mpr hname)]

end Expression

namespace Token

/-- The text of a token, where the fields have the given values. -/
def textWith (field : String → Value) : Token → List Char
  | .literal text => text
  | .expression source => (Expression.textWith field source).toList

/-- The fields that a token mentions. -/
def mentioned : Token → List String
  | .literal _ => []
  | .expression source => Expression.mentioned source

end Token

namespace Interpolation

/-- A text with its expressions replaced by their values, where the fields have the given ones. -/
def textWith (field : String → Value) (template : List Char) : List Char :=
  interpolate (fun source ↦ (Expression.textWith field source).toList) template

/-- The fields that the expressions of a text mention. -/
def mentioned (template : List Char) : List String := (tokenize template).flatMap Token.mentioned

theorem textWith_eq (field : String → Value) (template : List Char) :
    textWith field template = (tokenize template).flatMap (Token.textWith field) := by
  rw [textWith, interpolate]
  refine List.flatMap_congr fun token _ ↦ ?_
  cases token <;> rfl

theorem textWith_congr {field field' : String → Value} {template : List Char}
    (h : ∀ name ∈ mentioned template, field name = field' name) :
    textWith field template = textWith field' template := by
  rw [textWith_eq, textWith_eq]
  refine List.flatMap_congr fun token htoken ↦ ?_
  cases token with
  | literal text => rfl
  | expression source =>
    rw [Token.textWith, Token.textWith, Expression.textWith_congr]
    intro name hname
    exact h name (List.mem_flatMap.mpr ⟨_, htoken, hname⟩)

end Interpolation

/-! ## Reads -/

namespace State

/-- The state in which signals were read one after the other. -/
def trackAll {V R W : Type} (st : State V R W) (ss : List SignalId) : State V R W :=
  st.withGraph (ss.foldl Graph.track st.graph)

@[simp] theorem world_trackAll {V R W : Type} (st : State V R W) (ss : List SignalId) :
    (st.trackAll ss).world = st.world := rfl

theorem trackAll_append {V R W : Type} (st : State V R W) (ss ts : List SignalId) :
    st.trackAll (ss ++ ts) = (st.trackAll ss).trackAll ts := by
  rw [trackAll, List.foldl_append]
  rfl

@[simp] theorem value_trackAll {V R W : Type} [Inhabited V] (st : State V R W)
    (ss : List SignalId) (s : SignalId) : (st.trackAll ss).graph.value s = st.graph.value s := by
  induction ss generalizing st with
  | nil => rfl
  | cons s' ss ih =>
    have hstep : st.trackAll (s' :: ss) = (st.withGraph (st.graph.track s')).trackAll ss := rfl
    rw [hstep, ih, graph_withGraph, Graph.value_track]

/-- The value of a field; `null` if it does not exist. -/
def fieldValue (st : LiveState C H) (vm : ViewModelId) (name : String) : Value :=
  match (st.world.viewModel vm).field? name with
  | some s => st.graph.value s
  | none => .null

/-- The signals of those of the given fields that exist. -/
def signalsOf (st : LiveState C H) (vm : ViewModelId) (names : List String) : List SignalId :=
  names.filterMap (st.world.viewModel vm).field?

@[simp] theorem fieldValue_trackAll (st : LiveState C H) (ss : List SignalId) (vm : ViewModelId) :
    (st.trackAll ss).fieldValue vm = st.fieldValue vm := by
  funext name
  rw [fieldValue, fieldValue, world_trackAll]
  split
  · exact value_trackAll st ss _
  · rfl

theorem signalsOf_trackAll (st : LiveState C H) (ss : List SignalId) (vm : ViewModelId)
    (names : List String) : (st.trackAll ss).signalsOf vm names = st.signalsOf vm names := rfl

end State

namespace Runner.Yields

variable {r : LiveRunner C H} {limit : Nat} (vm : ViewModelId)

theorem get (name : String) (st : LiveState C H) :
    r.Yields limit (vm.get name) st (st.fieldValue vm name)
      (st.trackAll (st.signalsOf vm [name])) := by
  refine (ask (fun w ↦ (w.viewModel vm).field? name) st).bind ?_
  rw [State.fieldValue, State.signalsOf, List.filterMap_cons]
  cases (st.world.viewModel vm).field? name with
  | none => rfl
  | some s => rfl

theorem evaluate (source : List Char) (st : LiveState C H) :
    r.Yields limit (vm.evaluate source) st ((Expression.parse source).value (st.fieldValue vm))
      (st.trackAll (st.signalsOf vm (Expression.mentioned source))) := by
  rw [ViewModelId.evaluate, Expression.mentioned]
  cases Expression.parse source with
  | constant v => exact done v st
  | path head segments => exact (get vm head st).bind (done _ _)

theorem evaluateText (source : List Char) (st : LiveState C H) :
    r.Yields limit (vm.evaluateText source) st (Expression.textWith (st.fieldValue vm) source)
      (st.trackAll (st.signalsOf vm (Expression.mentioned source))) :=
  (evaluate vm source st).bind (done _ _)

theorem interpolateTokens (tokens : List Token) (st : LiveState C H) :
    r.Yields limit (vm.interpolateTokens tokens) st
      (tokens.flatMap (Token.textWith (st.fieldValue vm)))
      (st.trackAll (st.signalsOf vm (tokens.flatMap Token.mentioned))) := by
  induction tokens generalizing st with
  | nil => exact done [] st
  | cons token tokens ih =>
    rw [List.flatMap_cons, List.flatMap_cons]
    cases token with
    | literal text => exact (ih st).bind (done _ _)
    | expression source =>
      have hrest := ih (st.trackAll (st.signalsOf vm (Expression.mentioned source)))
      rw [State.fieldValue_trackAll, State.signalsOf_trackAll, ← State.trackAll_append,
        State.signalsOf, State.signalsOf, ← List.filterMap_append] at hrest
      exact (evaluateText vm source st).bind (hrest.bind (done _ _))

/-- An interpolated text is worth what it is where the fields have their current values. -/
theorem interpolate (template : String) (st : LiveState C H) :
    r.Yields limit (vm.interpolate template) st
      (String.ofList (Interpolation.textWith (st.fieldValue vm) template.toList))
      (st.trackAll (st.signalsOf vm (Interpolation.mentioned template.toList))) := by
  rw [Interpolation.textWith_eq]
  exact (interpolateTokens vm _ st).bind (done _ _)

end Runner.Yields

end LiveMarkup
