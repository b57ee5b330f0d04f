import LiveMarkup.Markup.Tree

/-!
# Writing markup

Texts, comments and attribute values are written verbatim, without any escaping. An element whose
tag never has content and which has no children is closed at once, `<br/>`; every other element
has a closing tag. A fragment is written as its children.
-/

namespace LiveMarkup.Tree

variable {α : Type}

/-- Attributes as they stand in an opening tag, each behind a space. -/
def attributesMarkup (attrs : Attributes) : List Char :=
  attrs.flatMap fun (k, v) ↦ ' ' :: k.toList ++ '=' :: '"' :: v.toList ++ ['"']

mutual

/-- The markup of a tree. -/
def markup : Tree α → List Char
  | .node _ k as d cs =>
    match k with
    | .text => d.toList
    | .comment => "<!--".toList ++ d.toList ++ "-->".toList
    | .fragment => markupAll cs
    | .element tag =>
      '<' :: tag.toList ++ attributesMarkup as ++
        if cs.isEmpty && isVoidTag tag then ['/', '>']
        else '>' :: markupAll cs ++ '<' :: '/' :: tag.toList ++ ['>']

/-- The markup of trees, one behind the other. -/
def markupAll : List (Tree α) → List Char
  | [] => []
  | t :: ts => markup t ++ markupAll ts

end

@[simp] theorem markupAll_append (ts us : List (Tree α)) :
    markupAll (ts ++ us) = markupAll ts ++ markupAll us := by
  induction ts with
  | nil => rfl
  | cons t ts ih => simp [markupAll, ih]

end LiveMarkup.Tree
