/-!
# Lines

The lines of a text are what its line feeds separate. A line feed may come with one carriage return
in front of it, which is no part of the line either. What follows the last line feed is a line only
if it is not empty, so that a text that ends in a line feed does not have an empty line at its end.
-/

namespace LiveMarkup

namespace Lines

/-- The lines of a text. -/
def ofChars : List Char → List (List Char)
  | [] => []
  | '\n' :: rest => [] :: ofChars rest
  | '\r' :: '\n' :: rest => [] :: ofChars rest
  | c :: rest =>
    match ofChars rest with
    | [] => [[c]]
    | line :: lines => (c :: line) :: lines

/-- A line holds no line feed. -/
theorem lineFeed_not_mem_ofChars (cs : List Char) : ∀ line ∈ ofChars cs, '\n' ∉ line := by
  fun_induction ofChars cs with
  | case1 => simp
  | case2 rest ih => simpa using ih
  | case3 rest ih => simpa using ih
  | case4 c rest h1 h2 h ih => simpa using fun e ↦ h1 e.symm
  | case5 c rest h1 h2 line lines h ih =>
    rw [h, List.forall_mem_cons] at ih
    rw [List.forall_mem_cons]
    exact ⟨by simpa using ⟨fun e ↦ h1 e.symm, ih.1⟩, ih.2⟩

/-- The lines of a text. -/
def ofString (s : String) : List String := (ofChars s.toList).map String.ofList

end Lines

end LiveMarkup
