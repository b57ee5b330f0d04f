/-!
# Marks

A set of numbers below a bound, as an array with a mark for each of them. It is built in one pass
over the members, and a number is looked up in one step.
-/

namespace LiveMarkup

/-- For each number below the size of the array, whether it is marked. -/
structure Marks where
  marks : Array Bool

namespace Marks

/-- Marks a number; one that is out of bounds is left alone. -/
def mark (m : Marks) (i : Nat) : Marks := ⟨m.marks.setIfInBounds i true⟩

/-- The marks of those of the given numbers that are below `bound`. -/
def ofList (bound : Nat) (is : List Nat) : Marks := is.foldl mark ⟨Array.replicate bound false⟩

/-- Whether a number is marked. -/
def has (m : Marks) (i : Nat) : Bool := m.marks.getD i false

theorem size_mark (m : Marks) (i : Nat) : (m.mark i).marks.size = m.marks.size := by
  simp [mark]

theorem has_mark (m : Marks) (i j : Nat) :
    (m.mark i).has j = ((i == j && decide (i < m.marks.size)) || m.has j) := by
  unfold mark has
  by_cases h : i = j
  · subst h
    by_cases hi : i < m.marks.size <;>
      simp [Array.getD_eq_getD_getElem?, hi]
  · simp [Array.getD_eq_getD_getElem?, h]

private theorem has_foldl_mark (is : List Nat) (m : Marks) (j : Nat) :
    (is.foldl mark m).has j = ((is.contains j && decide (j < m.marks.size)) || m.has j) := by
  induction is generalizing m with
  | nil => simp
  | cons i is ih =>
    rw [List.foldl_cons, ih, has_mark, size_mark]
    by_cases h : j = i
    · subst h
      cases is.contains j <;> cases decide (j < m.marks.size) <;> simp
    · have h' : (i == j) = false := by simpa using Ne.symm h
      simp [h, h']

/-- Exactly the given numbers below the bound are marked. -/
theorem has_ofList (bound : Nat) (is : List Nat) (i : Nat) :
    (ofList bound is).has i = (is.contains i && decide (i < bound)) := by
  rw [ofList, has_foldl_mark]
  by_cases h : i < bound <;> simp [has, Array.getD_eq_getD_getElem?, h]

end Marks

end LiveMarkup
