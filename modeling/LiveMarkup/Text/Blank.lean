/-!
# White space

Which characters count as blank, and how text is trimmed.

Blank is the Unicode property `White_Space`: the ASCII controls from tab to carriage return, the
space, U+0085, the no-break space, the Ogham space, the spaces U+2000 to U+200A, the two
separators and the four wide or narrow spaces. Zero-width characters such as U+200B and U+FEFF
are not in it. Everything that trims an expression, a path segment or an attribute's parts, and
everything that asks whether a text is only white space, uses this one class.
-/

namespace LiveMarkup

/-- The Unicode property `White_Space`. -/
def isBlank (c : Char) : Bool :=
  let n := c.toNat
  (9 ≤ n && n ≤ 13) || n == 0x20 || n == 0x85 || n == 0xA0 || n == 0x1680 ||
    (0x2000 ≤ n && n ≤ 0x200A) || n == 0x2028 || n == 0x2029 || n == 0x202F || n == 0x205F ||
    n == 0x3000

/-- The class of core's `Char.isWhitespace` lies inside the Unicode property. -/
theorem isBlank_of_isWhitespace {c : Char} (h : c.isWhitespace = true) : isBlank c = true := by
  simp only [Char.isWhitespace, Bool.or_eq_true, decide_eq_true_eq] at h
  rcases h with ((rfl | rfl) | rfl) | rfl <;> decide

/-- Whether every character is blank. The empty text is. -/
def allBlank (cs : List Char) : Bool := cs.all isBlank

/-- The text without its leading blanks. -/
def trimLeft (cs : List Char) : List Char := cs.dropWhile isBlank

/-- The text without its trailing blanks. -/
def trimRight (cs : List Char) : List Char := (cs.reverse.dropWhile isBlank).reverse

/-- The text without the blanks at either end. -/
def trim (cs : List Char) : List Char := trimRight (trimLeft cs)

@[simp] theorem trim_nil : trim [] = [] := rfl

/-- A text whose ends are not blank, or which is empty, is left as it is. -/
def IsTrimmed (cs : List Char) : Prop :=
  (∀ c, cs.head? = some c → isBlank c = false) ∧ (∀ c, cs.getLast? = some c → isBlank c = false)

theorem trimLeft_eq_self {cs : List Char} (h : ∀ c, cs.head? = some c → isBlank c = false) :
    trimLeft cs = cs := by
  cases cs with
  | nil => rfl
  | cons c cs => simp [trimLeft, h c rfl]

theorem trimRight_eq_self {cs : List Char} (h : ∀ c, cs.getLast? = some c → isBlank c = false) :
    trimRight cs = cs := by
  have : cs.reverse.dropWhile isBlank = cs.reverse := by
    apply trimLeft_eq_self
    intro c hc
    exact h c (by simpa using hc)
  rw [trimRight, this, List.reverse_reverse]

theorem trim_eq_self {cs : List Char} (h : IsTrimmed cs) : trim cs = cs := by
  rw [trim, trimLeft_eq_self h.1, trimRight_eq_self h.2]

/-- Trimming leaves no blank at either end. -/
theorem isTrimmed_trim (cs : List Char) : IsTrimmed (trim cs) := by
  have head_dropWhile : ∀ (l : List Char) (c : Char),
      (l.dropWhile isBlank).head? = some c → isBlank c = false := by
    intro l c h
    have := List.head?_dropWhile_not isBlank l
    rw [h] at this
    simpa using this
  have suffix_of : ∀ l : List Char, ∃ r, l = trimRight l ++ r := by
    intro l
    obtain ⟨r, hr⟩ := List.dropWhile_suffix (l := l.reverse) isBlank
    refine ⟨r.reverse, ?_⟩
    have := congrArg List.reverse hr
    simpa [trimRight] using this.symm
  constructor
  · intro c hc
    obtain ⟨r, hr⟩ := suffix_of (trimLeft cs)
    apply head_dropWhile cs
    change (trimLeft cs).head? = some c
    rw [hr, List.head?_append, show (trimRight (trimLeft cs)).head? = some c from hc]
    rfl
  · intro c hc
    apply head_dropWhile (trimLeft cs).reverse
    simpa [trim, trimRight] using hc

end LiveMarkup
