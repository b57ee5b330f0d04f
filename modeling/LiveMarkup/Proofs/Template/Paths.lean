import Mathlib.Data.List.Basic
import LiveMarkup.Template.Expression

/-!
# Texts that are read as paths

A path is read from the text between its dots, and white space around the text or around a dot does
not count. The pieces of a text are those of `List.splitOn` (`splitDots_eq`), and it does not matter
whether white space is trimmed from the text before it is split (`map_trim_splitOn_trim`).

Whatever is no constant is read as a path. A text whose first piece begins like a name, and which is
none of the three words, is no constant (`Expression.parse_of_splitOn`).
-/

namespace LiveMarkup

/-! ## White space at the ends -/

theorem trim_blank_append {l : List Char} (hl : allBlank l = true) (cs : List Char) :
    trim (l ++ cs) = trim cs := by
  rw [trim, trimLeft, List.dropWhile_append_of_pos (List.all_eq_true.mp hl), trim, trimLeft]

theorem trim_append_blank {r : List Char} (hr : allBlank r = true) (cs : List Char) :
    trim (cs ++ r) = trim cs := by
  have hall := List.all_eq_true.mp hr
  have hright (ds : List Char) : trimRight (ds ++ r) = trimRight ds := by
    rw [trimRight, List.reverse_append, List.dropWhile_append_of_pos, trimRight]
    exact fun c hc ↦ hall c (List.mem_reverse.mp hc)
  rw [trim, trim, trimLeft, trimLeft, List.dropWhile_append]
  split
  · rename_i hempty
    have hblank : r.dropWhile isBlank = [] := by
      rw [← List.append_nil r, List.dropWhile_append_of_pos hall, List.dropWhile_nil]
    rw [List.isEmpty_iff.mp hempty, hblank]
  · exact hright _

/-- A text is its trimmed text with white space around it. -/
theorem exists_blanks (cs : List Char) :
    ∃ l r, allBlank l = true ∧ allBlank r = true ∧ cs = l ++ trim cs ++ r := by
  refine ⟨cs.takeWhile isBlank, ((trimLeft cs).reverse.takeWhile isBlank).reverse, ?_, ?_, ?_⟩
  · exact List.all_takeWhile
  · rw [allBlank, List.all_reverse]
    exact List.all_takeWhile
  · have hright : trim cs ++ ((trimLeft cs).reverse.takeWhile isBlank).reverse = trimLeft cs := by
      rw [trim, trimRight, ← List.reverse_append, List.takeWhile_append_dropWhile,
        List.reverse_reverse]
    rw [List.append_assoc, hright]
    exact List.takeWhile_append_dropWhile.symm

theorem not_mem_dot_of_allBlank {cs : List Char} (h : allBlank cs = true) : '.' ∉ cs :=
  fun hdot ↦ Bool.noConfusion (List.all_eq_true.mp h '.' hdot)

/-! ## Pieces -/

theorem splitDots_cons (c : Char) (cs : List Char) :
    splitDots (c :: cs) =
      if c = '.' then ([], (splitDots cs).1 :: (splitDots cs).2)
      else (c :: (splitDots cs).1, (splitDots cs).2) := rfl

theorem splitDots_eq (cs : List Char) : (splitDots cs).1 :: (splitDots cs).2 = cs.splitOn '.' := by
  induction cs with
  | nil => rfl
  | cons c cs ih =>
    rw [splitDots_cons, List.splitOn, List.splitOnP_cons_eq_if_modifyHead, ← List.splitOn, ← ih]
    by_cases hc : c = '.'
    · simp [hc]
    · simp [hc]

/-- White space in front of a text is in front of its first piece. -/
theorem map_trim_splitOn_blank_append {l : List Char} (hl : allBlank l = true) (cs : List Char) :
    ((l ++ cs).splitOn '.').map trim = (cs.splitOn '.').map trim := by
  induction l with
  | nil => rfl
  | cons c l ih =>
    obtain ⟨hc, hl⟩ := Bool.and_eq_true_iff.mp hl
    have hdot : c ≠ '.' := by
      rintro rfl
      exact Bool.noConfusion hc
    rw [← ih hl, ← splitDots_eq, ← splitDots_eq, List.cons_append, splitDots_cons, if_neg hdot,
      List.map_cons, List.map_cons]
    congr 1
    exact trim_blank_append (l := [c]) (by rw [allBlank, List.all_cons, hc]; rfl) _

/-- White space behind a text is behind its last piece. The prefix `p` is what has been read of the
piece that is not complete yet. -/
private theorem map_trim_modifyHead_splitOn {r : List Char} (hr : allBlank r = true)
    (cs p : List Char) :
    (((cs ++ r).splitOn '.').modifyHead (p ++ ·)).map trim =
      ((cs.splitOn '.').modifyHead (p ++ ·)).map trim := by
  induction cs generalizing p with
  | nil =>
    rw [List.nil_append, List.splitOn_eq_singleton (not_mem_dot_of_allBlank hr), List.splitOn_nil]
    simp [trim_append_blank hr]
  | cons c cs ih =>
    rw [← splitDots_eq, ← splitDots_eq, List.cons_append, splitDots_cons, splitDots_cons]
    by_cases hc : c = '.'
    · have hrest := ih []
      rw [← splitDots_eq, ← splitDots_eq] at hrest
      simpa [hc] using hrest
    · have hrest := ih (p ++ [c])
      rw [← splitDots_eq, ← splitDots_eq] at hrest
      simpa [hc] using hrest

theorem map_trim_splitOn_append_blank {r : List Char} (hr : allBlank r = true) (cs : List Char) :
    ((cs ++ r).splitOn '.').map trim = (cs.splitOn '.').map trim := by
  have h := map_trim_modifyHead_splitOn hr cs []
  rw [← splitDots_eq, ← splitDots_eq] at h ⊢
  simpa using h

/-- The trimmed pieces of a text are those of the trimmed text. -/
theorem map_trim_splitOn_trim (cs : List Char) :
    ((trim cs).splitOn '.').map trim = (cs.splitOn '.').map trim := by
  obtain ⟨l, r, hl, hr, hcs⟩ := exists_blanks cs
  calc ((trim cs).splitOn '.').map trim
      = ((l ++ trim cs).splitOn '.').map trim := (map_trim_splitOn_blank_append hl _).symm
    _ = ((l ++ trim cs ++ r).splitOn '.').map trim := (map_trim_splitOn_append_blank hr _).symm
    _ = (cs.splitOn '.').map trim := by rw [← hcs]

/-- The pieces of texts that are joined by dots are the pieces of each. -/
theorem splitOn_intercalate_dot {texts : List (List Char)} (h : texts ≠ []) :
    (['.'].intercalate texts).splitOn '.' = texts.flatMap (List.splitOn '.') := by
  induction texts with
  | nil => exact absurd rfl h
  | cons text texts ih =>
    cases texts with
    | nil => simp
    | cons text' texts =>
      rw [List.intercalate_cons_cons, List.append_assoc, List.singleton_append,
        List.splitOn_append_cons_self, ih (List.cons_ne_nil _ _)]
      rfl

/-! ## Paths -/

namespace Expression

/-- Whether a text begins as no constant does but the three words. -/
def BeginsName (cs : List Char) : Prop :=
  ∃ c r, cs = c :: r ∧ c ≠ '\'' ∧ c ≠ '"' ∧ c ≠ '-' ∧ c.isDigit = false

/-- The three words that are constants. -/
def words : List (List Char) := ["true".toList, "false".toList, "null".toList]

theorem constant?_eq_none {cs : List Char} (hname : BeginsName cs) (hwords : cs ∉ words) :
    constant? cs = none := by
  obtain ⟨c, r, rfl, hquote, hdouble, hminus, hdigit⟩ := hname
  simp only [words, List.mem_cons, List.not_mem_nil, or_false, not_or] at hwords
  obtain ⟨htrue, hfalse, hnull⟩ := hwords
  simp only [constant?, hquote, hdouble, hminus, hdigit, htrue, hfalse, hnull]
  rfl

/-- The first character of a trimmed text is that of its first piece. -/
theorem beginsName_of_splitOn {cs : List Char} (hcs : IsTrimmed cs) {key : List Char}
    {segments : List (List Char)} (hpieces : (cs.splitOn '.').map trim = key :: segments)
    (hkey : BeginsName key) : BeginsName cs := by
  obtain ⟨c, r, rfl, hc⟩ := hkey
  rw [← splitDots_eq, List.map_cons] at hpieces
  have hfirst := (List.cons.inj hpieces).1
  cases cs with
  | nil => exact absurd hfirst.symm (List.cons_ne_nil _ _)
  | cons c' cs =>
    rw [splitDots_cons] at hfirst
    split at hfirst
    · exact absurd hfirst.symm (List.cons_ne_nil _ _)
    · -- the piece begins with a character that is not blank, so trimming leaves it there
      have hblank : isBlank c' = false := hcs.1 c' rfl
      obtain ⟨l, r', hl, -, hsplit⟩ := exists_blanks (c' :: (splitDots cs).1)
      rw [show trim (c' :: (splitDots cs).1) = c :: r from hfirst] at hsplit
      cases l with
      | nil =>
        obtain ⟨rfl, -⟩ := List.cons.inj hsplit
        exact ⟨c', cs, rfl, hc⟩
      | cons b l =>
        obtain ⟨rfl, -⟩ := List.cons.inj hsplit
        have hb := (Bool.and_eq_true_iff.mp hl).1
        exact absurd (hb.symm.trans hblank) Bool.noConfusion

/-- **Reading a path.** -/
theorem parse_of_splitOn {text key : List Char} {segments : List (List Char)}
    (hpieces : (text.splitOn '.').map trim = key :: segments) (hkey : BeginsName key)
    (hwords : segments = [] → key ∉ words) :
    parse text = .path (String.ofList key) segments := by
  have htrimmed : ((trim text).splitOn '.').map trim = key :: segments :=
    (map_trim_splitOn_trim text).trans hpieces
  have hname := beginsName_of_splitOn (isTrimmed_trim text) htrimmed hkey
  have hnowords : trim text ∉ words := by
    intro hmem
    have hsingle : ((trim text).splitOn '.').map trim = [trim text] := by
      simp only [words, List.mem_cons, List.not_mem_nil, or_false] at hmem
      rcases hmem with h | h | h <;> rw [h] <;> rfl
    obtain ⟨rfl, rfl⟩ := List.cons.inj (hsingle.symm.trans htrimmed)
    exact hwords rfl hmem
  have hnonempty : (trim text).isEmpty = false := by
    obtain ⟨c, r, hcs, -⟩ := hname
    rw [hcs]
    rfl
  have hofPath : ofPath (trim text) = .path (String.ofList key) segments := by
    rw [← splitDots_eq, List.map_cons] at htrimmed
    obtain ⟨hhead, htail⟩ := List.cons.inj htrimmed
    rw [← hhead, ← htail]
    rfl
  rw [parse, constant?_eq_none hname hnowords, hofPath, hnonempty]
  rfl

end Expression

end LiveMarkup
