import LiveMarkup.Markup.Source
import LiveMarkup.Proofs.Markup.Scanning
import Mathlib.Data.List.Chain

/-!
# Reading what was written

Markup is written without any escaping, so not every forest can be read back. A forest in normal
form can: names and values stay clear of the marks that end them, no text is followed by another
one or would be taken for the white space between tags, and a comment or a script does not contain
its own end. What is read from its markup is the forest as the markup shows it: an element with its
tag, its attributes in their order and its children, a text or comment with its data. That is the
forest itself unless a node carries what its kind does not show (`parseMarkup_markupAll`).

The argument has two halves. Scanning the markup of a tree gives the events of the tree, whatever
follows (`scan_markup`); and whatever elements are open, the events of a tree add the tree and leave
the same elements open (`foldl_step_events`), because a closing tag finds its own element innermost.
-/

namespace LiveMarkup

namespace Tree

variable {α : Type}

/-! ## Normal form -/

mutual

/-- The tree as its markup shows it. -/
def shown : Tree α → Tree Unit
  | .node _ k as d cs =>
    match k with
    | .element tag => .element () tag as (shownAll cs)
    | .text => .text () d
    | .comment => .comment () d
    | .fragment => .fragment () (shownAll cs)

/-- The trees as their markup shows them. -/
def shownAll : List (Tree α) → List (Tree Unit)
  | [] => []
  | t :: ts => t.shown :: shownAll ts

end

mutual

/-- Whether no node of the tree carries what its kind does not show: an element no data, a text or
comment neither attributes nor children. -/
def IsShown : Tree α → Prop
  | .node _ k as d cs =>
    match k with
    | .element _ => d = "" ∧ IsShownAll cs
    | .text | .comment => as = [] ∧ cs = []
    | .fragment => as = [] ∧ d = "" ∧ IsShownAll cs

/-- Whether no node of the trees carries what its kind does not show. -/
def IsShownAll : List (Tree α) → Prop
  | [] => True
  | t :: ts => t.IsShown ∧ IsShownAll ts

end

/-- Whether no text stands directly behind another one. -/
def Spaced (ts : List (Tree α)) : Prop :=
  ts.IsChain fun t u ↦ ¬(t.kind = .text ∧ u.kind = .text)

/-- Whether these can be the children of a script: nothing, or a text that is not empty and does
not contain the end of a script. -/
def IsScriptBody : List (Tree α) → Prop
  | [] => True
  | [t] => t.kind = .text ∧ t.data ≠ "" ∧ ¬"</script".toList <:+: lowerAscii t.data
  | _ => False

mutual

/-- Whether a tree can be read back from its markup. -/
def NormalForm : Tree α → Prop
  | .node _ k as d cs =>
    match k with
    | .text => d ≠ "" ∧ '<' ∉ d.toList ∧ (d = " " ∨ allBlank d.toList = false)
    | .comment => ¬"-->".toList <:+: d.toList
    | .fragment => False
    | .element tag =>
      IsTagName tag ∧ as.Writable ∧ (isVoidTag tag = true → cs = []) ∧
        if equalIgnoringCase tag "script" then IsScriptBody cs else NormalFormAll cs ∧ Spaced cs

/-- Whether each of the trees can be read back from its markup. -/
def NormalFormAll : List (Tree α) → Prop
  | [] => True
  | t :: ts => t.NormalForm ∧ NormalFormAll ts

end

/-- A forest that can be read back from its markup. -/
structure NormalForest (ts : List (Tree α)) : Prop where
  trees : NormalFormAll ts
  spaced : Spaced ts
  /-- Blank texts among the roots are left out on reading. -/
  visible : ∀ t ∈ ts, t.isBlankText = false

instance (tag : String) : Decidable (IsTagName tag) :=
  decidable_of_iff (tag.toList ≠ [] ∧ tag.toList.all isTagChar = true)
    ⟨fun h ↦ ⟨h.1, List.all_eq_true.mp h.2⟩, fun h ↦ ⟨h.ne_nil, List.all_eq_true.mpr h.chars⟩⟩

instance (attrs : Attributes) : Decidable attrs.Writable :=
  decidable_of_iff ((∀ x ∈ attrs, x.1.toList ≠ [] ∧ x.1.toList.all isNameChar = true) ∧
      (∀ x ∈ attrs, '"' ∉ x.2.toList) ∧ (attrs.map Prod.fst).Nodup) <| by
    simp only [List.all_eq_true]
    exact ⟨fun h ↦ ⟨h.1, h.2.1, h.2.2⟩, fun h ↦ ⟨h.names, h.values, h.distinct⟩⟩

instance (ts : List (Tree α)) : Decidable (Spaced ts) :=
  inferInstanceAs (Decidable (List.IsChain _ ts))

instance (cs : List (Tree α)) : Decidable (IsScriptBody cs) :=
  match cs with
  | [] => inferInstanceAs (Decidable True)
  | [t] => inferInstanceAs (Decidable (t.kind = .text ∧ t.data ≠ "" ∧ _))
  | _ :: _ :: _ => inferInstanceAs (Decidable False)

mutual

/-- Normal form can be decided. -/
def decideNormalForm : (t : Tree α) → Decidable t.NormalForm
  | .node _ .text _ d _ => inferInstanceAs (Decidable (d ≠ "" ∧ _ ∧ _))
  | .node _ .comment _ d _ => inferInstanceAs (Decidable (¬"-->".toList <:+: d.toList))
  | .node _ .fragment _ _ _ => inferInstanceAs (Decidable False)
  | .node _ (.element tag) as _ cs =>
    have := decideNormalFormAll cs
    inferInstanceAs (Decidable (IsTagName tag ∧ as.Writable ∧ (isVoidTag tag = true → cs = []) ∧
      if equalIgnoringCase tag "script" then IsScriptBody cs else NormalFormAll cs ∧ Spaced cs))

/-- Normal form of each tree can be decided. -/
def decideNormalFormAll : (ts : List (Tree α)) → Decidable (NormalFormAll ts)
  | [] => inferInstanceAs (Decidable True)
  | t :: ts =>
    have := decideNormalForm t
    have := decideNormalFormAll ts
    inferInstanceAs (Decidable (t.NormalForm ∧ NormalFormAll ts))

end

instance (ts : List (Tree α)) : Decidable (NormalForest ts) :=
  have := decideNormalFormAll ts
  decidable_of_iff (NormalFormAll ts ∧ Spaced ts ∧ ∀ t ∈ ts, t.isBlankText = false)
    ⟨fun h ↦ ⟨h.1, h.2.1, h.2.2⟩, fun h ↦ ⟨h.trees, h.spaced, h.visible⟩⟩

mutual

theorem shown_eq_plain (t : Tree α) (h : t.IsShown) : t.shown = t.map fun _ ↦ () := by
  obtain ⟨l, k, as, d, cs⟩ := t
  rw [map]
  rcases k with tag | - | - | -
  · obtain ⟨rfl, hcs⟩ := h
    rw [shown, shownAll_eq_plain cs hcs]
    rfl
  · obtain ⟨rfl, rfl⟩ := h
    rfl
  · obtain ⟨rfl, rfl⟩ := h
    rfl
  · obtain ⟨rfl, rfl, hcs⟩ := h
    rw [shown, shownAll_eq_plain cs hcs]
    rfl

theorem shownAll_eq_plain (ts : List (Tree α)) (h : IsShownAll ts) :
    shownAll ts = mapAll (fun _ ↦ ()) ts := by
  rcases ts with - | ⟨t, ts⟩
  · rfl
  · rw [shownAll, mapAll, shown_eq_plain t h.1, shownAll_eq_plain ts h.2]

end

/-! ## The events of a tree -/

mutual

/-- The events that the markup of a tree is read as. -/
def events : Tree α → List Event
  | .node _ k as d cs =>
    match k with
    | .text => [.leaf (.text () d)]
    | .comment => [.leaf (.comment () d)]
    | .fragment => eventsAll cs
    | .element tag =>
      if isVoidTag tag || equalIgnoringCase tag "script" then
        [.leaf (.element () tag as (shownAll cs))]
      else .opening tag as :: (eventsAll cs ++ [.closing tag])

/-- The events that the markup of trees is read as. -/
def eventsAll : List (Tree α) → List Event
  | [] => []
  | t :: ts => events t ++ eventsAll ts

end

end Tree

open Utf8 Scan

variable {α : Type}

namespace Tree

/-! ## Scanning -/

/-- The markup of anything but a text begins with `<`. -/
theorem exists_markup_eq {t : Tree α} (h : t.NormalForm) (hkind : t.kind ≠ .text) :
    ∃ cs, t.markup = '<' :: cs := by
  obtain ⟨l, k, as, d, cs⟩ := t
  rcases k with tag | - | - | -
  · exact ⟨_, by rw [markup, List.cons_append, List.cons_append]⟩
  · exact absurd rfl hkind
  · exact ⟨_, by rw [markup]; rfl⟩
  · exact absurd h id

theorem atMark_markupAll {t : Tree α} {ts : List (Tree α)} (hspaced : Spaced (t :: ts))
    (hkind : t.kind = .text) (hts : NormalFormAll ts) {rest : List UInt8} (hrest : AtMark rest) :
    AtMark (encode (markupAll ts) ++ rest) := by
  rcases ts with - | ⟨u, us⟩
  · exact hrest
  · have hu : u.kind ≠ .text := fun hu ↦ (List.isChain_cons_cons.mp hspaced).1 ⟨hkind, hu⟩
    obtain ⟨cs, hcs⟩ := exists_markup_eq hts.1 hu
    intro b hb
    rw [markupAll, hcs] at hb
    exact (Option.mem_some.mp hb).symm

/-- An element that can have content is read up to its opening tag, with the rest of its markup
behind it. -/
theorem scan_openingTag {tag : String} {attrs : Attributes} (htag : IsTagName tag)
    (hattrs : attrs.Writable) (body : List Char) (rest : List UInt8) :
    Scan.events (encode ('<' :: tag.toList ++ attributesMarkup attrs ++ '>' :: body) ++ rest) =
      after [(Scan.element tag attrs false (encode body ++ rest)).1]
        (Scan.events (Scan.element tag attrs false (encode body ++ rest)).2) := by
  rw [encode_append, List.append_assoc]
  refine events_openingTag htag hattrs (fun b hb ↦ ?_) (tagBody_of_close (skip_cons rfl _) attrs)
  obtain rfl := Option.mem_some.mp hb
  rfl

theorem scan_void {tag : String} {attrs : Attributes} (htag : IsTagName tag)
    (hattrs : attrs.Writable) (rest : List UInt8) :
    Scan.events (encode ('<' :: tag.toList ++ attributesMarkup attrs ++ ['/', '>']) ++ rest) =
      after [.leaf (.element () tag attrs [])] (Scan.events rest) := by
  rw [encode_append, List.append_assoc]
  have htail : tagBody attrs (encode ['/', '>'] ++ rest) = .ok (attrs, true, rest) :=
    tagBody_of_slash (skip_cons rfl _) attrs
  refine events_openingTag htag hattrs (fun b hb ↦ ?_) htail
  obtain rfl := Option.mem_some.mp hb
  rfl

theorem scan_script {tag : String} {attrs : Attributes} {cs : List (Tree α)}
    (htag : IsTagName tag) (hattrs : attrs.Writable)
    (hscript : equalIgnoringCase tag "script" = true) (hvoid : isVoidTag tag = false)
    (h : IsScriptBody cs) (rest : List UInt8) :
    Scan.events (encode ('<' :: tag.toList ++ attributesMarkup attrs ++
        '>' :: (markupAll cs ++ '<' :: '/' :: tag.toList ++ ['>'])) ++ rest) =
      after [.leaf (.element () tag attrs (shownAll cs))] (Scan.events rest) := by
  obtain ⟨s, hmarkup, hend, hshown⟩ : ∃ s : String, markupAll cs = s.toList ∧
      (¬"</script".toList <:+: lowerAscii s) ∧
      shownAll cs = if (encode s.toList).isEmpty then [] else [.text () s] := by
    rcases cs with - | ⟨⟨l, k, as, d, ds⟩, - | ⟨u, us⟩⟩
    · exact ⟨"", rfl, by decide, rfl⟩
    · obtain ⟨rfl, hne, hend⟩ := h
      refine ⟨d, by rw [markupAll, markup, markupAll, List.append_nil], hend, ?_⟩
      -- An empty text would not be read, so this one must not be empty.
      rw [if_neg, shownAll, shownAll, shown]
      intro hempty
      have hnil := encode_injective ((List.isEmpty_iff.mp hempty).trans encode_nil.symm)
      refine hne ?_
      rw [data, ← String.ofList_toList (s := d), hnil]
    · exact absurd h id
  have helement : Scan.element tag attrs false
      (encode (s.toList ++ '<' :: '/' :: tag.toList ++ ['>']) ++ rest) =
        (.leaf (.element () tag attrs (shownAll cs)), rest) := by
    rw [Scan.element, Bool.false_or, hvoid, if_neg Bool.false_ne_true, if_pos hscript,
      scriptBody_append hscript hend, hshown]
    simp only [pieceText_encode]
  rw [scan_openingTag htag hattrs, hmarkup, helement]

mutual

theorem scan_markup (t : Tree α) (h : t.NormalForm) {rest : List UInt8}
    (hrest : t.kind = .text → AtMark rest) :
    Scan.events (encode t.markup ++ rest) = after t.events (Scan.events rest) := by
  obtain ⟨l, k, as, d, cs⟩ := t
  rcases k with tag | - | - | -
  · obtain ⟨htag, hattrs, hvoid, hcs⟩ := h
    rw [markup]
    by_cases hvoidTag : isVoidTag tag = true
    · obtain rfl := hvoid hvoidTag
      rw [List.isEmpty_nil, hvoidTag, Bool.and_self, if_pos rfl, scan_void htag hattrs, events,
        hvoidTag, Bool.true_or, if_pos rfl, shownAll]
    rw [Bool.not_eq_true] at hvoidTag
    rw [hvoidTag, Bool.and_false, if_neg Bool.false_ne_true, events, hvoidTag, Bool.false_or]
    by_cases hscript : equalIgnoringCase tag "script" = true
    · rw [if_pos hscript] at hcs ⊢
      exact scan_script htag hattrs hscript hvoidTag hcs rest
    · rw [if_neg hscript] at hcs ⊢
      -- The children are followed by the closing tag, so a text among them ends before it.
      have hrest : AtMark (encode ('<' :: '/' :: tag.toList ++ ['>']) ++ rest) :=
        fun b hb ↦ (Option.mem_some.mp hb).symm
      have helement : ∀ bs, Scan.element tag as false bs = (.opening tag as, bs) := fun bs ↦ by
        rw [Scan.element, Bool.false_or, hvoidTag, if_neg Bool.false_ne_true, if_neg hscript]
      have hbody : '>' :: markupAll cs ++ '<' :: '/' :: tag.toList ++ ['>'] =
          '>' :: (markupAll cs ++ ('<' :: '/' :: tag.toList ++ ['>'])) := by
        rw [List.append_assoc, List.cons_append]
      rw [hbody, scan_openingTag htag hattrs, helement, encode_append, List.append_assoc,
        scan_markupAll cs hcs.1 hcs.2 hrest, events_closingTag htag, after_after, after_after]
      rfl
  · obtain ⟨hne, hmark, hblank⟩ := h
    rw [markup, events]
    exact events_text hne hmark hblank (hrest rfl)
  · rw [markup, events]
    exact events_comment h rest
  · exact absurd h id

theorem scan_markupAll (ts : List (Tree α)) (h : NormalFormAll ts) (hspaced : Spaced ts)
    {rest : List UInt8} (hrest : AtMark rest) :
    Scan.events (encode (markupAll ts) ++ rest) = after (eventsAll ts) (Scan.events rest) := by
  rcases ts with - | ⟨t, ts⟩
  · rfl
  · rw [markupAll, encode_append, List.append_assoc,
      scan_markup t h.1 fun hkind ↦ atMark_markupAll hspaced hkind h.2 hrest,
      scan_markupAll ts h.2 hspaced.tail hrest, after_after, eventsAll]

end

end Tree

/-! ## Growing the forest -/

namespace Growth

/-- Adds complete trees, one after the other. -/
def addAll (g : Growth) (ts : List (Tree Unit)) : Growth := ts.foldl (fun g t ↦ g.add t) g

theorem addAll_open (o : OpenElement) (os : List OpenElement) (roots ts : List (Tree Unit)) :
    addAll ⟨o :: os, roots⟩ ts = ⟨{ o with children := o.children ++ ts } :: os, roots⟩ := by
  induction ts generalizing o with
  | nil => rw [List.append_nil]; rfl
  | cons t ts ih =>
    refine (ih { o with children := o.children ++ [t] }).trans ?_
    rw [List.append_assoc, List.singleton_append]

theorem addAll_roots (roots ts : List (Tree Unit)) : addAll ⟨[], roots⟩ ts = ⟨[], roots ++ ts⟩ := by
  induction ts generalizing roots with
  | nil => rw [List.append_nil]; rfl
  | cons t ts ih =>
    refine (ih (roots ++ [t])).trans ?_
    rw [List.append_assoc, List.singleton_append]

/-- A closing tag ends the innermost open element if that has its tag. -/
theorem step_closing (tag : String) (attrs : Attributes) (children : List (Tree Unit))
    (os : List OpenElement) (roots : List (Tree Unit)) :
    Growth.step ⟨⟨tag, attrs, children⟩ :: os, roots⟩ (.closing tag) =
      Growth.add (.element () tag attrs children) ⟨os, roots⟩ := by
  rw [step, List.findIdx?_cons, if_pos (equalIgnoringCase_self tag)]
  rfl

end Growth

namespace Tree

mutual

theorem foldl_step_events (t : Tree α) (h : t.NormalForm) (g : Growth) :
    t.events.foldl Growth.step g = g.add t.shown := by
  obtain ⟨l, k, as, d, cs⟩ := t
  rcases k with tag | - | - | -
  · obtain ⟨-, -, hvoid, hcs⟩ := h
    rw [events, shown]
    by_cases hleaf : (isVoidTag tag || equalIgnoringCase tag "script") = true
    · rw [if_pos hleaf]
      rfl
    · rw [if_neg hleaf]
      rw [Bool.or_eq_true, not_or] at hleaf
      rw [if_neg hleaf.2] at hcs
      -- Whatever is open already, the children go to the element that has just been opened.
      obtain ⟨os, roots⟩ := g
      rw [List.foldl_cons, Growth.step, List.foldl_append, foldl_step_eventsAll cs hcs.1,
        Growth.addAll_open, List.nil_append, List.foldl_cons, Growth.step_closing]
      rfl
  · rfl
  · rfl
  · exact absurd h id

theorem foldl_step_eventsAll (ts : List (Tree α)) (h : NormalFormAll ts) (g : Growth) :
    (eventsAll ts).foldl Growth.step g = g.addAll (shownAll ts) := by
  rcases ts with - | ⟨t, ts⟩
  · rfl
  · rw [eventsAll, List.foldl_append, foldl_step_events t h.1, foldl_step_eventsAll ts h.2,
      shownAll]
    rfl

end

theorem forestOf_eventsAll {ts : List (Tree α)} (h : NormalFormAll ts) :
    forestOf (eventsAll ts) = shownAll ts := by
  rw [forestOf, foldl_step_eventsAll ts h, Growth.empty, Growth.addAll_roots, List.nil_append]
  rfl

@[simp] theorem isBlankText_shown (t : Tree α) : t.shown.isBlankText = t.isBlankText := by
  obtain ⟨l, k, as, d, cs⟩ := t
  rcases k with tag | - | - | - <;> rfl

theorem forall_mem_shownAll {ts : List (Tree α)} (h : ∀ t ∈ ts, t.isBlankText = false) :
    ∀ t ∈ shownAll ts, t.isBlankText = false := by
  induction ts with
  | nil => exact fun _ ht ↦ absurd ht List.not_mem_nil
  | cons t ts ih =>
    obtain ⟨ht, hts⟩ := List.forall_mem_cons.mp h
    exact List.forall_mem_cons.mpr ⟨(isBlankText_shown t).trans ht, ih hts⟩

end Tree

/-- The markup of a forest in normal form is read as the forest that the markup shows. -/
theorem parseMarkup_eq_shownAll {ts : List (Tree α)} (h : Tree.NormalForest ts) :
    parseMarkup (String.ofList (Tree.markupAll ts)) = .ok (Tree.shownAll ts) := by
  have hscan : Scan.events (encode (Tree.markupAll ts)) = (Tree.eventsAll ts, none) := by
    have hend : AtMark [] := fun _ hb ↦ absurd hb (by simp)
    have hall := Tree.scan_markupAll ts h.trees h.spaced hend
    rw [List.append_nil, Scan.events, after, List.append_nil] at hall
    exact hall
  have hreading : Reading.ofSource (String.ofList (Tree.markupAll ts)) =
      ⟨Tree.eventsAll ts, none⟩ := by
    rw [Reading.ofSource, String.toList_ofList, hscan]
    rfl
  rw [parseMarkup, hreading]
  simp only [Reading.forest, Tree.forestOf_eventsAll h.trees]
  refine congrArg _ (List.filter_eq_self.mpr fun t ht ↦ ?_)
  rw [Tree.forall_mem_shownAll h.visible t ht]
  rfl

/-- **Reading undoes writing.** The markup of a forest in normal form is read as the forest that
the markup shows, which is the forest itself if no node carries what its kind does not show. -/
theorem parseMarkup_markupAll {ts : List (Tree α)} (h : Tree.NormalForest ts) :
    parseMarkup (String.ofList (Tree.markupAll ts)) = .ok (Tree.shownAll ts) ∧
      (Tree.IsShownAll ts →
        parseMarkup (String.ofList (Tree.markupAll ts)) =
          .ok (Tree.mapAll (fun _ ↦ ()) ts)) := by
  refine ⟨parseMarkup_eq_shownAll h, fun hshown ↦ ?_⟩
  rw [parseMarkup_eq_shownAll h, Tree.shownAll_eq_plain ts hshown]

/-- A page with a comment, empty tags, scripts, and marks in all places where they end nothing. -/
def page : List (Tree Unit) :=
  [.comment () " <main> --- ",
    .element () "Main" [("id", "é"), ("@click", "a > b"), ("v-bind:x.y", "it's </main>")]
      [.text () "größer > als",
        .element () "BR" [("class", "/>")] [],
        .text () " ",
        .element () "Script" [("src", "")] [.text () " if (a < b) '</scrip'"],
        .element () "script" [] [],
        .element () "main" [] [.comment () "", .element () "p" [] [.text () "--> "]]],
    .text () "\u2028 end"]

theorem parseMarkup_page : Tree.NormalForest page ∧ Tree.IsShownAll page ∧
    parseMarkup (String.ofList (Tree.markupAll page)) = .ok (Tree.mapAll (fun _ ↦ ()) page) := by
  have hnormal : Tree.NormalForest page := by decide
  have hshown : Tree.IsShownAll page := by
    simp [page, Tree.element, Tree.text, Tree.comment, Tree.IsShownAll, Tree.IsShown]
  exact ⟨hnormal, hshown, (parseMarkup_markupAll hnormal).2 hshown⟩

/-- A text that has been given an attribute. -/
def attributedText : Tree Unit := .node () .text [("a", "1")] "x" []

/-- The attribute of a text is not written, so reading does not restore it. -/
theorem parseMarkup_attributedText_ne : Tree.NormalForest [attributedText] ∧
    parseMarkup (String.ofList (Tree.markupAll [attributedText])) ≠
      .ok (Tree.mapAll (fun _ ↦ ()) [attributedText]) := by
  have hnormal : Tree.NormalForest [attributedText] := by decide
  refine ⟨hnormal, ?_⟩
  rw [parseMarkup_eq_shownAll hnormal]
  intro h
  have hattrs := congrArg (List.map Tree.attrs) (Except.ok.inj h)
  exact absurd hattrs (by decide)

end LiveMarkup
