import LiveMarkup.Proofs.Live.Installing

/-!
# Drawing pictures

With the directives of this library, carrying out the program of a node draws a picture
(`State.Draws`): it installs the effects for the holes, and leaves the trees with the current texts
in them. Each program of a node does one of three things. An interpolated text gives its place to
texts, one for each token; a text area gets a single text; attributes are worked off.
-/

namespace LiveMarkup

variable {C H : Type}

namespace State

/-- Whether a picture of a design is drawn below `q` between two states, and nothing else is changed
but the nodes of `X`. -/
structure Draws (vm : ViewModelId) (q : Option NodeId) (X : List NodeId) (D : Design) (P : Picture)
    (st st' : LiveState C H) : Prop where
  installs : st.Installs vm P.holes st'
  fits : P.Fits D
  shows : ∀ v, P.Current v (st.fieldValue vm) →
    st'.world.nodes.Shows id (Tree.asNodesAll q (P.forest v))
  agrees : st.world.nodes.Agrees id X st'.world.nodes

namespace Draws

variable {vm : ViewModelId} {q : Option NodeId} {X Y Z : List NodeId} {D E : Design}
  {P Q : Picture} {st st₁ st₂ : LiveState C H}

/-- Trees that are left alone are drawn. -/
theorem still {ts : List (Tree NodeId)} (hinstalls : st.Installs vm [] st₁)
    (hnodes : st₁.world.nodes = st.world.nodes) (hts : (Tree.labelsAll ts).Nodup)
    (hsketch : D.sketch = .still (Tree.mapAll (fun _ ↦ ()) ts))
    (htarget : ∀ field, Tree.markupAll ts = Tree.markupAll (D.target field) ∧
      ts.isEmpty = (D.target field).isEmpty)
    (hst : st.world.nodes.Shows id (Tree.asNodesAll q ts)) :
    st.Draws vm q [] D (.still ts) st₁ where
  installs := hinstalls
  fits := .still hts hsketch htarget
  shows _ _ := hnodes ▸ hst
  agrees := hnodes ▸ NodeStore.Agrees.refl _ _ _

theorem mono (h : st.Draws vm q X D P st₁) (hXY : X ⊆ Y) : st.Draws vm q Y D P st₁ :=
  ⟨h.installs, h.fits, h.shows, h.agrees.mono hXY⟩

/-- Pictures are drawn in a row, if the second leaves the first alone. -/
theorem append (h : st.Draws vm q X D P st₁) (h' : st₁.Draws vm q Y E Q st₂)
    (hlabels : List.Disjoint P.labels Q.labels) (hY : ∀ n ∈ P.labels, n ∉ Y) (hXZ : X ⊆ Z)
    (hYZ : Y ⊆ Z) : st.Draws vm q Z (D.append E) (P.append Q) st₂ where
  installs := h.installs.trans h'.installs
  fits := h.fits.append h'.fits hlabels (h.installs.trans h'.installs).nodup
  shows v hv := by
    obtain ⟨hp, hq⟩ := Picture.current_append.mp hv
    change st₂.world.nodes.Shows id (Tree.asNodesAll q (P.forest v ++ Q.forest v))
    rw [Tree.asNodesAll_append, NodeStore.shows_append]
    refine ⟨(h.shows v hp).of_agrees h'.agrees fun x hx ↦ hY _ ?_, h'.shows v ?_⟩
    · rw [← h.fits.sound.labels v]
      exact Tree.mem_labelsAll_of_mem_asNodesAll hx
    · rwa [h.installs.fieldValue]
  agrees := (h.agrees.mono hXZ).trans (h'.agrees.mono hYZ)

/-- A picture of a design is one of any design that asks for the same and promises as much. -/
theorem of_eq (h : st.Draws vm q X D P st₁)
    (htarget : ∀ field, Tree.markupAll (D.target field) = Tree.markupAll (E.target field) ∧
      (D.target field).isEmpty = (E.target field).isEmpty)
    (hsimple : E.simple → D.simple ∧ D.heads ⊆ E.heads) (hsketch : D.sketch = E.sketch) :
    st.Draws vm q X E P st₁ :=
  ⟨h.installs, h.fits.of_eq htarget hsimple hsketch, h.shows, h.agrees⟩

/-- A node is drawn once its attributes are, and the trees below it. -/
theorem below {n m : NodeId} {kind : NodeKind} {attrs : Attributes} {data : String}
    {own : Touches} {own' : List (String × Upkeep)} {target : (String → Value) → Attributes}
    {heads : List String} {simple : Prop}
    (hinstalls : st.Installs vm (own.map Prod.snd ++ P.holes) st₁) (hP : P.Fits D)
    (hshows : ∀ v, P.Current v (st.fieldValue vm) →
      st₁.world.nodes.Shows id (Tree.asNodesAll (some n) (P.forest v)))
    (hn : n ∉ P.labels) (hbare : own.map (fun x ↦ (x.1, x.2.2.bare)) = own')
    (hpaints : own.Paints attrs target)
    (hown : ∀ x ∈ own, x.2.2.node = n ∧ x.2.2.KeepsShape kind)
    (hsimple : simple → own.Simple attrs ∧ ∀ x ∈ own, x.2.2.mentioned ⊆ heads)
    (hlt : n.index < st₁.world.nodes.size)
    (hget : st₁.world.nodes.get n = {
      kind, attrs := target (st.fieldValue vm), data, children := P.roots, parent := q })
    (hagrees : st.world.nodes.Agrees id X st₁.world.nodes) :
    st.Draws vm q X (D.below m kind attrs data own' target heads simple)
      (P.below n kind attrs data own) st₁ where
  installs := hinstalls
  fits := hP.below hn m data hbare hpaints hown hsimple hinstalls.nodup
  shows v hv := by
    obtain ⟨hattrs, hp⟩ := Picture.current_below.mp hv
    change st₁.world.nodes.Shows id (Tree.asNodesAll q [.node n kind (own.paint v attrs) data _])
    rw [Tree.asNodesAll_singleton, Tree.asNodes, NodeStore.shows_cons, hpaints v _ hattrs,
      hP.sound.roots]
    exact ⟨⟨hlt, hget⟩, hshows v hp⟩
  agrees := hagrees

end Draws

end State

/-! ## Interpolated texts -/

/-- To show the texts of tokens in a row. -/
def Token.design (tokens : List Token) : Design where
  target field := tokens.map fun token ↦ .text default (String.ofList (token.textWith field))
  heads := tokens.flatMap Token.mentioned
  simple := True
  sketch := sketchAll tokens

/-- To show an interpolated text. -/
def Interpolation.design (n : NodeId) (data : List Char) : Design where
  target field := [.text n (String.ofList (textWith field data))]
  heads := mentioned data
  simple := True
  sketch := Token.sketchAll (tokenize data)

theorem Token.markupAll_design (tokens : List Token) (field : String → Value) :
    Tree.markupAll ((Token.design tokens).target field) =
      tokens.flatMap (Token.textWith field) := by
  induction tokens with
  | nil => rfl
  | cons token tokens ih =>
    rw [List.flatMap_cons, ← ih]
    simp [Token.design, Tree.markupAll, Tree.text, Tree.markup]

/-- The texts of the tokens of an interpolated text show what it does. -/
theorem Picture.Fits.interpolation {P : Picture} {n : NodeId} {data : List Char}
    (hP : P.Fits (Token.design (Interpolation.tokenize data)))
    (hdata : Interpolation.hasExpression data = true) : P.Fits (Interpolation.design n data) := by
  refine hP.of_eq (fun field ↦ ⟨?_, ?_⟩) (fun _ ↦ ⟨trivial, List.Subset.refl _⟩) rfl
  · rw [Token.markupAll_design, ← Interpolation.textWith_eq]
    simp [Interpolation.design, Tree.markupAll, Tree.text, Tree.markup]
  · rw [Interpolation.hasExpression_eq] at hdata
    cases htokens : Interpolation.tokenize data with
    | nil =>
      rw [htokens] at hdata
      contradiction
    | cons token tokens => rfl

theorem map_label_texts (k : Nat) (ps : List (Piece C)) :
    (Piece.texts k ps).map Tree.label = (List.range' k ps.length).map NodeId.mk := by
  induction ps generalizing k with
  | nil => rfl
  | cons piece ps ih =>
    rw [Piece.texts_cons, List.map_cons, ih, List.length_cons, List.range'_succ, List.map_cons]
    rfl

theorem mem_map_range' {k m : Nat} {n : NodeId} :
    n ∈ (List.range' k m).map NodeId.mk ↔ k ≤ n.index ∧ n.index < k + m := by
  refine ⟨fun h ↦ ?_, fun h ↦ ?_⟩
  · obtain ⟨i, hi, rfl⟩ := List.mem_map.mp h
    exact List.mem_range'_1.mp hi
  · exact List.mem_map.mpr ⟨n.index, List.mem_range'_1.mpr h, rfl⟩

/-- A text is drawn, and then texts that are numbered from the next number on. -/
theorem State.Draws.cons_text {vm : ViewModelId} {q : Option NodeId} {X : List NodeId} {k m : Nat}
    {token : Token} {tokens : List Token} {P Q : Picture} {st st₁ st₂ : LiveState C H}
    (h : st.Draws vm q X (Token.design [token]) P st₁) (hX : X ⊆ [⟨k⟩])
    (hlabels : P.labels = [⟨k⟩])
    (h' : st₁.Draws vm q ((List.range' (k + 1) m).map NodeId.mk) (Token.design tokens) Q st₂)
    (hlabels' : Q.labels = (List.range' (k + 1) m).map NodeId.mk) :
    st.Draws vm q (⟨k⟩ :: (List.range' (k + 1) m).map NodeId.mk) (Token.design (token :: tokens))
      (P.append Q) st₂ := by
  -- Neither part touches the other.
  have hdisjoint : ∀ n ∈ P.labels, n ∉ (List.range' (k + 1) m).map NodeId.mk := by
    intro n hn hmem
    rw [hlabels] at hn
    obtain rfl := List.mem_singleton.mp hn
    exact Nat.not_succ_le_self k (mem_map_range'.mp hmem).1
  have hall := h.append h' (hlabels' ▸ hdisjoint) hdisjoint
    (List.Subset.trans hX (List.cons_subset_cons _ (List.nil_subset _)))
    (List.subset_cons_self ..)
  refine hall.of_eq (fun _ ↦ ⟨rfl, rfl⟩) (fun _ ↦ ⟨⟨trivial, trivial⟩, ?_⟩) ?_
  · simp [Token.design, Design.append]
  · simp [Token.design, Design.append, Token.sketchAll, Sketch.append_still_nil]

namespace Client

variable (client : Client C H) (fuel limit : Nat) {scope : Scope}

/-- The directive of an expression draws a text with a hole. -/
theorem draws_slot {a : Application C} {n : NodeId} {source : String}
    (hkeeps : a.Keeps scope.vm n (.text scope.vm n source))
    (hclear : ∀ attrs, a.clear attrs = attrs) {q : Option NodeId} (st : LiveState C H)
    (hst : st.world.nodes.Shows id (Tree.asNodesAll q [.text n ""]))
    (hgone : (st.world.viewModel scope.vm).gone = false) :
    ∃ st' P, (client.meaning.runner (fuel + 1)).Links limit (a.apply scope n) st () st' ∧
      st.Draws scope.vm q [n] (Token.design [.expression source.toList]) P st' ∧
      P.labels = [n] ∧ P.roots = [n] := by
  obtain ⟨st', e, hlinks, hinstalls, hnodes⟩ :=
    client.links_apply fuel limit hkeeps rfl st hgone
  rw [NodeStore.modify_of_eq fun node ↦ by rw [hclear]] at hnodes
  obtain ⟨hlt, hget⟩ := hst _ List.mem_cons_self
  have hshape : Upkeep.KeepsShape (st.world.nodes.get n).kind (.text scope.vm n source) := by
    rw [show st.world.nodes.get n = _ from hget]
    rfl
  refine ⟨st', .slot e (.text scope.vm n source), hlinks, ⟨hinstalls, ?_, ?_, ?_⟩, rfl, rfl⟩
  · refine ⟨Picture.sound_slot e rfl, List.nodup_singleton n, fun v field hv ↦ ⟨?_, rfl⟩,
      fun _ ↦ Picture.retouchable_slot e _ _ _, fun _ h hh ↦ ?_, ?_⟩
    · have hv : v e = _ := hv _ List.mem_cons_self
      change Tree.markupAll [.text n (v e)] = _
      rw [hv]
      simp [Token.design, Tree.markupAll, Tree.text, Tree.markup, Token.textWith, Upkeep.value]
    · obtain rfl := List.mem_singleton.mp hh
      simp [Upkeep.mentioned, Token.design, Token.mentioned]
    · have hfollows : (Picture.slot e (.text scope.vm n source)).Follows
          (.slot (.text default default source)) := Picture.follows_slot e _
      simpa [Token.design, Token.sketchAll, Sketch.append_still_nil, Token.sketch] using hfollows
  · intro v hv
    have hv : v e = _ := hv _ List.mem_cons_self
    have hput := Upkeep.shows_put (u := .text scope.vm n source) hst
      ⟨_, List.mem_cons_self, rfl, rfl⟩ (v e)
    have hfill := Picture.retouchable_slot e scope.vm n source _ List.mem_cons_self (fun _ ↦ "")
      (v e) q
    change st'.world.nodes.Shows id (Tree.asNodesAll q [.text n (v e)])
    rw [hnodes, ← hv]
    have hforest : (Picture.slot e (.text scope.vm n source)).forest
        (Function.update (fun _ ↦ "") e (v e)) = [.text n (v e)] :=
      congrArg (fun text ↦ [Tree.text n text]) (Function.update_self ..)
    rw [← hforest, ← hfill]
    exact hput
  · rw [hnodes]
    exact Upkeep.agrees_put (u := .text scope.vm n source) hshape _

/-- The texts for the tokens of a text, numbered from `k` on, are drawn one after the other. -/
theorem draws_pieces {c : Compiler C} (hc : c.registry = .builtin) (tokens : List Token) (k : Nat)
    {q : Option NodeId} (st : LiveState C H)
    (hst : st.world.nodes.Shows id (Tree.asNodesAll q (Piece.texts k (tokens.map c.piece))))
    (hgone : (st.world.viewModel scope.vm).gone = false) :
    ∃ st' P, (client.meaning.runner (fuel + 1)).Links limit (Piece.applyAll scope
        (tokens.map c.piece) ((Piece.texts k (tokens.map c.piece)).map Tree.label)) st () st' ∧
      st.Draws scope.vm q ((List.range' k tokens.length).map NodeId.mk) (Token.design tokens) P
        st' ∧
      P.labels = (List.range' k tokens.length).map NodeId.mk ∧
      P.roots = (List.range' k tokens.length).map NodeId.mk := by
  induction tokens generalizing k st with
  | nil =>
    exact ⟨st, .still [], Runner.Links.done () st,
      .still (.of_world scope.vm rfl rfl) rfl List.nodup_nil rfl (fun _ ↦ ⟨rfl, rfl⟩) hst, rfl,
        rfl⟩
  | cons token tokens ih =>
    rw [List.map_cons, Piece.texts_cons, Tree.asNodesAll, NodeStore.shows_append] at hst
    obtain ⟨hfirst, hrest⟩ := hst
    rw [← Tree.asNodesAll_singleton] at hfirst
    rw [List.map_cons, Piece.texts_cons, List.map_cons, List.length_cons, List.range'_succ,
      List.map_cons]
    cases token with
    | literal text =>
      obtain ⟨st', Q, hlinks, hdraws, hlabels, hroots⟩ := ih (k + 1) st hrest hgone
      have hstill : st.Draws scope.vm q [] (Token.design [.literal text])
          (.still [.text ⟨k⟩ (String.ofList text)]) st :=
        .still (.of_world scope.vm rfl rfl) rfl (List.nodup_singleton _)
          (Sketch.append_still_nil _) (fun _ ↦ ⟨rfl, rfl⟩) hfirst
      refine ⟨st', _, ?_, hstill.cons_text (List.nil_subset _) rfl hdraws hlabels, ?_, ?_⟩
      · rw [Compiler.piece, Piece.applyAll]
        exact hlinks
      · rw [Picture.labels_append, hlabels]
        rfl
      · rw [Picture.roots_append, hroots]
        rfl
    | expression source =>
      rw [Compiler.piece_expression hc] at hfirst ⊢
      let a : Application C := ⟨.ofText (String.ofList source), { behaviour := .text }⟩
      have hkeeps : a.Keeps scope.vm ⟨k⟩ (.text scope.vm ⟨k⟩ (String.ofList source)) := rfl
      obtain ⟨st₁, P, hlinks, hdraws, hlabels, hroots⟩ := client.draws_slot fuel limit hkeeps
        (fun _ ↦ rfl) st hfirst hgone
      have hagrees : ∀ x ∈ Tree.asNodesAll q (Piece.texts (k + 1) (tokens.map c.piece)),
          x.1 ∉ [(⟨k⟩ : NodeId)] := by
        intro x hx hmem
        have hge := (Tree.mem_labelsAll_numberAll (Tree.mem_labelsAll_of_mem_asNodesAll hx)).1
        rw [List.mem_singleton.mp hmem] at hge
        exact Nat.not_succ_le_self k hge
      obtain ⟨st₂, Q, hlinks', hdraws', hlabels', hroots'⟩ := ih (k + 1) st₁
        (hrest.of_agrees hdraws.agrees hagrees) (hdraws.installs.viewModel_eq _ ▸ hgone)
      rw [String.toList_ofList] at hdraws
      refine ⟨st₂, _, ?_, hdraws.cons_text (List.Subset.refl _) hlabels hdraws' hlabels', ?_, ?_⟩
      · rw [Piece.applyAll]
        exact hlinks.bind hlinks'
      · rw [Picture.labels_append, hlabels, hlabels']
        rfl
      · rw [Picture.roots_append, hroots, hroots']
        rfl

/-- The program of an interpolated text draws the texts of its tokens below a new fragment, and then
puts them in the place of the text, if it has one. -/
theorem draws_planted {c : Compiler C} (hc : c.registry = .builtin) (tokens : List Token)
    (n : NodeId) (st : LiveState C H) (hgone : (st.world.viewModel scope.vm).gone = false) :
    ∃ st' P, (client.meaning.runner (fuel + 1)).Links limit
        ((Program.text (tokens.map c.piece)).link scope (.node n)) st ()
        (st'.withWorld { st'.world with
          nodes := (st'.world.nodes.replace n ⟨st.world.nodes.size⟩).2 }) ∧
      st.Draws scope.vm (some ⟨st.world.nodes.size⟩) [] (Token.design tokens) P st' ∧
      P.labels = P.roots ∧
      (∀ m ∈ P.roots, st.world.nodes.size < m.index ∧ m.index < st'.world.nodes.size) ∧
      st'.world.nodes.get ⟨st.world.nodes.size⟩ = { kind := .fragment, children := P.roots } ∧
      st.world.nodes.size < st'.world.nodes.size := by
  let ps := tokens.map c.piece
  obtain ⟨s₁, hplant, hplants, hlt, hget, hbelow⟩ := Piece.exists_plant st.world.nodes ps
  let texts := (Piece.texts (st.world.nodes.size + 1) ps).map Tree.label
  let st₁ : LiveState C H := st.withWorld { st.world with nodes := s₁ }
  let hs : List (Held C) := (⟨st.world.nodes.size⟩ :: texts).map .node
  have htexts : texts =
      (List.range' (st.world.nodes.size + 1) tokens.length).map NodeId.mk := by
    rw [← List.length_map (f := c.piece)]
    exact map_label_texts _ ps
  obtain ⟨st₂, P, hlinks, hdraws, hlabels, hroots⟩ := client.draws_pieces fuel limit hc tokens
    (st.world.nodes.size + 1) (st₁.withHoldings (hs :: st₁.world.holdings)) hbelow hgone
  have hmem (m : NodeId) (hm : m ∈ texts) :
      st.world.nodes.size < m.index ∧ m.index < st₂.world.nodes.size := by
    refine ⟨(mem_map_range'.mp (htexts ▸ hm)).1, Nat.lt_of_lt_of_le ?_ hdraws.agrees.size⟩
    exact hbelow.lt_of_mem_labelsAll ((Tree.map_label_sublist_labelsAll _).subset hm)
  rw [← htexts] at hlabels hroots hdraws
  let st₃ : LiveState C H := st₂.withHoldings st₂.world.holdings.tail
  refine ⟨st₃, P, ?_, ⟨?_, hdraws.fits, hdraws.shows, ?_⟩, hlabels.trans hroots.symm, ?_, ?_, ?_⟩
  · rw [Program.link]
    refine (Runner.Links.ofExcept rfl st).bind ?_
    refine Runner.Links.bind_live (Runner.Yields.editWith _ st) ?_
    rw [hplant]
    refine Runner.Links.bind_live (Runner.Yields.ask _ st₁) ?_
    rw [State.world_withWorld, hget]
    exact (Runner.Links.holding hlinks).bind
      (Runner.Links.bind_live (Runner.Yields.editWith _ st₃) (Runner.Links.done () _))
  · have hbefore : st.Installs scope.vm [] (st₁.withHoldings (hs :: st₁.world.holdings)) :=
      .of_world scope.vm rfl rfl
    exact (hbefore.of_trans_nil hdraws.installs).trans_nil (.of_world scope.vm rfl rfl)
  · -- Planting and drawing the texts leave what was there before alone.
    refine ((hplants.mono (List.nil_subset _)).trans hdraws.agrees).of_append fun m hm ↦ ?_
    exact Nat.le_of_lt (hmem m hm).1
  · exact hroots ▸ hmem
  · rw [hroots]
    exact (hdraws.agrees.get _ hlt fun h ↦ Nat.lt_irrefl _ (hmem _ h).1).trans hget
  · exact Nat.lt_of_lt_of_le hlt hdraws.agrees.size

/-- An interpolated text gives its place to the texts of its tokens. -/
theorem draws_text {c : Compiler C} (hc : c.registry = .builtin) {data : List Char}
    (hdata : Interpolation.hasExpression data = true) {n p : NodeId} {pre post : List NodeId}
    (st : LiveState C H) (hn : st.world.nodes.Placed n p pre post)
    (hp : p.index < st.world.nodes.size) (hgone : (st.world.viewModel scope.vm).gone = false) :
    ∃ st' P, (client.meaning.runner (fuel + 1)).Links limit ((Program.text
        ((Interpolation.tokenize data).map c.piece)).link scope (.node n)) st () st' ∧
      st.Draws scope.vm (some p) [p, n] (Interpolation.design n data) P st' ∧
      (∀ m ∈ P.labels, st.world.nodes.size ≤ m.index) ∧
      st'.world.nodes.get p =
        { st.world.nodes.get p with children := pre ++ P.roots ++ post } := by
  obtain ⟨st₁, P, hlinks, hdraws, hlabels, hmem, hfragment, hsize⟩ :=
    client.draws_planted fuel limit hc (Interpolation.tokenize data) n st hgone
  have hagrees := hdraws.agrees
  have hplaced := hn.of_agrees hp hagrees
  have hmovable : st₁.world.nodes.Movable ⟨st.world.nodes.size⟩ p :=
    .of_lt hfragment hp hsize hmem
  have hnr : n ≠ ⟨st.world.nodes.size⟩ := fun h ↦ Nat.ne_of_lt hn.lt (congrArg NodeId.index h)
  have hnm : n ∉ P.roots := fun h ↦ Nat.lt_asymm hn.lt (hmem n h).1
  have hreplace := hplaced.get_replace hmovable hnr (hfragment ▸ hnm)
  rw [hfragment] at hreplace
  have hreplace (m : NodeId) :
      (st₁.world.nodes.replace n ⟨st.world.nodes.size⟩).2.get m = _ := hreplace m
  refine ⟨_, P, hlinks, ⟨?_, hdraws.fits.interpolation hdata, ?_, ?_⟩, fun m hm ↦ ?_, ?_⟩
  · exact hdraws.installs.trans_nil (.of_world scope.vm rfl rfl)
  · -- The texts stand below `p` as they stood below the fragment.
    intro v hv
    refine (hdraws.shows v hv).reparent (hdraws.fits.sound.labels v ▸ hdraws.fits.nodup) ?_
      (fun m hm ↦ ?_) fun m hm hnot ↦ ?_
    · exact Nat.le_of_eq (NodeStore.size_replace ..).symm
    · rw [hdraws.fits.sound.roots v] at hm
      have hmp : m ≠ p := fun h ↦ Nat.lt_asymm hp (h ▸ (hmem m hm).1)
      exact (hreplace m).trans ((if_neg hmp).trans (if_pos hm))
    · rw [hdraws.fits.sound.roots v, ← hlabels, ← hdraws.fits.sound.labels v] at hnot
      exact absurd hm hnot
  · have hreplaced := st₁.world.nodes.agrees_replace hmovable.kind n
    rw [hplaced.parent, hfragment] at hreplaced
    refine ((hagrees.mono (List.nil_subset _)).trans hreplaced).of_append (X := [p, n]) ?_
    refine List.forall_mem_cons.mpr ⟨Nat.le_refl _, fun m hm ↦ ?_⟩
    exact Nat.le_of_lt (hmem m hm).1
  · exact Nat.le_of_lt (hmem m (hlabels ▸ hm)).1
  · have hold : st₁.world.nodes.get p = st.world.nodes.get p := hagrees.get p hp List.not_mem_nil
    refine (hreplace p).trans ((if_pos rfl).trans ?_)
    rw [hold]

end Client

/-! ## Elements -/

/-- To show an element with its attributes rendered, with what another design asks for below it. -/
def Compiler.element (c : Compiler C) (D : Design) (n : NodeId) (tag : String) (attrs : Attributes)
    (data : String) : Design :=
  D.below n (.element tag) attrs data (c.upkeeps default default attrs)
    (fun field ↦ c.renderAttributes field attrs) (c.attributeHeads attrs) (c.Undirected attrs)

/-- To show trees that nothing changes. -/
def Design.fixed (ts : List (Tree NodeId)) : Design :=
  ⟨fun _ ↦ ts, [], True, .still (Tree.mapAll (fun _ ↦ ()) ts)⟩

/-- To show a text as it is and, beside it, below a fragment, the texts of its tokens. -/
def Interpolation.beside (t : Tree NodeId) : Design :=
  (Design.fixed [t]).append ((Token.design (tokenize t.data.toList)).below default .fragment [] ""
    [] (fun _ ↦ []) [] True)

/-- A text that has no place is left alone, and the texts of its tokens stay below a fragment that
nothing lists. -/
theorem Compiler.draws_beside (client : Client C H) (fuel limit : Nat) {scope : Scope}
    {c : Compiler C} (hc : c.registry = .builtin) {n : NodeId} {attrs : Attributes} {data : String}
    (st : LiveState C H)
    (hst : st.world.nodes.Shows id ((Tree.node n .text attrs data []).asNodes none))
    (hgone : (st.world.viewModel scope.vm).gone = false) :
    ∃ st' P, (client.meaning.runner (fuel + 1)).Links limit ((Program.text
        ((Interpolation.tokenize data.toList).map c.piece)).link scope (.node n)) st () st' ∧
      st.Draws scope.vm none [] (Interpolation.beside (.node n .text attrs data [])) P st' ∧
      (∀ m ∈ P.labels, m = n ∨ st.world.nodes.size ≤ m.index) ∧
      P.roots = [n, ⟨st.world.nodes.size⟩] := by
  obtain ⟨st₁, P, hlinks, hdraws, hlabels, hmem, hfragment, hsize⟩ :=
    client.draws_planted fuel limit hc (Interpolation.tokenize data.toList) n st hgone
  obtain ⟨hlt, hget⟩ := hst _ List.mem_cons_self
  have hparent : (st₁.world.nodes.get n).parent = none := by
    rw [show st₁.world.nodes.get n = st.world.nodes.get n from
      hdraws.agrees.get n hlt List.not_mem_nil]
    exact congrArg Node.parent hget
  rw [NodeStore.replace_of_top hparent] at hlinks
  rw [← Tree.asNodesAll_singleton] at hst
  have hstill : st.Draws scope.vm none [] (.fixed [.node n .text attrs data []])
      (.still [.node n .text attrs data []]) st :=
    .still (.of_world scope.vm rfl rfl) rfl (List.nodup_singleton n) rfl (fun _ ↦ ⟨rfl, rfl⟩) hst
  have hnot : (⟨st.world.nodes.size⟩ : NodeId) ∉ P.labels := fun h ↦
    Nat.lt_irrefl _ (hmem _ (hlabels ▸ h)).1
  have hsimple : Touches.Simple [] [] :=
    ⟨fun _ hx ↦ absurd hx List.not_mem_nil, List.nodup_nil, fun _ hx ↦ absurd hx List.not_mem_nil⟩
  have hbelow : st.Draws scope.vm none [] ((Token.design (Interpolation.tokenize data.toList)).below
      default .fragment [] "" [] (fun _ ↦ []) [] True)
      (P.below ⟨st.world.nodes.size⟩ .fragment [] "" []) st₁ :=
    .below hdraws.installs hdraws.fits hdraws.shows hnot rfl (fun _ _ _ ↦ rfl)
      (fun _ hx ↦ absurd hx List.not_mem_nil)
      (fun _ ↦ ⟨hsimple, fun _ hx ↦ absurd hx List.not_mem_nil⟩) hsize hfragment hdraws.agrees
  have hnew (m : NodeId) (hm : m ∈ (P.below ⟨st.world.nodes.size⟩ .fragment [] "" []).labels) :
      st.world.nodes.size ≤ m.index := by
    rw [Picture.labels_below] at hm
    rcases List.mem_cons.mp hm with rfl | hm
    · exact Nat.le_refl _
    · exact Nat.le_of_lt (hmem m (hlabels ▸ hm)).1
  refine ⟨st₁, _, hlinks, hstill.append hbelow (fun m hm hm' ↦ ?_) (fun _ _ ↦ List.not_mem_nil)
    (List.Subset.refl _) (List.Subset.refl _), fun m hm ↦ ?_, rfl⟩
  · obtain rfl := List.mem_singleton.mp hm
    exact Nat.not_lt.mpr (hnew m hm') hlt
  · rw [Picture.labels_append] at hm
    exact (List.mem_append.mp hm).imp List.mem_singleton.mp (hnew m)

/-- An element is drawn once its attributes are worked off, and the trees below it drawn. -/
theorem State.Draws.element {c : Compiler C} (hc : c.registry = .builtin) {vm : ViewModelId}
    {q : Option NodeId} {X : List NodeId} {D : Design} {P : Picture} {st st₁ : LiveState C H}
    {n : NodeId} {tag : String} {attrs : Attributes} {data : String} {own : Touches}
    (hown : own.map (fun x ↦ (x.1, x.2.2)) = c.upkeeps vm n attrs)
    (hplace : ∀ x ∈ own, x.2.2.node = n ∧ ∀ kind, x.2.2.KeepsShape kind)
    (hinstalls : st.Installs vm (own.map Prod.snd ++ P.holes) st₁) (hP : P.Fits D)
    (hshows : ∀ v, P.Current v (st.fieldValue vm) →
      st₁.world.nodes.Shows id (Tree.asNodesAll (some n) (P.forest v)))
    (hn : n ∉ P.labels) (hlt : n.index < st₁.world.nodes.size)
    (hget : st₁.world.nodes.get n = {
      kind := .element tag, attrs := c.renderAttributes (st.fieldValue vm) attrs, data,
      children := P.roots, parent := q })
    (hagrees : st.world.nodes.Agrees id X st₁.world.nodes) :
    st.Draws vm q X (c.element D n tag attrs data) (P.below n (.element tag) attrs data own) st₁ :=
  .below hinstalls hP hshows hn (Touches.map_bare hown) (Touches.paints_renderAttributes hown)
    (fun x hx ↦ ⟨(hplace x hx).1, (hplace x hx).2 _⟩) (Touches.simple_of_undirected hc hown) hlt
    hget hagrees

namespace Client

variable (client : Client C H) (fuel limit : Nat) {scope : Scope}

/-- A text area gets the text that its content is worth, and has its attributes worked off. -/
theorem draws_textarea {c : Compiler C} (hc : c.registry = .builtin) {n : NodeId} {tag : String}
    {attrs : Attributes} {data : String} {children : List (Tree NodeId)} {q : Option NodeId}
    (hattrs : ∀ x ∈ attrs, c.Renderable x.1 x.2) (st : LiveState C H)
    (hst : st.world.nodes.Shows id
      ((Tree.node n (.element tag) attrs data children).asNodes q))
    (hnodup : (n :: Tree.labelsAll children).Nodup)
    (hgone : (st.world.viewModel scope.vm).gone = false) :
    ∃ st' P, (client.meaning.runner (fuel + 1)).Links limit
        ((Program.textarea (c.applications attrs)).link scope (.node n)) st () st' ∧
      st.Draws scope.vm q (n :: Tree.labelsAll children)
        (c.element (.fixed [.text n (String.ofList (Interpolation.textWith (st.fieldValue scope.vm)
          (Tree.textContentAll children)))]) n tag attrs data) P st' ∧
      (∀ m ∈ P.labels, m = n ∨ st.world.nodes.size ≤ m.index) ∧ P.roots = [n] ∧
      ∀ v, (P.forest v).map Tree.kind = [.element tag] := by
  have htree : st.world.nodes.tree n = _ := NodeStore.tree_of_shows hst hnodup
  have hparental : st.world.nodes.Parental n := .of_shows (hst.of_id Node.skeleton) hnodup
  rw [Tree.asNodes, NodeStore.shows_cons] at hst
  obtain ⟨⟨hlt, hget⟩, -⟩ := hst
  have hget : st.world.nodes.get n = _ := hget
  have hcontainer : (st.world.nodes.get n).kind.isContainer = true := by
    rw [hget]
    rfl
  -- The fields are read, then the text is set, then the attributes are worked off.
  let text := String.ofList (Interpolation.textWith (st.fieldValue scope.vm)
    (Tree.textContentAll children))
  have hset (m : NodeId) := hparental.get_setTextContent hcontainer text m
  have hsize := NodeStore.size_setTextContent_of_container hcontainer text
  have hagrees := hparental.agrees_setTextContent hcontainer text
  have hne : n ≠ ⟨st.world.nodes.size⟩ := fun h ↦ Nat.ne_of_lt hlt (congrArg NodeId.index h)
  let st₁ : LiveState C H :=
    st.trackAll (st.signalsOf scope.vm (Interpolation.mentioned (Tree.textContentAll children)))
  let st₂ : LiveState C H :=
    st₁.withWorld (st₁.world.modifyNodes fun s ↦ s.setTextContent n text)
  have hbefore : st.Installs scope.vm [] st₂ :=
    (State.Installs.trackAll scope.vm st _).trans (.of_world scope.vm rfl rfl)
  obtain ⟨st₃, own, hlinks, hinstalls, hown, hplace, hnodes⟩ :=
    client.links_applyAll fuel limit (n := n) hc hattrs st₂ hgone
  rw [hbefore.fieldValue] at hnodes
  have hnodes : st₃.world.nodes = (st.world.nodes.setTextContent n text).modify n _ := hnodes
  have hlt₂ : n.index < (st.world.nodes.setTextContent n text).size :=
    Nat.lt_of_lt_of_le hlt hagrees.size
  refine ⟨st₃, (Picture.still [.text ⟨st.world.nodes.size⟩ text]).below n (.element tag) attrs data
    own, ?_, .element hc hown hplace ?_ ?_ (fun _ _ ↦ ?_) ?_ ?_ ?_ ?_, fun m hm ↦ ?_, rfl,
    fun _ ↦ rfl⟩
  · rw [Program.link]
    refine (Runner.Links.ofExcept rfl st).bind (Runner.Links.bind_live (Runner.Yields.ask _ st) ?_)
    have hinterpolate : (client.meaning.runner (fuel + 1)).Yields limit _ st _ _ :=
      .interpolate scope.vm (String.ofList (Tree.textContentAll children)) st
    rw [String.toList_ofList] at hinterpolate
    rw [htree, Tree.textContent]
    exact Runner.Links.bind_live hinterpolate
      (Runner.Links.bind_live (Runner.Yields.edit _ st₁) hlinks)
  · exact (hbefore.of_trans_nil hinstalls).trans (.of_world scope.vm rfl rfl)
  · exact .still (List.nodup_singleton _) rfl fun _ ↦ ⟨rfl, rfl⟩
  · intro x hx
    obtain rfl := List.mem_singleton.mp hx
    rw [hnodes, NodeStore.size_modify, hsize, NodeStore.get_modify_of_ne hne, hset, if_neg hne.symm,
      if_pos rfl]
    exact ⟨Nat.lt_succ_self _, rfl⟩
  · exact fun h ↦ hne (List.mem_singleton.mp h)
  · rwa [hnodes, NodeStore.size_modify]
  · rw [hnodes, NodeStore.get_modify_self hlt₂, hset, if_pos rfl, hget,
      c.renderAttributes_eq _ attrs scope.vm n]
    rfl
  · have hchildren : n :: (st.world.nodes.get n).children ⊆ n :: Tree.labelsAll children := by
      rw [hget]
      exact List.cons_subset_cons n (Tree.map_label_sublist_labelsAll children).subset
    rw [hnodes]
    refine (hagrees.mono hchildren).trans ((NodeStore.agrees_modify _ n _).mono ?_)
    exact List.cons_subset_cons n (List.nil_subset _)
  · rw [Picture.labels_below] at hm
    rcases List.mem_cons.mp hm with rfl | hm
    · exact .inl rfl
    · obtain rfl := List.mem_singleton.mp hm
      exact .inr (Nat.le_refl _)

end Client

end LiveMarkup
