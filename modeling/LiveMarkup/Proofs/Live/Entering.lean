import LiveMarkup.Proofs.Live.Discipline

/-!
# What carrying out a program does to ledgers

Carrying out a program changes ledgers in one way only: it enters bindings, which are gentle if
those of the directives are, into the ledger of the scope's view-model. Everything else that the
code of this library does while a program is carried out, evaluating expressions and assigning
deferred values included, leaves all ledgers alone.

`Live.Keeps` says that a piece of code keeps to given rules wherever it is run. It holds of a
sequence if it holds of the parts, so that there is one short lemma for each way in which code is
put together, and one for each function of the library.
-/

namespace LiveMarkup

variable {C H α β : Type}

/-- Whether code keeps to the rules around the ledger of a view-model in every world that serves
another one too. -/
def Live.Keeps (client : Client C H) (vm vm' : ViewModelId) (own : World C H → World C H → Prop)
    (p : Live C H α) : Prop :=
  ∀ (post : α → World C H → Prop) w, w.Serves vm vm' → (∀ a w', w.Continues w' → post a w') →
    p.Obeys (.around client vm own) post w

variable {client : Client C H} {vm vm' : ViewModelId} {own : World C H → World C H → Prop}

namespace Live.Keeps

theorem done (a : α) : Keeps client vm vm' own (pure a) := fun _ w _ hpost ↦ hpost a w (.refl w)

theorem bind {p : Live C H α} {f : α → Live C H β} (h : p.Keeps client vm vm' own)
    (h' : ∀ a, (f a).Keeps client vm vm' own) : (p >>= f).Keeps client vm vm' own := by
  intro post w hw hpost
  refine (Script.obeys_bind p f w).mpr (h _ w hw fun a w' hw' ↦ ?_)
  exact h' a post w' (hw.of_continues hw') fun b w'' hw'' ↦ hpost b w'' (hw'.trans hw'')

theorem map {p : Live C H α} (h : p.Keeps client vm vm' own) (f : α → β) :
    (f <$> p).Keeps client vm vm' own := by
  rw [← bind_pure_comp]
  exact h.bind fun a ↦ .done (f a)

theorem ask (f : World C H → α) : Keeps client vm vm' own (Live.ask f) :=
  fun _ w _ hpost _ ↦ hpost _ w (.refl w)

theorem read (s : SignalId) : Keeps client vm vm' own (Live.read s) :=
  fun _ w _ hpost v ↦ hpost v w (.refl w)

theorem newSignal (v : Value) : Keeps client vm vm' own (Live.newSignal v) :=
  fun _ w _ hpost s ↦ hpost s w (.refl w)

theorem stop (e : EffectId) : Keeps client vm vm' own (Live.stop e) :=
  fun _ w _ hpost ↦ hpost () w (.refl w)

theorem write (s : SignalId) (v : Value) : Keeps client vm vm' own (Live.write s v) :=
  fun _ _ hw hpost w' hbodies ↦ hpost () w' (hbodies hw.hosts)

theorem effect (b : Routine C) : Keeps client vm vm' own (Live.effect b) :=
  fun _ _ hw hpost e w' hbodies ↦ hpost e w' (hbodies hw.hosts)

theorem perform (code : C) : Keeps client vm vm' own (Live.perform code) :=
  fun _ _ hw hpost ↦ ⟨trivial, fun a w' hanswers ↦ hpost a w' (hanswers hw.hosts)⟩

theorem resumeCall : Keeps client vm vm' own (Live.call .resume) :=
  fun _ _ hw hpost ↦ ⟨trivial, fun a w' hanswers ↦ hpost a w' (hanswers hw.hosts)⟩

/-- A client may carry out a program of its own for a scope that is served. -/
theorem linkCall (code : C) (scope : Scope) (target : Target) :
    Keeps client vm scope.vm own (Live.call (.link code scope target)) :=
  fun _ _ hw hpost ↦ ⟨hw, fun a w' hanswers ↦ hpost a w' (hanswers hw.hosts)⟩

/-! ## Code that changes nothing about ledgers -/

variable (hown : ∀ w w', w.Spares vm w' → own w w')

include hown

theorem change {f : World C H → World C H} (h : ∀ w : World C H, w.Spares vm (f w)) :
    Keeps client vm vm' own (Live.change f) :=
  fun _ w _ hpost ↦ ⟨hown _ _ (h w), hpost () _ (h w).continues⟩

theorem act {f : World C H → α × World C H} (h : ∀ w : World C H, w.Spares vm (f w).2) :
    Keeps client vm vm' own (Live.act f) :=
  fun _ w _ hpost _ ↦ ⟨hown _ _ (h w), hpost _ _ (h w).continues⟩

theorem edit (f : NodeStore → NodeStore) : Keeps client vm vm' own (Live.edit f) :=
  change hown fun _ ↦ .of_eq vm rfl rfl

theorem editWith (f : NodeStore → α × NodeStore) : Keeps client vm vm' own (Live.editWith f) :=
  act hown fun _ ↦ .of_eq vm rfl rfl

theorem holding (hs : List (Held C)) {p : Live C H α} (h : p.Keeps client vm vm' own) :
    (Live.holding hs p).Keeps client vm vm' own := by
  have hchange (f : List (List (Held C)) → List (List (Held C))) : Keeps client vm vm' own
      (Live.change fun w : World C H ↦ { w with holdings := f w.holdings }) :=
    change hown fun _ ↦ .of_eq vm rfl rfl
  exact (hchange (hs :: ·)).bind fun _ ↦ h.bind fun a ↦ (hchange List.tail).bind fun _ ↦ .done a

/-! ### Fields and expressions -/

theorem declare (vm₁ : ViewModelId) (name : String) :
    Keeps client vm vm' own (vm₁.declare name) := by
  refine (ask _).bind fun found ↦ ?_
  cases found with
  | some s => exact .done s
  | none =>
    refine (newSignal _).bind fun s ↦ bind (change hown fun w ↦ ?_) fun _ ↦ .done s
    refine .modifyViewModel vm vm₁ (fun m ↦ ?_) w
    rfl

theorem set (vm₁ : ViewModelId) (name : String) (v : Value) :
    Keeps client vm vm' own (vm₁.set name v) :=
  (declare hown vm₁ name).bind fun s ↦ .write s v

omit hown in
theorem get (vm₁ : ViewModelId) (name : String) : Keeps client vm vm' own (vm₁.get name) := by
  refine (ask _).bind fun found ↦ ?_
  cases found with
  | some s => exact .read s
  | none => exact .done _

omit hown in
theorem evaluateText (vm₁ : ViewModelId) (expression : List Char) :
    Keeps client vm vm' own (vm₁.evaluateText expression) := by
  refine bind ?_ fun v ↦ .done _
  rw [ViewModelId.evaluate]
  cases Expression.parse expression with
  | constant v => exact .done v
  | path head segments => exact (get vm₁ head).bind fun v ↦ .done _

omit hown in
theorem interpolateTokens (vm₁ : ViewModelId) (tokens : List Token) :
    Keeps client vm vm' own (vm₁.interpolateTokens tokens) := by
  induction tokens with
  | nil => exact .done _
  | cons token rest ih =>
    cases token with
    | literal text => exact ih.bind fun _ ↦ .done _
    | expression source => exact (evaluateText vm₁ source).bind fun _ ↦ ih.bind fun _ ↦ .done _

omit hown in
theorem interpolate (vm₁ : ViewModelId) (template : String) :
    Keeps client vm vm' own (vm₁.interpolate template) :=
  (interpolateTokens vm₁ _).bind fun _ ↦ .done _

omit hown in
theorem unlessGone (vm₁ : ViewModelId) {p : Live C H Unit} (h : p.Keeps client vm vm' own) :
    (vm₁.unlessGone p).Keeps client vm vm' own := by
  refine (ask _).bind fun gone ↦ ?_
  cases gone with
  | true => exact .done ()
  | false => exact h

/-- The body of every effect: those of this library evaluate something and work on nodes. -/
theorem script (b : Routine C) : Keeps client vm vm' own b.script := by
  cases b with
  | text vm₁ node expression =>
    exact unlessGone vm₁ ((evaluateText vm₁ _).bind fun _ ↦ edit hown _)
  | attr vm₁ node name expression =>
    exact unlessGone vm₁ ((evaluateText vm₁ _).bind fun _ ↦ edit hown _)
  | interpolatedAttr vm₁ node name template =>
    exact unlessGone vm₁ ((interpolate vm₁ _).bind fun _ ↦ edit hown _)
  | client code => exact .perform code

theorem resume : Keeps client vm vm' own (Live.resume : Live C H Unit) := by
  refine (act hown fun w ↦ ?_).bind fun next ↦ ?_
  · cases w.deferred.next? with
    | some x => exact .of_eq vm rfl rfl
    | none => exact .refl vm w
  · cases next with
    | none => exact .done ()
    | some a =>
      obtain ⟨vm₁, field, arrival, waiting⟩ := a
      cases arrival with
      | fulfilled v => exact (holding hown _ (set hown vm₁ field v)).bind fun _ ↦ .resumeCall
      | «open» => exact .resumeCall
      | rejected => exact .resumeCall

end Live.Keeps

/-! ## Carrying out programs -/

/-- Whether code that can fail keeps to the rules, whether it fails or not. -/
def Linking.Keeps (client : Client C H) (vm vm' : ViewModelId)
    (own : World C H → World C H → Prop) (p : Linking C H α) : Prop :=
  Live.Keeps client vm vm' own p.run

namespace Linking.Keeps

theorem done (a : α) : Keeps client vm vm' own (pure a : Linking C H α) := Live.Keeps.done _

theorem bind {p : Linking C H α} {f : α → Linking C H β} (h : p.Keeps client vm vm' own)
    (h' : ∀ a, (f a).Keeps client vm vm' own) : (p >>= f).Keeps client vm vm' own := by
  rw [Keeps, ExceptT.run_bind]
  refine Live.Keeps.bind h fun answer ↦ ?_
  cases answer with
  | ok a => exact h' a
  | error e => exact Live.Keeps.done _

theorem live {p : Live C H α} (h : p.Keeps client vm vm' own) :
    (Linking.live p).Keeps client vm vm' own := h.map Except.ok

theorem ofExcept (e : Except LinkError α) : Keeps client vm vm' own (Linking.ofExcept e) :=
  Live.Keeps.done e

theorem fail (e : LinkError) : Keeps client vm vm' own (throw e : Linking C H α) :=
  Live.Keeps.done _

end Linking.Keeps

/-- A directive is bound with a gentle binding, if it is. -/
theorem Application.obeys_bind (a : Application C) {scope : Scope} (node : NodeId)
    {w : World C H} (hw : w.Serves vm scope.vm) :
    (a.bind scope node).Obeys (.around client vm own) (fun answer w' ↦
      w.Continues w' ∧ ∀ b, answer = .ok b → b.Gentle client vm w') w := by
  have heffect (r : Routine C) : Script.Obeys (.around client vm own)
      (fun (answer : Except String (Binding C)) w' ↦
        w.Continues w' ∧ ∀ b, answer = .ok b → b.Gentle client vm w')
      (Live.effect r >>= fun e ↦ pure (.ok (.effect e))) w := by
    intro e w' hbodies
    refine ⟨hbodies hw.hosts, fun b hb ↦ ?_⟩
    obtain rfl := Except.ok.inj hb
    exact Binding.gentle_effect client vm w' e
  rw [Application.bind]
  cases a.directive.behaviour with
  | text => exact heffect _
  | attr =>
    cases a.descriptor.attributeRoutine scope.vm node with
    | ok routine => exact heffect routine
    | error reason => exact ⟨.refl w, fun b hb ↦ Except.noConfusion rfl rfl (heq_of_eq hb)⟩
  | client code => exact ⟨hw, fun answer w' hanswers ↦ hanswers hw.hosts⟩

section Programs

variable {scope : Scope} (hown : ∀ w w', w.Spares vm w' → own w w')
  (henter : ∀ w b, w.Serves vm scope.vm → b.Gentle client vm w → own w (w.register scope.vm b))

include hown henter

omit hown in
/-- A directive is bound and entered. This is the only place where ledgers change. -/
theorem Application.keeps_enter (a : Application C) (node : NodeId) :
    (a.enter scope node).Keeps client vm scope.vm own := by
  intro post w hw hpost
  rw [enter, ExceptT.run_bind, Linking.live, ExceptT.run_lift, ← bind_pure_comp, bind_assoc]
  refine (Script.obeys_bind _ _ w).mpr ((a.obeys_bind node hw).mono fun answer w' hw' ↦ ?_)
  cases answer with
  | error reason => exact hpost _ w' hw'.1
  | ok b =>
    refine ⟨henter w' b (hw.of_continues hw'.1) (hw'.2 b rfl), hpost _ _ ?_⟩
    exact hw'.1.trans (w'.continues_register scope.vm b)

theorem Application.keeps_apply (a : Application C) (node : NodeId) :
    (a.apply scope node).Keeps client vm scope.vm own := by
  have h := Application.keeps_enter henter a node
  cases hsource : a.descriptor.sourceAttr with
  | none =>
    rw [Application.apply_of_none scope node hsource]
    exact h
  | some attr =>
    cases hretain : a.directive.retain with
    | true =>
      rw [Application.apply_of_retain scope node hretain]
      exact h
    | false =>
      rw [Application.apply_of_some scope node hsource hretain]
      exact (Linking.Keeps.live (.edit hown _)).bind fun _ ↦ h

theorem Application.keeps_applyAll (as : List (Application C)) (node : NodeId) :
    (Application.applyAll scope node as).Keeps client vm scope.vm own := by
  induction as with
  | nil => exact .done ()
  | cons a as ih => exact (Application.keeps_apply hown henter a node).bind fun _ ↦ ih

theorem Piece.keeps_applyAll (pieces : List (Piece C)) (ns : List NodeId) :
    (Piece.applyAll scope pieces ns).Keeps client vm scope.vm own := by
  induction pieces generalizing ns with
  | nil =>
    rw [Piece.applyAll]
    · exact .done ()
    · intro a ps n ns hc
      contradiction
    · intro text ps n ns hc
      contradiction
  | cons piece pieces ih =>
    cases ns with
    | nil =>
      cases piece with
      | literal text => exact .done ()
      | slot a => exact .done ()
    | cons n ns =>
      cases piece with
      | literal text => exact ih ns
      | slot a => exact (Application.keeps_apply hown henter a n).bind fun _ ↦ ih ns

end Programs

mutual

/-- Carrying out a program enters gentle bindings, and does nothing else to ledgers. -/
theorem Program.keeps_link {scope : Scope} (hown : ∀ w w', w.Spares vm w' → own w w')
    (henter : ∀ w b, w.Serves vm scope.vm → b.Gentle client vm w → own w (w.register scope.vm b))
    (target : Target) (p : Program C) :
    (p.link scope target).Keeps client vm scope.vm own := by
  cases p with
  | terminal a =>
    exact (Linking.Keeps.ofExcept _).bind fun node ↦ Application.keeps_apply hown henter a node
  | directives a as =>
    exact (Linking.Keeps.ofExcept _).bind fun node ↦
      Application.keeps_applyAll hown henter (a :: as) node
  | text pieces =>
    refine (Linking.Keeps.ofExcept _).bind fun node ↦ ?_
    refine (Linking.Keeps.live (.editWith hown _)).bind fun fragment ↦ ?_
    refine (Linking.Keeps.live (.ask _)).bind fun texts ↦ ?_
    have hpieces := Piece.keeps_applyAll hown henter pieces texts
    refine Linking.Keeps.bind (.holding hown _ hpieces) fun _ ↦ ?_
    exact (Linking.Keeps.live (.editWith hown _)).bind fun _ ↦ .done ()
  | textarea as =>
    refine (Linking.Keeps.ofExcept _).bind fun node ↦ ?_
    refine (Linking.Keeps.live (.ask _)).bind fun content ↦ ?_
    refine (Linking.Keeps.live (.interpolate scope.vm _)).bind fun text ↦ ?_
    refine (Linking.Keeps.live (.edit hown _)).bind fun _ ↦ ?_
    exact Application.keeps_applyAll hown henter as node
  | both own children =>
    refine (Linking.Keeps.ofExcept _).bind fun node ↦ ?_
    exact (Program.keeps_link hown henter (.node node) own).bind fun _ ↦
      Program.keeps_link hown henter (.node node) children
  | siblings programs =>
    refine (Linking.Keeps.live (.ask _)).bind fun nodes ↦ ?_
    by_cases hlength : nodes.length = programs.length
    · rw [if_pos hlength]
      exact .holding hown _ (Program.keeps_linkEach hown henter nodes programs)
    · rw [if_neg hlength]
      exact .fail _
  | client terminal priority code => exact .linkCall code scope target

theorem Program.keeps_linkEach {scope : Scope} (hown : ∀ w w', w.Spares vm w' → own w w')
    (henter : ∀ w b, w.Serves vm scope.vm → b.Gentle client vm w → own w (w.register scope.vm b))
    (nodes : List NodeId) (programs : List (Option (Program C))) :
    (Program.linkEach scope nodes programs).Keeps client vm scope.vm own := by
  cases programs with
  | nil =>
    rw [Program.linkEach]
    · exact .done ()
    all_goals
      intros
      contradiction
  | cons program programs =>
    cases nodes with
    | nil => exact .done ()
    | cons n nodes =>
      have hrest := Program.keeps_linkEach hown henter nodes programs
      cases program with
      | none => exact hrest
      | some p => exact (Program.keeps_link hown henter (.node n) p).bind fun _ ↦ hrest

end

end LiveMarkup
