import LiveMarkup.Proofs.Binding.Usage
import LiveMarkup.Proofs.Live.Discipline
import LiveMarkup.Proofs.Reactive.Steady

/-!
# What holds across carrying out a program

That code which starts where one thing holds ends where another does can be meant in two ways: of
its runs (`Live.Triples.runs`), or of the rules that it obeys, whatever bodies and calls do
(`Live.Triples.obeys`). Code is put together in the same way for both, so what is common to them is
a structure, `Live.Triples`.

A program is carried out on some nodes and on those that it makes itself. If a property of worlds
holds across each of the few things that are done to these nodes, across binding a directive and
entering its binding, and across what a client does for a program of its own, then it holds across
the whole (`Live.Triples.Supports.link`).
-/

namespace LiveMarkup

variable {C H α β : Type}

/-- A way of saying that code which starts in a world of one kind ends in a world of another, with
an answer that goes with it. -/
structure Live.Triples (C H : Type) where
  /-- What a change of the world may do. -/
  own : World C H → World C H → Prop
  holds : {α : Type} → (World C H → Prop) → Live C H α → (α → World C H → Prop) → Prop
  done : ∀ {α : Type} {P : World C H → Prop} {Q : α → World C H → Prop} {a : α},
    (∀ w, P w → Q a w) → holds P (pure a) Q
  bind : ∀ {α β : Type} {P : World C H → Prop} {Q : α → World C H → Prop}
    {R : β → World C H → Prop} {p : Live C H α} {f : α → Live C H β},
    holds P p Q → (∀ a, holds (Q a) (f a) R) → holds P (p >>= f) R
  ask : ∀ {α : Type} {P : World C H → Prop} {Q : α → World C H → Prop} {f : World C H → α},
    (∀ w, P w → Q (f w) w) → holds P (Live.ask f) Q
  read : ∀ {P : World C H → Prop} {Q : Value → World C H → Prop} {s : SignalId},
    (∀ v w, P w → Q v w) → holds P (Live.read s) Q
  act : ∀ {α : Type} {P : World C H → Prop} {Q : α → World C H → Prop}
    {f : World C H → α × World C H},
    (∀ w, P w → own w (f w).2 ∧ Q (f w).1 (f w).2) → holds P (Live.act f) Q
  change : ∀ {P : World C H → Prop} {Q : Unit → World C H → Prop} {f : World C H → World C H},
    (∀ w, P w → own w (f w) ∧ Q () (f w)) → holds P (Live.change f) Q

/-- Whether the body of an effect is that of a directive of this library, on a given node. -/
def Routine.At (n : NodeId) : Routine C → Prop
  | .text _ m _ | .attr _ m _ _ | .interpolatedAttr _ m _ _ => m = n
  | .client _ => False

theorem Routine.At.unique {n m : NodeId} {b : Routine C} (h : b.At n) (h' : b.At m) : n = m := by
  cases b with
  | client code => exact h.elim
  | _ => exact Eq.trans (Eq.symm h) h'

namespace Live.Triples

/-- Of all runs. -/
def runs (r : LiveRunner C H) (limit : Nat) : Live.Triples C H where
  own _ _ := True
  holds P p Q := ∀ st a st', P st.world → r.run limit p st = some (a, st') → Q a st'.world
  done h st _ _ hst hrun := by
    obtain ⟨rfl, rfl⟩ := Prod.mk.inj (Option.some.inj hrun)
    exact h _ hst
  bind {_ _ _ _ _ p f} h h' st b st' hst hrun := by
    rw [show (p >>= f) = p.bind f from rfl, Runner.run_bind] at hrun
    obtain ⟨x, hp, hf⟩ := Option.bind_eq_some_iff.mp hrun
    exact h' _ _ _ _ (h _ _ _ hst hp) hf
  ask h st _ _ hst hrun := by
    obtain ⟨rfl, rfl⟩ := Prod.mk.inj (Option.some.inj hrun)
    exact h _ hst
  read h st _ _ hst hrun := by
    obtain ⟨rfl, rfl⟩ := Prod.mk.inj (Option.some.inj hrun)
    exact h _ _ hst
  act h st _ _ hst hrun := by
    obtain ⟨rfl, rfl⟩ := Prod.mk.inj (Option.some.inj hrun)
    exact (h _ hst).2
  change h st _ _ hst hrun := by
    obtain ⟨rfl, rfl⟩ := Prod.mk.inj (Option.some.inj hrun)
    exact (h _ hst).2

/-- Of the rules that code obeys. -/
def obeys (ρ : Rules (World C H) (Call C) Call.Answer) : Live.Triples C H where
  own := ρ.own
  holds P p Q := ∀ w, P w → p.Obeys ρ Q w
  done h := h
  bind {_ _ _ _ _ p f} h h' w hw := by
    refine (Script.obeys_bind p f w).mpr ((h w hw).mono fun a w' hw' ↦ ?_)
    exact h' a w' hw'
  ask h w hw _ := h w hw
  read h w hw v := h v w hw
  act h w hw _ := h w hw
  change h := h

section Runs

variable {client : Client C H} {fuel : Nat} {P : World C H → Prop}

/-- What holds where the code of a call has ended, on whatever fuel, holds where the call has. -/
theorem runs_call {q : Call C} {Q : q.Answer → World C H → Prop}
    (h : ∀ fuel (st : LiveState C H) a st', P st.world →
      client.run fuel (client.meaning.call q) st = some (a, st') → Q a st'.world) :
    (runs (client.meaning.runner fuel) fuel).holds P (Live.call q) Q := by
  intro st a st' hst hrun
  obtain ⟨⟨b, st₁⟩, hcall, hdone⟩ := Option.bind_eq_some_iff.mp hrun
  obtain ⟨rfl, rfl⟩ := Prod.mk.inj (Option.some.inj hdone)
  cases fuel with
  | zero => contradiction
  | succ fuel => exact h fuel st b st₁ hst hcall

/-- A new effect runs at once, and that is all. -/
theorem runs_effect {b : Routine C} (h : ∀ fuel,
    (runs (client.meaning.runner fuel) fuel).holds P b.script fun _ ↦ P) :
    (runs (client.meaning.runner fuel) fuel).holds P (Live.effect b) fun _ ↦ P := by
  intro st e st' hst hrun
  obtain ⟨st₁, heffect, hdone⟩ := Option.bind_eq_some_iff.mp hrun
  obtain ⟨rfl, rfl⟩ := Prod.mk.inj (Option.some.inj hdone)
  have hnew := ((client.meaning.runner fuel).runEffect_newEffect b st).symm.trans heffect
  obtain ⟨st₂, hbody, rfl⟩ := Option.map_eq_some_iff.mp hnew
  cases fuel with
  | zero => contradiction
  | succ fuel =>
    rw [Meaning.runner_succ_body] at hbody
    obtain ⟨⟨⟨⟩, st₃⟩, hscript, rfl⟩ := Option.map_eq_some_iff.mp hbody
    refine h fuel _ () st₃ ?_ hscript
    exact hst

end Runs

variable (L : Live.Triples C H) {I P : World C H → Prop}

theorem mono {p : Live C H α} {Q Q' : α → World C H → Prop} (h : L.holds P p Q)
    (hQ : ∀ a w, Q a w → Q' a w) : L.holds P p Q' := by
  rw [← bind_pure p]
  exact L.bind h fun a ↦ L.done (hQ a)

theorem editWith {f : NodeStore → α × NodeStore} {Q : α → World C H → Prop}
    (h : ∀ w : World C H, P w → L.own w { w with nodes := (f w.nodes).2 } ∧
      Q (f w.nodes).1 { w with nodes := (f w.nodes).2 }) : L.holds P (Live.editWith f) Q :=
  L.act h

/-- Whether a property of worlds holds across code. -/
def Keeps (I : World C H → Prop) (p : Live C H α) : Prop := L.holds I p fun _ ↦ I

/-- What holds where code that can fail has ended: something of its answer, or something else if it
has failed. -/
def Outcome (Q : α → World C H → Prop) (E : World C H → Prop) :
    Except LinkError α → World C H → Prop
  | .ok a => Q a
  | .error _ => E

/-- Whether code that can fail and starts where one thing holds ends as it should. -/
def Links (P : World C H → Prop) (p : Linking C H α) (Q : α → World C H → Prop)
    (E : World C H → Prop) : Prop := L.holds P p.run (Outcome Q E)

namespace Keeps

variable {L}

theorem done (a : α) : L.Keeps I (pure a) := L.done fun _ h ↦ h

theorem bind {p : Live C H α} {f : α → Live C H β} (h : L.Keeps I p)
    (h' : ∀ a, L.Keeps I (f a)) : L.Keeps I (p >>= f) := L.bind h h'

theorem ask (f : World C H → α) : L.Keeps I (Live.ask f) := L.ask fun _ h ↦ h

theorem read (s : SignalId) : L.Keeps I (Live.read s) := L.read fun _ _ h ↦ h

theorem holding (hs : List (Held C)) {p : Live C H α}
    (hold : ∀ (w : World C H) (hs : List (List (Held C))), I w →
      L.own w { w with holdings := hs } ∧ I { w with holdings := hs }) (h : L.Keeps I p) :
    L.Keeps I (Live.holding hs p) := by
  have hchange (f : List (List (Held C)) → List (List (Held C))) : L.Keeps I
      (Live.change fun w : World C H ↦ { w with holdings := f w.holdings }) :=
    L.change fun w hw ↦ hold w _ hw
  exact (hchange (hs :: ·)).bind fun _ ↦ h.bind fun a ↦ (hchange List.tail).bind fun _ ↦ done a

/-! ### Expressions -/

theorem get (vm : ViewModelId) (name : String) : L.Keeps I (vm.get name) := by
  refine (ask _).bind fun found ↦ ?_
  cases found with
  | some s => exact read s
  | none => exact done _

theorem evaluateText (vm : ViewModelId) (expression : List Char) :
    L.Keeps I (vm.evaluateText expression) := by
  refine bind ?_ fun v ↦ done _
  rw [ViewModelId.evaluate]
  cases Expression.parse expression with
  | constant v => exact done v
  | path head segments => exact (get vm head).bind fun v ↦ done _

theorem interpolateTokens (vm : ViewModelId) (tokens : List Token) :
    L.Keeps I (vm.interpolateTokens tokens) := by
  induction tokens with
  | nil => exact done _
  | cons token rest ih =>
    cases token with
    | literal text => exact ih.bind fun _ ↦ done _
    | expression source => exact (evaluateText vm source).bind fun _ ↦ ih.bind fun _ ↦ done _

theorem interpolate (vm : ViewModelId) (template : String) : L.Keeps I (vm.interpolate template) :=
  (interpolateTokens vm _).bind fun _ ↦ done _

theorem unlessGone (vm : ViewModelId) {p : Live C H Unit} (h : L.Keeps I p) :
    L.Keeps I (vm.unlessGone p) := by
  refine (ask _).bind fun gone ↦ ?_
  cases gone with
  | true => exact done ()
  | false => exact h

/-- The body of an effect evaluates something and writes to its node, or is a client's code. -/
theorem script {b : Routine C}
    (htext : ∀ n text, b.At n → L.Keeps I (Live.edit fun nodes ↦ nodes.setTextContent n text))
    (hattr : ∀ n name value, b.At n →
      L.Keeps I (Live.edit fun nodes ↦ nodes.setAttribute n name value))
    (hclient : ∀ code, b = .client code → L.Keeps I (Live.perform code)) :
    L.Keeps I b.script := by
  cases b with
  | text vm n expression =>
    exact unlessGone vm ((evaluateText vm _).bind fun text ↦ htext n text rfl)
  | attr vm n name expression =>
    exact unlessGone vm ((evaluateText vm _).bind fun value ↦ hattr n name value rfl)
  | interpolatedAttr vm n name template =>
    exact unlessGone vm ((interpolate vm _).bind fun value ↦ hattr n name value rfl)
  | client code => exact hclient code rfl

end Keeps

namespace Links

variable {L} {Q : α → World C H → Prop} {E : World C H → Prop}

theorem done {a : α} (h : ∀ w, P w → Q a w) : L.Links P (pure a) Q E := L.done h

theorem fail {e : LinkError} (h : ∀ w, P w → E w) : L.Links P (throw e) Q E := L.done h

theorem bind {R : β → World C H → Prop} {p : Linking C H α} {f : α → Linking C H β}
    (h : L.Links P p Q E) (h' : ∀ a, L.Links (Q a) (f a) R E) : L.Links P (p >>= f) R E := by
  rw [Links, ExceptT.run_bind]
  refine L.bind h fun answer ↦ ?_
  cases answer with
  | ok a => exact h' a
  | error e => exact L.done fun _ hw ↦ hw

theorem live {p : Live C H α} (h : L.holds P p Q) : L.Links P (Linking.live p) Q E := by
  rw [Links, Linking.live, ExceptT.run_lift, ← bind_pure_comp]
  exact L.bind h fun a ↦ L.done fun _ hw ↦ hw

theorem mono {p : Linking C H α} {Q' : α → World C H → Prop} (h : L.Links P p Q E)
    (hQ : ∀ a w, Q a w → Q' a w) : L.Links P p Q' E := by
  refine L.mono h fun answer w hw ↦ ?_
  cases answer with
  | ok a => exact hQ a w hw
  | error e => exact hw

end Links

end Live.Triples

/-! ## Programs -/

namespace Target

/-- Whether the nodes of a target are among some. -/
def Among (ns : List NodeId) : Target → Prop
  | .node n => n ∈ ns
  | .nodes ms => ms ⊆ ns

/-- The nodes of a target. -/
def all : Target → List NodeId
  | .node n => [n]
  | .nodes ns => ns

theorem among_all (target : Target) : target.Among target.all := by
  cases target with
  | node n => exact List.mem_singleton_self n
  | nodes ns => exact List.Subset.refl ns

end Target

namespace Live.Triples

/-- Whether a property of worlds, which may speak of the nodes in hand, holds across whatever is
done to these while a program is carried out, and to those that come into hand; across binding the
directives of a kind, and entering what they make; and across what a client does for programs of its
own. -/
structure Supports (L : Live.Triples C H) (scope : Scope) (I : List NodeId → World C H → Prop)
    (A : Application C → Prop) (K : C → Prop) : Prop where
  /-- Nodes can be let out of hand. -/
  mono : ∀ ns ms w, ms ⊆ ns → I ns w → I ms w
  holdings : ∀ ns w hs, I ns w → L.own w { w with holdings := hs } ∧ I ns { w with holdings := hs }
  removeAttribute : ∀ ns w n name, n ∈ ns → I ns w →
    L.own w (w.modifyNodes fun nodes ↦ nodes.removeAttribute n name) ∧
      I ns (w.modifyNodes fun nodes ↦ nodes.removeAttribute n name)
  setTextContent : ∀ ns w n text, n ∈ ns → I ns w →
    L.own w (w.modifyNodes fun nodes ↦ nodes.setTextContent n text) ∧
      I ns (w.modifyNodes fun nodes ↦ nodes.setTextContent n text)
  plant : ∀ ns (w : World C H) (t : Tree Unit), I ns w →
    L.own w { w with nodes := (w.nodes.plant t).2 } ∧
      I ((w.nodes.plant t).1 :: ns) { w with nodes := (w.nodes.plant t).2 }
  children : ∀ ns w n, n ∈ ns → I ns w → I ((w.nodes.get n).children ++ ns) w
  replace : ∀ ns w n r, n ∈ ns → r ∈ ns → I ns w →
    L.own w { w with nodes := (w.nodes.replace n r).2 } ∧
      I ns { w with nodes := (w.nodes.replace n r).2 }
  bind : ∀ ns a n, A a → n ∈ ns → L.holds (I ns) (a.bind scope n) fun answer w ↦ I ns w ∧
    ∀ b, answer = .ok b → L.own w (w.register scope.vm b) ∧ I ns (w.register scope.vm b)
  client : ∀ ns code (target : Target), K code → target.Among ns →
    L.Keeps (I ns) (Live.call (.link code scope target))

namespace Supports

variable {L : Live.Triples C H} {scope : Scope} {I : List NodeId → World C H → Prop}
  {A : Application C → Prop} {K : C → Prop} {ns : List NodeId} (h : L.Supports scope I A K)

include h

theorem drop {w : World C H} (hw : I ns w) : I [] w := h.mono ns [] w (List.nil_subset _) hw

theorem holding (hs : List (Held C)) {p : Linking C H α}
    (hp : L.Links (I ns) p (fun _ ↦ I ns) (I [])) :
    L.Links (I ns) (Linking.holding hs p) (fun _ ↦ I ns) (I []) := by
  have hchange (ms : List NodeId) (f : List (List (Held C)) → List (List (Held C))) : L.Keeps (I ms)
      (Live.change fun w : World C H ↦ { w with holdings := f w.holdings }) :=
    L.change fun w hw ↦ h.holdings ms w _ hw
  refine L.bind (hchange ns (hs :: ·)) fun _ ↦ L.bind hp fun answer ↦ ?_
  cases answer with
  | ok a => exact L.bind (hchange ns List.tail) fun _ ↦ L.done fun _ hw ↦ hw
  | error e => exact L.bind (hchange [] List.tail) fun _ ↦ L.done fun _ hw ↦ hw

theorem single {target : Target} (ht : target.Among ns) :
    L.Links (I ns) (Linking.ofExcept target.single) (fun n ↦ I (n :: ns)) (I []) := by
  have hcons {n : NodeId} (hn : n ∈ ns) (w : World C H) (hw : I ns w) : I (n :: ns) w :=
    h.mono ns _ w (List.cons_subset.mpr ⟨hn, List.Subset.refl _⟩) hw
  refine L.done fun w hw ↦ ?_
  unfold Target.single
  split
  · exact hcons ht w hw
  · exact hcons (ht List.mem_cons_self) w hw
  · exact h.drop hw

/-- A directive is bound, and its binding is entered. -/
theorem enter {a : Application C} (ha : A a) {n : NodeId} (hn : n ∈ ns) :
    L.Links (I ns) (a.enter scope n) (fun _ ↦ I ns) (I []) := by
  refine Links.bind (.live (h.bind ns a n ha hn)) fun answer ↦ ?_
  cases answer with
  | error reason => exact .fail fun _ hw ↦ h.drop hw.1
  | ok b => exact .live (L.change fun w hw ↦ hw.2 b rfl)

theorem apply {a : Application C} (ha : A a) {n : NodeId} (hn : n ∈ ns) :
    L.Links (I ns) (a.apply scope n) (fun _ ↦ I ns) (I []) := by
  cases hsource : a.descriptor.sourceAttr with
  | none =>
    rw [Application.apply_of_none scope n hsource]
    exact h.enter ha hn
  | some attr =>
    cases hretain : a.directive.retain with
    | true =>
      rw [Application.apply_of_retain scope n hretain]
      exact h.enter ha hn
    | false =>
      rw [Application.apply_of_some scope n hsource hretain]
      refine Links.bind (.live (L.change fun w hw ↦ ?_)) fun _ ↦ h.enter ha hn
      exact h.removeAttribute ns w n attr hn hw

theorem applyAll {as : List (Application C)} (has : ∀ a ∈ as, A a) {n : NodeId} (hn : n ∈ ns) :
    L.Links (I ns) (Application.applyAll scope n as) (fun _ ↦ I ns) (I []) := by
  induction as with
  | nil => exact .done fun _ hw ↦ hw
  | cons a as ih =>
    obtain ⟨ha, hrest⟩ := List.forall_mem_cons.mp has
    exact (h.apply ha hn).bind fun _ ↦ ih hrest

theorem applyPieces {pieces : List (Piece C)} (hpieces : ∀ a, Piece.slot a ∈ pieces → A a)
    {texts : List NodeId} (htexts : texts ⊆ ns) :
    L.Links (I ns) (Piece.applyAll scope pieces texts) (fun _ ↦ I ns) (I []) := by
  induction pieces generalizing texts with
  | nil =>
    rw [Piece.applyAll]
    · exact .done fun _ hw ↦ hw
    · intro a ps n ns hc
      contradiction
    · intro text ps n ns hc
      contradiction
  | cons piece pieces ih =>
    have hrest : ∀ a, Piece.slot a ∈ pieces → A a := fun a ha ↦
      hpieces a (List.mem_cons_of_mem _ ha)
    cases texts with
    | nil =>
      cases piece with
      | literal text => exact .done fun _ hw ↦ hw
      | slot a => exact .done fun _ hw ↦ hw
    | cons n texts =>
      obtain ⟨hn, htexts⟩ := List.cons_subset.mp htexts
      cases piece with
      | literal text => exact ih hrest htexts
      | slot a =>
        exact (h.apply (hpieces a List.mem_cons_self) hn).bind fun _ ↦ ih hrest htexts

end Supports

end Live.Triples

section Programs

variable {L : Live.Triples C H} {scope : Scope} {I : List NodeId → World C H → Prop}
  {A : Application C → Prop} {K : C → Prop}

mutual

/-- What holds across the parts holds across the whole. -/
theorem Live.Triples.Supports.link (h : L.Supports scope I A K) {ns : List NodeId} (target : Target)
    (ht : target.Among ns) (p : Program C) (hp : p.Uses A K) :
    L.Links (I ns) (p.link scope target) (fun _ ↦ I ns) (I []) := by
  have htail (n : NodeId) (w : World C H) (hw : I (n :: ns) w) : I ns w :=
    h.mono _ _ w (List.subset_cons_self n ns) hw
  cases p with
  | terminal a =>
    refine (h.single ht).bind fun n ↦ ?_
    exact (h.apply hp List.mem_cons_self).mono fun _ ↦ htail n
  | directives a as =>
    refine (h.single ht).bind fun n ↦ ?_
    exact (h.applyAll (List.forall_mem_cons.mpr hp) List.mem_cons_self).mono fun _ ↦ htail n
  | text pieces =>
    refine (h.single ht).bind fun n ↦ ?_
    have hplant : L.holds (I (n :: ns))
        (Live.editWith fun nodes ↦ nodes.plant (Tree.fragment () (pieces.map Piece.toTree)))
        fun fragment ↦ I (fragment :: n :: ns) := L.editWith fun w hw ↦ h.plant _ w _ hw
    refine Links.bind (.live hplant) fun fragment ↦ ?_
    have hchildren : L.holds (I (fragment :: n :: ns))
        (Live.ask fun w ↦ (w.nodes.get fragment).children)
        fun texts ↦ I (texts ++ fragment :: n :: ns) :=
      L.ask fun w hw ↦ h.children _ w fragment List.mem_cons_self hw
    refine Links.bind (.live hchildren) fun texts ↦ ?_
    have hreplace : L.holds (I (texts ++ fragment :: n :: ns))
        (Live.editWith fun nodes ↦ nodes.replace n fragment)
        fun _ ↦ I (texts ++ fragment :: n :: ns) :=
      L.editWith fun w hw ↦ h.replace _ w n fragment (by simp) (by simp) hw
    refine (h.holding _ (h.applyPieces hp (List.subset_append_left _ _))).bind fun _ ↦ ?_
    refine Links.bind (.live hreplace) fun _ ↦ .done fun w hw ↦ ?_
    exact h.mono _ _ w (fun m hm ↦ by simp [hm]) hw
  | textarea as =>
    refine (h.single ht).bind fun n ↦ ?_
    refine Links.bind (.live (Keeps.ask _)) fun content ↦ ?_
    refine Links.bind (.live (Keeps.interpolate scope.vm _)) fun text ↦ ?_
    refine Links.bind (.live (L.change fun w hw ↦ ?_)) fun _ ↦
      (h.applyAll hp List.mem_cons_self).mono fun _ ↦ htail n
    exact h.setTextContent _ w n text List.mem_cons_self hw
  | both own children =>
    refine (h.single ht).bind fun n ↦ ?_
    refine (Live.Triples.Supports.link h (.node n) List.mem_cons_self own hp.1).bind fun _ ↦ ?_
    refine (Live.Triples.Supports.link h (.node n) List.mem_cons_self children hp.2).mono fun _ ↦ ?_
    exact htail n
  | siblings programs =>
    have hrow : L.holds (I ns) (Live.ask fun w ↦ target.row w.nodes) fun row ↦ I (row ++ ns) := by
      refine L.ask fun w hw ↦ ?_
      cases target with
      | node n => exact h.children ns w n ht hw
      | nodes ms => exact h.mono _ _ w (List.append_subset.mpr ⟨ht, List.Subset.refl _⟩) hw
    refine Links.bind (.live hrow) fun row ↦ ?_
    by_cases hlength : row.length = programs.length
    · rw [if_pos hlength]
      have heach := Live.Triples.Supports.linkEach h (List.subset_append_left row ns) programs hp
      refine (h.holding _ heach).mono fun _ w hw ↦ ?_
      exact h.mono _ _ w (List.subset_append_right _ _) hw
    · rw [if_neg hlength]
      exact .fail fun _ hw ↦ h.drop hw
  | client terminal priority code =>
    refine L.mono (h.client ns code target hp ht) fun answer _ hw ↦ ?_
    cases answer with
    | ok u => exact hw
    | error e => exact h.drop hw

theorem Live.Triples.Supports.linkEach (h : L.Supports scope I A K) {ns nodes : List NodeId}
    (hnodes : nodes ⊆ ns) (programs : List (Option (Program C)))
    (hp : Program.UsesEach A K programs) :
    L.Links (I ns) (Program.linkEach scope nodes programs) (fun _ ↦ I ns) (I []) := by
  cases programs with
  | nil =>
    rw [Program.linkEach]
    · exact .done fun _ hw ↦ hw
    all_goals
      intros
      contradiction
  | cons program programs =>
    cases nodes with
    | nil => exact .done fun _ hw ↦ hw
    | cons n nodes =>
      obtain ⟨hn, hnodes⟩ := List.cons_subset.mp hnodes
      cases program with
      | none => exact Live.Triples.Supports.linkEach h hnodes programs hp
      | some p =>
        exact (Live.Triples.Supports.link h (.node n) hn p hp.1).bind fun _ ↦
          Live.Triples.Supports.linkEach h hnodes programs hp.2

end

end Programs

end LiveMarkup
