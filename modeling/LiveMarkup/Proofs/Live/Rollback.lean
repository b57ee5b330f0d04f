import LiveMarkup.Proofs.Live.Accounts

/-!
# Failed executions

An execution that fails, wherever in the tree and however much it has already installed, leaves the
entries of the ledger as they were, and has disposed every binding that was made meanwhile, each
once (`Practice.Abides.execute_error`). The minutes tell in which order: first the bindings of
nested executions that were disposed, or failed, while the program was carried out; then, in the
order of their creation, all those that stood in the ledger when the program failed. These are the
bindings of the execution itself and of nested ones whose disposers were dropped.

The program may be any, so nothing is said of how it came out of a template.
-/

namespace LiveMarkup

variable {C H : Type}

/-- What a failed execution leaves behind: `l` and `l'` are the ledger before and after it. -/
structure Practice.RollsBack (π : Practice C H) (vm : ViewModelId) (fuel : Nat)
    (program : Option (Program C)) (scope : Scope) (target : Target) (e : LinkError)
    (st st' : LiveState C H) (l l' : Ledger (Binding C)) (nested own : Minutes) : Prop where
  before : st.world.ledger? vm = some l
  after : st'.world.ledger? vm = some l'
  /-- The ledger has the entries that it had. -/
  entries : l'.entries = l.entries
  /-- These were disposed, in this order. -/
  minutes : (π.minuted vm).run fuel (Manner.minuted.execute program scope target) (st.beside []) =
    some (.error e, st'.beside (nested ++ own))
  /-- Every binding that was registered was disposed, exactly once. -/
  registered : (nested ++ own).Perm (BindingId.issued l.next l'.next)
  /-- No binding was disposed that was there before. -/
  earlier : l.ids.Disjoint (nested ++ own)
  /-- What was disposed last is what the program had installed when it failed, in order of creation;
  the rest was disposed while the program was carried out. -/
  failure : ∃ (st₁ : LiveState C H) (l₁ : Ledger (Binding C)),
    (π.minuted vm).run fuel (Minuted.live (Program.linkIfAny scope target program)) (st.beside []) =
      some (.error e, st₁.beside nested) ∧
    st₁.world.ledger? vm = some l₁ ∧ l₁.ids = l.ids ++ own ∧ BindingId.Ascending own

/-- **A failed execution installs nothing.** Take disciplined code, and a view-model whose ledger is
in order. If an execution for it fails, the ledger has the entries that it had, and every binding
that was registered meanwhile was disposed, exactly once, and no other. -/
theorem Practice.Abides.execute_error {π : Practice C H} {vm : ViewModelId} (hπ : π.Abides vm)
    {fuel : Nat} {program : Option (Program C)} {scope : Scope} {target : Target} {e : LinkError}
    {st st' : LiveState C H} (hscope : scope.vm = vm) (hst : st.world.Hosts vm)
    (hrun : (π.client vm).run fuel (Live.execute program scope target) st = some (.error e, st')) :
    ∃ l l' nested own, π.RollsBack vm fuel program scope target e st st' l l' nested own := by
  rw [← Manner.plain_execute] at hrun
  obtain ⟨m, hminuted⟩ := π.exists_minuted vm
    ((π.mirrors_runner vm fuel).execute program scope target) hrun []
  obtain ⟨l, hl, hsound⟩ := hst.ledger
  obtain ⟨l₁, new, gone, linked, st₁, hlink, htally, hresult⟩ :=
    run_execute (hπ.upholds fuel) hscope hminuted hst hl
  rcases hresult with ⟨-, hok, -⟩ | ⟨e', rfl, he, hfailed⟩
  · cases hok
  obtain rfl := Except.error.inj he
  have hm : m = gone ++ new.map Prod.fst := hfailed.minutes
  have hnotes : st₁.world.2 = gone := htally.minutes
  have hissued : (gone ++ new.map Prod.fst).Perm
      (BindingId.issued l.next (l₁.remove (new.map Prod.fst)).next) := by
    have hperm := hfailed.gains.issued
    rwa [List.map_nil, List.append_nil] at hperm
  refine ⟨l, l₁.remove (new.map Prod.fst), gone, new.map Prod.fst, ?_⟩
  constructor
  · exact hl
  · exact hfailed.after
  · exact hfailed.gains.entries.trans (List.append_nil _)
  · rw [← hm, hminuted]
  · exact hissued
  · -- What was there before has an identity that was handed out before.
    intro b hold hgone
    have hlt := hsound.lt b hold
    exact Nat.not_lt.mpr (BindingId.mem_issued.mp (hissued.subset hgone)).1 hlt
  · refine ⟨st₁.bare, l₁, ?_, htally.after, ?_, htally.gains.ascending⟩
    · rw [hlink, ← hnotes, State.beside_bare]
    · rw [Ledger.ids, htally.gains.entries, List.map_append]
      rfl

/-! ### A directive that refuses -/

/-- What the directives of the following template do: make a binding, execute the first of them
twice and dispose what came of it once, or refuse. -/
inductive Deed where
  | log
  | nest
  | refuse

namespace Deed

def directive (deed : Deed) : Directive Deed := { terminal := true, behaviour := .client deed }

def compiler : Compiler Deed where
  registry := ((Registry.builtin.register "log" log.directive).register "nest"
    nest.directive).register "refuse" refuse.directive

/-- A template with nothing but the first directive. -/
def inner : Tree NodeId := .element ⟨1⟩ "p" [("v-log", "")] []

/-- A template with nothing but the second directive. -/
def nesting : Tree NodeId := .element ⟨2⟩ "p" [("v-nest", "")] []

/-- The three directives, each on its element. -/
def template : Tree NodeId :=
  .fragment ⟨0⟩ [inner, nesting, .element ⟨3⟩ "p" [("v-refuse", "")] []]

def practice : Practice Deed Unit where
  perform _ := .done ()
  bind deed _ node _ :=
    match deed with
    | log => .done (.ok (.client log))
    | nest =>
      .execute (compiler.compile inner).1 none none (.node node) fun _ ↦
        .execute (compiler.compile inner).1 none none (.node node) fun _ ↦
          .dispose 0 (.done (.ok (.client nest)))
    | refuse => .done (.error "never")
  link _ _ _ := .done (.ok ())

/-- A copy of the template, and a view-model without fields. -/
def state : LiveState Deed Unit where
  graph := .empty
  world := {
    nodes := (NodeStore.empty.plant template).2
    viewModels := #[⟨[], ⟨0⟩, ⟨0⟩, false, false⟩]
    ledgers := #[.empty]
    host := () }

theorem practice_abides (vm : ViewModelId) : practice.Abides vm := by
  have hgentle (deed : Deed) (w : World Deed Unit) :
      (Binding.client deed).Gentle (practice.client vm) vm w := practice.gentle_client rfl w
  constructor
  · intro deed w _
    trivial
  · intro deed scope node descriptor w _
    cases deed with
    | log =>
      intro b hb
      obtain rfl := Except.ok.inj hb
      exact hgentle log w
    | nest =>
      intro _ w₁ _ _ w₂ _ w₃ _ b hb
      obtain rfl := Except.ok.inj hb
      exact hgentle nest w₃
    | refuse =>
      intro b hb
      cases hb
  · intro deed scope target w _
    trivial

/-- The third directive refuses, and what the first two have installed is undone. -/
theorem template_rolls_back :
    ∃ st' l l' nested own, practice.RollsBack ⟨0⟩ 3 (compiler.compile template).1
      ⟨⟨0⟩, none, none⟩ (.node ⟨0⟩) (.directive "refuse" "never") state st' l l' nested own := by
  have hanswer : ((practice.client ⟨0⟩).run 3 (Live.execute (compiler.compile template).1
      ⟨⟨0⟩, none, none⟩ (.node ⟨0⟩)) state).map (fun x ↦ x.1.map Disposer.ids) =
        some (.error (.directive "refuse" "never")) := by decide +kernel
  obtain ⟨⟨result, st'⟩, hrun, hresult⟩ := Option.map_eq_some_iff.mp hanswer
  cases result with
  | ok d => cases hresult
  | error e =>
    obtain rfl := Except.error.inj hresult
    exact ⟨st', (practice_abides ⟨0⟩).execute_error rfl
      ⟨by decide, .empty, rfl, Ledger.sound_empty⟩ hrun⟩

/-- The nested execution that was disposed comes first. -/
example : ((practice.minuted ⟨0⟩).run 3 (Manner.minuted.execute (compiler.compile template).1
    ⟨⟨0⟩, none, none⟩ (.node ⟨0⟩)) (state.beside [])).map (fun x ↦ x.2.world.2) =
      some [⟨1⟩, ⟨0⟩, ⟨2⟩, ⟨3⟩] := by decide +kernel

end Deed

end LiveMarkup
