import LiveMarkup.Proofs.Live.Matching

/-!
# A row of one node

A program is carried out on a node or on a row of nodes. A program that is about its node does not
tell a row of one node from the node: it asks for the one node of the target
(`Program.link_row_of_isLocal`). The program of siblings tells them apart: of a node it takes the
children, of a row the nodes themselves.

Which of the two the program of a tree is depends on the root alone. If the root has a program of
its own, executing on a row of one node is executing on the node. If not, the program of the tree is
that of the children, and a row of one node stands for them: a single child's program is carried out
on that node, and any other number of children does not match (`Compiler.execute_row`).
-/

namespace LiveMarkup

variable {C H : Type}

namespace Program

variable (scope : Scope) (n : NodeId)

/-- What is about its node takes a row of one node for the node. -/
theorem link_row_of_isLocal {q : Program C} (hq : q.isLocal = true) :
    (q.link scope (.nodes [n]) : Linking C H Unit) = q.link scope (.node n) := by
  cases q with
  | terminal a => rw [link, link]; rfl
  | directives a as => rw [link, link]; rfl
  | text ps => rw [link, link]; rfl
  | textarea as => rw [link, link]; rfl
  | both own children => contradiction
  | siblings qs => contradiction
  | client owns rank code => contradiction

theorem link_row_of_both (own children : Program C) :
    ((own.both children).link scope (.nodes [n]) : Linking C H Unit) =
      (own.both children).link scope (.node n) := by
  rw [link, link]
  rfl

/-- The program of siblings takes a row of one node for the one sibling there is. -/
theorem run_link_row_siblings (client : Client C H) (fuel : Nat) (qs : List (Option (Program C)))
    (st : LiveState C H) :
    client.run fuel ((siblings qs).link scope (.nodes [n])).run st =
      if 1 = qs.length then
        client.run fuel (Linking.holding [.node n] (linkEach scope [n] qs)).run st
      else some (.error (.structuralMismatch qs.length 1), st) := by
  have hlook : client.run fuel ((siblings qs).link scope (.nodes [n])).run st =
      client.run fuel (ExceptT.run (if [n].length = qs.length then
          Linking.holding ([n].map .node) (linkEach scope [n] qs)
        else throw (.structuralMismatch qs.length [n].length))) st := by
    rw [link]
    rfl
  rw [hlook, List.length_singleton]
  split
  · rfl
  · rfl

theorem linkEach_single (q? : Option (Program C)) :
    (linkEach scope [n] [q?] : Linking C H Unit) = linkAny scope n q? := by
  have hrest : (linkEach scope [] [] : Linking C H Unit) = pure () := by
    rw [linkEach]
    all_goals intros; contradiction
  rw [Compiler.linkEach_cons, hrest]
  exact bind_pure _

end Program

/-! ## Executions -/

namespace Client

variable {client : Client C H} {fuel : Nat} {scope : Scope} {st : LiveState C H}

/-- Executions run alike if what they carry out does. -/
theorem run_executing_congr {l l' : Linking C H Unit}
    (h : client.run fuel l.run st = client.run fuel l'.run st) :
    client.run fuel (Live.executing scope l) st = client.run fuel (Live.executing scope l') st := by
  rw [run_executing, run_executing, h]

theorem modifyLedger_remove_nil (w : World C H) (i : LedgerId) :
    w.modifyLedger i (fun l ↦ l.remove []) = w := by
  have hremove : (fun l : Ledger (Binding C) ↦ l.remove []) = id := by
    funext l
    exact congrArg (Ledger.mk · l.next)
      (Ledger.filter_not_contains_eq fun _ _ ↦ List.not_mem_nil)
  rw [hremove]
  refine congrArg (fun ledgers ↦ { w with ledgers }) (Array.ext_getElem? fun j ↦ ?_)
  rw [Array.getElem?_modify]
  split
  · exact Option.map_id' ..
  · rfl

/-- A failure is answered, and nothing is undone if nothing has been installed. -/
theorem run_concluding_error {mark : BindingId} (e : LinkError)
    (h : (st.world.ledgerOf scope.vm).since mark = []) :
    client.run fuel (Live.concluding scope mark (.error e)) st = some (.error e, st) := by
  let owned : Disposer C := ⟨scope.vm, (st.world.ledgerOf scope.vm).since mark⟩
  have howned : owned = ⟨scope.vm, []⟩ := congrArg (Disposer.mk scope.vm) h
  let answer : Live C H (Except LinkError (Disposer C)) := pure (.error e)
  have hrun : client.run fuel (Live.concluding scope mark (.error e)) st =
      client.run fuel (owned.dispose.bind fun _ ↦ answer) st := rfl
  have hnothing : client.run fuel ((Disposer.dispose ⟨scope.vm, []⟩).bind fun _ ↦ answer) st =
      some (.error e, st.withWorld (st.world.modifyLedger (st.world.viewModel scope.vm).ledger
        fun l ↦ l.remove [])) := rfl
  rw [hrun, howned, hnothing, modifyLedger_remove_nil]
  rfl

/-- An execution that fails before anything is installed changes nothing. -/
theorem run_executing_of_error {l : Linking C H Unit} {e : LinkError}
    (h : client.run fuel l.run st = some (.error e, st))
    (hsound : (st.world.ledgerOf scope.vm).Sound) :
    client.run fuel (Live.executing scope l) st = some (.error e, st) := by
  rw [run_executing, h, Option.bind_some]
  exact run_concluding_error e ((Ledger.Gains.refl _).since_eq hsound)

end Client

/-! ## Trees with and without a program of their own -/

namespace Compiler

variable (c : Compiler C) (scope : Scope) (n : NodeId)

/-- If the root has a program of its own, the tree does not tell a row of one node from the node. -/
theorem execute_row_of_isSome {t : Tree NodeId} (h : (c.compileNode t).1.isSome) :
    (Live.execute (c.compile t).1 scope (.nodes [n]) :
      Live C H (Except LinkError (Disposer C))) = Live.execute (c.compile t).1 scope (.node n) := by
  obtain ⟨own, hown⟩ := Option.isSome_iff_exists.mp h
  have hlocal := isLocal_of_compileNode hown
  obtain ⟨below, hbelow⟩ : ∃ below, (c.compile t).1 = Program.combine? (some own) below := by
    obtain ⟨k, kind, attrs, data, children⟩ := t
    exact ⟨_, (c.compile_fst ..).trans (congrArg (Program.combine? · _) hown)⟩
  rw [hbelow]
  cases below with
  | none =>
    rw [combine?_none, Live.execute_some, Live.execute_some, Program.link_row_of_isLocal _ _ hlocal]
  | some below =>
    rw [Program.combine?, Live.execute_some, Live.execute_some, Program.link_row_of_both]

/-- If the root has none, the program of the tree is that of the children. -/
theorem compile_eq_siblings {t : Tree NodeId} {q : Program C} (h : (c.compileNode t).1 = none)
    (hq : (c.compile t).1 = some q) : q = .siblings (t.children.map fun u ↦ (c.compile u).1) := by
  obtain ⟨k, kind, attrs, data, children⟩ := t
  rw [compile_fst, h, Program.combine?] at hq
  split at hq
  · contradiction
  · rw [siblings?] at hq
    split at hq
    · exact (Option.some.inj hq).symm
    · contradiction

/-- **A row of one node.** If the root of a tree has a program of its own, then executing the
program of the tree on a row of one node is the same code as executing it on the node. If the root
has none, the row stands for the children of the root: the program of a single child is carried out
on the node, and if there is not a single child, the execution fails, with the number of children
and the one node that was found, and changes nothing. -/
theorem execute_row (t : Tree NodeId) :
    ((c.compileNode t).1.isSome →
      (Live.execute (c.compile t).1 scope (.nodes [n]) :
        Live C H (Except LinkError (Disposer C))) =
          Live.execute (c.compile t).1 scope (.node n)) ∧
    ((c.compileNode t).1 = none → (c.compile t).1.isSome → ∀ (client : Client C H) (fuel : Nat)
      (st : LiveState C H),
      (∀ u, t.children = [u] →
        client.run fuel (Live.execute (c.compile t).1 scope (.nodes [n])) st =
          client.run fuel (Live.executing scope
            (Linking.holding [.node n] (Program.linkAny scope n (c.compile u).1))) st) ∧
      (t.children.length ≠ 1 → (st.world.ledgerOf scope.vm).Sound →
        client.run fuel (Live.execute (c.compile t).1 scope (.nodes [n])) st =
          some (.error (.structuralMismatch t.children.length 1), st))) := by
  refine ⟨c.execute_row_of_isSome scope n, fun hown hsome client fuel st ↦ ?_⟩
  obtain ⟨q, hq⟩ := Option.isSome_iff_exists.mp hsome
  have hlink := Program.run_link_row_siblings scope n client fuel
    (t.children.map fun u ↦ (c.compile u).1) st
  rw [hq, Live.execute_some, c.compile_eq_siblings hown hq]
  rw [List.length_map] at hlink
  constructor
  · intro u hu
    apply Client.run_executing_congr
    rw [hlink, hu, List.length_singleton, if_pos rfl, List.map_singleton, Program.linkEach_single]
  · intro hlength hsound
    refine Client.run_executing_of_error ?_ hsound
    rw [hlink, if_neg hlength.symm]

end Compiler

/-! ### Paragraphs -/

namespace Copied

/-- A paragraph that asks for its text by name. -/
def asking : Tree NodeId := .element ⟨1⟩ "p" [("v-bind", "n")] []

/-- A paragraph that is filled by two texts. -/
def filled : Tree NodeId := .element ⟨1⟩ "p" [] [.text ⟨2⟩ "{{ n }}", .text ⟨3⟩ "{{ n }}"]

/-- The one is executed on a row as it is on a node, the other fails on a row of one node. -/
theorem paragraphs_on_row :
    (Live.execute (compiler.compile asking).1 ⟨⟨0⟩, none, none⟩ (.nodes [⟨1⟩]) :
      Live Empty Unit (Except LinkError (Disposer Empty))) =
        Live.execute (compiler.compile asking).1 ⟨⟨0⟩, none, none⟩ (.node ⟨1⟩) ∧
    Client.none.run 2
        (Live.execute (compiler.compile filled).1 ⟨⟨0⟩, none, none⟩ (.nodes [⟨1⟩])) (state filled) =
      some (.error (.structuralMismatch 2 1), state filled) := by
  have hown : (compiler.compileNode asking).1.isSome := by decide +kernel
  have hnone : (compiler.compileNode filled).1.isNone := by decide +kernel
  have hsome : (compiler.compile filled).1.isSome := by decide +kernel
  constructor
  · exact (compiler.execute_row _ _ asking).1 hown
  · have hfilled := (compiler.execute_row ⟨⟨0⟩, none, none⟩ ⟨1⟩ filled).2
      (Option.isNone_iff_eq_none.mp hnone) hsome Client.none 2 (state filled)
    exact hfilled.2 (by decide) Ledger.sound_empty

/-- A paragraph that is filled by one text. -/
def paragraph : Tree NodeId := .element ⟨1⟩ "p" [] [.text ⟨2⟩ "{{ n }}"]

/-- The paragraph within an element. -/
def framed : Tree NodeId := .element ⟨0⟩ "div" [] [paragraph]

/-- The markup of a copy of the frame after the paragraph has been executed on a target in it. -/
def outcome (target : Target) : Option String :=
  (Client.none.run 2 (Live.execute (compiler.compile paragraph).1 ⟨⟨0⟩, none, none⟩ target)
    (state framed)).map fun r ↦ String.ofList (r.2.world.nodes.tree ⟨3⟩).markup

/-- On its copy, the text comes into the paragraph. On the row that is made of the copy, the text
takes the place of the paragraph. -/
theorem paragraph_ne_row : (compiler.compile paragraph).1.isSome ∧
    ((state framed).world.nodes.tree ⟨4⟩).plain = paragraph.plain ∧
    outcome (.node ⟨4⟩) = some "<div><p></p></div>" ∧
    outcome (.nodes [⟨4⟩]) = some "<div></div>" := by
  refine ⟨by decide +kernel, ?_, by decide +kernel⟩
  rfl

end Copied

end LiveMarkup
