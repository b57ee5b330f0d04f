import LiveMarkup.Proofs.Live.Carrying
import LiveMarkup.Proofs.Live.Minutes

/-!
# What mounting and unmounting can come to

A run that mounts a component has ended in one of three ways (`ComponentId.Mounts`): it was refused
before anything was done; or the program could not be carried out on the copy of the template; or it
could, and everything has been recorded. A run that unmounts a component has found it mounted or not
(`ComponentId.Unmounts`). Whoever asks what such runs preserve starts from these cases and never
opens the code again (`Client.run_mount`, `Client.run_unmount`).
-/

namespace LiveMarkup

variable {C H α : Type}

namespace World

/-- Why a component cannot be mounted on a node, as far as can be told before its program is carried
out. -/
def refusal? (w : World C H) (c : ComponentId) (table : TableId) (node : NodeId) :
    Option MountError :=
  let component := w.component c
  if component.template.isNone then some (.noTemplate component.name)
  else if component.mounted.isSome then some (.componentMounted component.name)
  else if (w.viewModel component.vm).disposed then some (.componentDisposed component.name)
  else if (w.table table).isMounted node then some (.alreadyMounted node)
  else none

/-- A component with a template is refused if it is mounted, or its view-model is disposed, or the
node is taken, and for no other reason. -/
theorem refusal?_eq_none {w : World C H} {c : ComponentId} {table : TableId} {node t : NodeId}
    (htemplate : (w.component c).template = some t) :
    w.refusal? c table node = none ↔ (w.component c).mounted = none ∧
      (w.viewModel (w.component c).vm).disposed = false ∧
      (w.table table).isMounted node = false := by
  rw [refusal?, htemplate]
  cases (w.component c).mounted with
  | some x => simp
  | none =>
    cases (w.viewModel (w.component c).vm).disposed with
    | true => simp
    | false => simp

/-- The world with a copy of a template, which is held. -/
def copied (w : World C H) (template : NodeId) : World C H :=
  let (copy, nodes) := w.nodes.deepClone template
  { w with nodes, holdings := [.node copy] :: w.holdings }

/-- The world in which a component is mounted on a node: what is below a copy of its template has
moved there. -/
def settled (w : World C H) (c : ComponentId) (table : TableId) (node copy : NodeId)
    (d : Disposer C) : World C H :=
  ((w.modifyTable table fun t ↦ t.insert node d).modifyNodes fun nodes ↦
    nodes.append node copy).modifyComponent c fun component ↦
      { component with mounted := some (node, (w.nodes.get copy).children) }

/-- The world in which a component is taken for not mounted, and its nodes are held. -/
def unsettled (w : World C H) (c : ComponentId) (node : NodeId) (roots : List NodeId) :
    World C H :=
  { w.modifyComponent c fun component ↦ { component with mounted := none } with
    holdings := (node :: roots).map .node :: w.holdings }

/-- The world in which nodes have been taken out and a view-model is disposed. -/
def cleared (w : World C H) (vm : ViewModelId) (roots : List NodeId) : World C H :=
  (w.modifyNodes fun nodes ↦ roots.foldl NodeStore.detach nodes).modifyViewModel vm fun m ↦
    { m with disposed := true }

end World

/-- The state in which running code has ended that held something. -/
def State.letGo (st : LiveState C H) : LiveState C H := st.withHoldings st.world.holdings.tail

namespace ComponentId

/-- How a run can end that mounts a component on a node. -/
inductive Mounts (client : Client C H) (fuel : Nat) (c : ComponentId) (table : TableId)
    (node : NodeId) (owner : Option ViewModelId) (st : LiveState C H) :
    Except MountError Unit → LiveState C H → Prop where
  | refused {e : MountError} (reason : st.world.refusal? c table node = some e) :
    Mounts client fuel c table node owner st (.error e) st
  | failed {t : NodeId} {e : LinkError} {st₁ : LiveState C H}
    (free : st.world.refusal? c table node = none)
    (template : (st.world.component c).template = some t)
    (execution : client.run fuel
      (Live.execute (st.world.component c).program ⟨(st.world.component c).vm, owner, none⟩
        (.node (st.world.nodes.deepClone t).1)) (st.withWorld (st.world.copied t)) =
          some (.error e, st₁)) :
    Mounts client fuel c table node owner st (.error (.link e)) st₁.letGo
  | mounted {t : NodeId} {d : Disposer C} {st₁ st₂ : LiveState C H}
    (free : st.world.refusal? c table node = none)
    (template : (st.world.component c).template = some t)
    (execution : client.run fuel
      (Live.execute (st.world.component c).program ⟨(st.world.component c).vm, owner, none⟩
        (.node (st.world.nodes.deepClone t).1)) (st.withWorld (st.world.copied t)) =
          some (.ok d, st₁))
    (hooks : client.run fuel
      ((st₁.world.viewModel (st.world.component c).vm).lifecycle.run .mounted)
      (st₁.withWorld (st₁.world.settled c table node (st.world.nodes.deepClone t).1 d)) =
        some ((), st₂)) :
    Mounts client fuel c table node owner st (.ok ()) st₂.letGo

/-- How a run can end that unmounts a component. -/
inductive Unmounts (client : Client C H) (fuel : Nat) (c : ComponentId) (table : TableId)
    (st : LiveState C H) : Bool → LiveState C H → Prop where
  | idle (mounted : (st.world.component c).mounted = none) :
    Unmounts client fuel c table st false
      (st.withWorld (st.world.modifyComponent c fun component ↦ { component with mounted := none }))
  | unmounted {node : NodeId} {roots : List NodeId} {found : Bool} {st₁ st₂ : LiveState C H}
    (mounted : (st.world.component c).mounted = some (node, roots))
    (hooks : client.run fuel
      ((st.world.viewModel (st.world.component c).vm).lifecycle.run .destroy)
      (st.withWorld (st.world.unsettled c node roots)) = some ((), st₁))
    (disposal : client.run fuel (table.unmount node) st₁ = some (found, st₂)) :
    Unmounts client fuel c table st true
      (st₂.withWorld (st₂.letGo.world.cleared (st.world.component c).vm roots))

end ComponentId

namespace Client

variable {client : Client C H} {fuel : Nat} {st st' : LiveState C H}

theorem run_bind_of_run {β : Type} {p : Live C H α} {f : α → Live C H β} {a : α}
    (h : client.run fuel p st = some (a, st')) :
    client.run fuel (p.bind f) st = client.run fuel (f a) st' := by
  rw [run, Meaning.run] at h
  rw [run, Meaning.run, Runner.run_bind, h]
  rfl

/-- A client's code runs on less fuel than the code that asks for it. -/
theorem run_perform {code : C} (hrun : client.run fuel (Live.perform code) st = some ((), st')) :
    ∃ fuel', client.run fuel' (client.perform code) st = some ((), st') := by
  obtain ⟨⟨⟨⟩, st₁⟩, hcall, hdone⟩ := Option.bind_eq_some_iff.mp hrun
  obtain ⟨-, rfl⟩ := Prod.mk.inj (Option.some.inj hdone)
  cases fuel with
  | zero => contradiction
  | succ fuel => exact ⟨fuel, hcall⟩

/-! ## Executions -/

theorem run_holding {hs : List (Held C)} {p : Live C H α} {a : α}
    (hrun : client.run fuel (Live.holding hs p) st = some (a, st')) :
    ∃ st₁, client.run fuel p (st.withHoldings (hs :: st.world.holdings)) = some (a, st₁) ∧
      st' = st₁.letGo := by
  obtain ⟨⟨⟩, st₁, hpush, hrun⟩ := Meaning.exists_of_run_bind hrun
  obtain ⟨-, rfl⟩ := Prod.mk.inj (Option.some.inj hpush)
  obtain ⟨b, st₂, hp, hrun⟩ := Meaning.exists_of_run_bind hrun
  obtain ⟨⟨⟩, st₃, hpop, hdone⟩ := Meaning.exists_of_run_bind hrun
  obtain ⟨-, rfl⟩ := Prod.mk.inj (Option.some.inj hpop)
  obtain ⟨rfl, rfl⟩ := Prod.mk.inj (Option.some.inj hdone)
  exact ⟨st₂, hp, rfl⟩

/-- Disposing is disposing each binding in order and then removing them from the ledger. -/
theorem run_dispose {d : Disposer C} (hrun : client.run fuel d.dispose st = some ((), st')) :
    ∃ st₁, client.run fuel (Disposer.disposeAll d.owned)
        (st.withHoldings (d.held :: st.world.holdings)) = some ((), st₁) ∧
      st' = st₁.letGo.withWorld (st₁.letGo.world.modifyLedger (st₁.world.viewModel d.vm).ledger
        fun l ↦ l.remove d.ids) := by
  obtain ⟨⟨⟩, st₁, hholding, hremove⟩ := Meaning.exists_of_run_bind hrun
  obtain ⟨-, rfl⟩ := Prod.mk.inj (Option.some.inj hremove)
  obtain ⟨st₂, hall, rfl⟩ := run_holding hholding
  exact ⟨st₂, hall, rfl⟩

/-- An execution carries out its program and then answers what is new in the ledger, or disposes
it. -/
theorem run_execute {program : Option (Program C)} {scope : Scope} {target : Target}
    {answer : Except LinkError (Disposer C)}
    (hrun : client.run fuel (Live.execute program scope target) st = some (answer, st')) :
    ∃ linked st₁, client.run fuel (Program.linkIfAny scope target program) st = some (linked, st₁) ∧
      let d : Disposer C :=
        ⟨scope.vm, (st₁.world.ledgerOf scope.vm).since (st.world.ledgerOf scope.vm).watermark⟩
      (linked = .ok () ∧ answer = .ok d ∧ st' = st₁ ∨
        ∃ e, linked = .error e ∧ answer = .error e ∧
          client.run fuel d.dispose st₁ = some ((), st')) := by
  rw [← Manner.plain_execute] at hrun
  obtain ⟨mark, st₀, hmark, hrun⟩ := Meaning.exists_of_run_bind hrun
  obtain ⟨rfl, rfl⟩ := Prod.mk.inj (Option.some.inj hmark)
  obtain ⟨linked, st₁, hlink, hsettle⟩ := Meaning.exists_of_run_bind hrun
  refine ⟨linked, st₁, hlink, ?_⟩
  cases linked with
  | ok u =>
    obtain ⟨d, st₂, hd, hdone⟩ := Meaning.exists_of_run_bind hsettle
    obtain ⟨rfl, rfl⟩ := Prod.mk.inj (Option.some.inj hd)
    obtain ⟨rfl, rfl⟩ := Prod.mk.inj (Option.some.inj hdone)
    exact .inl ⟨rfl, rfl, rfl⟩
  | error e =>
    obtain ⟨d, st₂, hd, hundo⟩ := Meaning.exists_of_run_bind hsettle
    obtain ⟨rfl, rfl⟩ := Prod.mk.inj (Option.some.inj hd)
    obtain ⟨⟨⟩, st₃, hdispose, hdone⟩ := Meaning.exists_of_run_bind hundo
    obtain ⟨rfl, rfl⟩ := Prod.mk.inj (Option.some.inj hdone)
    exact .inr ⟨e, rfl, rfl, hdispose⟩

/-! ## Mounting -/

/-- The table is asked once more, before the program is carried out, and answers the same. -/
theorem run_mountProgram {table : TableId} {node : NodeId} {program : Option (Program C)}
    {scope : Scope} {target : Target} {answer : Except MountError Unit}
    (hrun : client.run fuel (table.mount node program scope target) st = some (answer, st'))
    (hfree : (st.world.table table).isMounted node = false) :
    ∃ result st₁, client.run fuel (Live.execute program scope target) st = some (result, st₁) ∧
      ((∃ e, result = .error e ∧ answer = .error (.link e) ∧ st' = st₁) ∨
        ∃ d, result = .ok d ∧ answer = .ok () ∧
          st' = st₁.withWorld (st₁.world.modifyTable table fun t ↦ t.insert node d)) := by
  obtain ⟨mounted, st₀, hask, hrun⟩ := Meaning.exists_of_run_bind hrun
  obtain ⟨hmounted, rfl⟩ := Prod.mk.inj (Option.some.inj hask)
  obtain rfl : false = mounted := hfree.symm.trans hmounted
  obtain ⟨result, st₁, hexecute, hrecord⟩ := Meaning.exists_of_run_bind hrun
  refine ⟨result, st₁, hexecute, ?_⟩
  cases result with
  | error e =>
    obtain ⟨rfl, rfl⟩ := Prod.mk.inj (Option.some.inj hrecord)
    exact .inl ⟨e, rfl, rfl, rfl⟩
  | ok d =>
    obtain ⟨⟨⟩, st₂, hinsert, hdone⟩ := Meaning.exists_of_run_bind hrecord
    obtain ⟨-, rfl⟩ := Prod.mk.inj (Option.some.inj hinsert)
    obtain ⟨rfl, rfl⟩ := Prod.mk.inj (Option.some.inj hdone)
    exact .inr ⟨d, rfl, rfl, rfl⟩

theorem run_mount {c : ComponentId} {table : TableId} {node : NodeId} {owner : Option ViewModelId}
    {answer : Except MountError Unit}
    (hrun : client.run fuel (c.mount table node owner) st = some (answer, st')) :
    c.Mounts client fuel table node owner st answer st' := by
  obtain ⟨component, st₀, hask, hrun⟩ := Meaning.exists_of_run_bind hrun
  obtain ⟨rfl, rfl⟩ := Prod.mk.inj (Option.some.inj hask)
  -- One case for each check, in their order; each is refused before anything is done.
  cases htemplate : (st.world.component c).template with
  | none =>
    rw [htemplate] at hrun
    obtain ⟨rfl, rfl⟩ := Prod.mk.inj (Option.some.inj hrun)
    exact .refused (by simp [World.refusal?, htemplate])
  | some t =>
    rw [htemplate] at hrun
    cases hmounted : (st.world.component c).mounted.isSome with
    | true =>
      rw [hmounted] at hrun
      obtain ⟨rfl, rfl⟩ := Prod.mk.inj (Option.some.inj hrun)
      exact .refused (by simp [World.refusal?, htemplate, hmounted])
    | false =>
      rw [hmounted] at hrun
      obtain ⟨disposed, st₁, hask, hrun⟩ := Meaning.exists_of_run_bind hrun
      obtain ⟨hdisposed, rfl⟩ := Prod.mk.inj (Option.some.inj hask)
      cases disposed with
      | true =>
        obtain ⟨rfl, rfl⟩ := Prod.mk.inj (Option.some.inj hrun)
        exact .refused (by simp [World.refusal?, htemplate, hmounted, hdisposed])
      | false =>
        obtain ⟨taken, st₂, hask, hrun⟩ := Meaning.exists_of_run_bind hrun
        obtain ⟨htaken, rfl⟩ := Prod.mk.inj (Option.some.inj hask)
        cases taken with
        | true =>
          obtain ⟨rfl, rfl⟩ := Prod.mk.inj (Option.some.inj hrun)
          exact .refused (by simp [World.refusal?, htemplate, hmounted, hdisposed, htaken])
        | false =>
          have hfree := (World.refusal?_eq_none htemplate).mpr
            ⟨Option.not_isSome_iff_eq_none.mp (Bool.eq_false_iff.mp hmounted), hdisposed, htaken⟩
          obtain ⟨copy, st₃, hclone, hrun⟩ := Meaning.exists_of_run_bind hrun
          obtain ⟨rfl, rfl⟩ := Prod.mk.inj (Option.some.inj hclone)
          obtain ⟨st₄, hheld, rfl⟩ := run_holding hrun
          obtain ⟨result, st₅, hmount, hrest⟩ := Meaning.exists_of_run_bind hheld
          obtain ⟨d?, st₆, hexecute, hresult⟩ := run_mountProgram hmount htaken
          rcases hresult with ⟨e, rfl, rfl, rfl⟩ | ⟨d, rfl, rfl, rfl⟩
          · obtain ⟨rfl, rfl⟩ := Prod.mk.inj (Option.some.inj hrest)
            exact .failed hfree htemplate hexecute
          · obtain ⟨roots, st₇, hroots, hrest⟩ := Meaning.exists_of_run_bind hrest
            obtain ⟨rfl, rfl⟩ := Prod.mk.inj (Option.some.inj hroots)
            obtain ⟨⟨⟩, st₈, happend, hrest⟩ := Meaning.exists_of_run_bind hrest
            obtain ⟨-, rfl⟩ := Prod.mk.inj (Option.some.inj happend)
            obtain ⟨⟨⟩, st₉, hcomponent, hrest⟩ := Meaning.exists_of_run_bind hrest
            obtain ⟨-, rfl⟩ := Prod.mk.inj (Option.some.inj hcomponent)
            obtain ⟨l, st₁₀, hlifecycle, hrest⟩ := Meaning.exists_of_run_bind hrest
            obtain ⟨rfl, rfl⟩ := Prod.mk.inj (Option.some.inj hlifecycle)
            obtain ⟨⟨⟩, st₁₁, hhooks, hdone⟩ := Meaning.exists_of_run_bind hrest
            obtain ⟨rfl, rfl⟩ := Prod.mk.inj (Option.some.inj hdone)
            exact .mounted hfree htemplate hexecute hhooks

/-- A component that is refused is answered so, and nothing is done. -/
theorem run_mount_of_refusal {c : ComponentId} {table : TableId} {node : NodeId}
    {owner : Option ViewModelId} {e : MountError}
    (h : st.world.refusal? c table node = some e) :
    client.run fuel (c.mount table node owner) st = some (.error e, st) := by
  rw [World.refusal?] at h
  refine (run_bind_of_run (a := st.world.component c) rfl).trans ?_
  cases htemplate : (st.world.component c).template with
  | none =>
    rw [htemplate] at h
    obtain rfl := Option.some.inj h
    rfl
  | some t =>
    rw [htemplate] at h
    cases hmounted : (st.world.component c).mounted.isSome with
    | true =>
      rw [hmounted] at h
      obtain rfl := Option.some.inj h
      rfl
    | false =>
      rw [hmounted] at h
      refine (run_bind_of_run
        (a := (st.world.viewModel (st.world.component c).vm).disposed) rfl).trans ?_
      cases hdisposed : (st.world.viewModel (st.world.component c).vm).disposed with
      | true =>
        rw [hdisposed] at h
        obtain rfl := Option.some.inj h
        rfl
      | false =>
        rw [hdisposed] at h
        refine (run_bind_of_run (a := (st.world.table table).isMounted node) rfl).trans ?_
        cases htaken : (st.world.table table).isMounted node with
        | true =>
          rw [htaken] at h
          obtain rfl := Option.some.inj h
          rfl
        | false =>
          rw [htaken] at h
          contradiction

/-! ## Unmounting -/

/-- What is mounted on a node is taken out of the table and disposed, if there is anything. -/
theorem run_unmountNode {table : TableId} {node : NodeId} {found : Bool}
    (hrun : client.run fuel (table.unmount node) st = some (found, st')) :
    (found = false ∧ (st.world.table table).find? node = .none ∧
        st' = st.withWorld (st.world.modifyTable table fun t ↦ t.erase node)) ∨
      ∃ d, found = true ∧ (st.world.table table).find? node = some d ∧
        client.run fuel d.dispose
          (st.withWorld (st.world.modifyTable table fun t ↦ t.erase node)) = some ((), st') := by
  obtain ⟨d?, st₁, htake, hrun⟩ := Meaning.exists_of_run_bind hrun
  obtain ⟨hfind, rfl⟩ := Prod.mk.inj (Option.some.inj htake)
  cases d? with
  | none =>
    obtain ⟨rfl, rfl⟩ := Prod.mk.inj (Option.some.inj hrun)
    exact .inl ⟨rfl, hfind, rfl⟩
  | some d =>
    obtain ⟨⟨⟩, st₂, hdispose, hdone⟩ := Meaning.exists_of_run_bind hrun
    obtain ⟨rfl, rfl⟩ := Prod.mk.inj (Option.some.inj hdone)
    exact .inr ⟨d, rfl, hfind, hdispose⟩

theorem run_unmount {c : ComponentId} {table : TableId} {answer : Bool}
    (hrun : client.run fuel (c.unmount table) st = some (answer, st')) :
    c.Unmounts client fuel table st answer st' := by
  obtain ⟨component, st₀, htake, hrun⟩ := Meaning.exists_of_run_bind hrun
  obtain ⟨rfl, rfl⟩ := Prod.mk.inj (Option.some.inj htake)
  cases hmounted : (st.world.component c).mounted with
  | none =>
    rw [hmounted] at hrun
    obtain ⟨rfl, rfl⟩ := Prod.mk.inj (Option.some.inj hrun)
    exact .idle hmounted
  | some x =>
    obtain ⟨node, roots⟩ := x
    rw [hmounted] at hrun
    obtain ⟨⟨⟩, st₁, hholding, hrun⟩ := Meaning.exists_of_run_bind hrun
    obtain ⟨st₂, hheld, rfl⟩ := run_holding hholding
    obtain ⟨l, st₃, hlifecycle, hheld⟩ := Meaning.exists_of_run_bind hheld
    obtain ⟨rfl, rfl⟩ := Prod.mk.inj (Option.some.inj hlifecycle)
    obtain ⟨⟨⟩, st₄, hhooks, hheld⟩ := Meaning.exists_of_run_bind hheld
    obtain ⟨found, st₅, htable, hdone⟩ := Meaning.exists_of_run_bind hheld
    obtain ⟨-, rfl⟩ := Prod.mk.inj (Option.some.inj hdone)
    obtain ⟨⟨⟩, st₆, hdetach, hrun⟩ := Meaning.exists_of_run_bind hrun
    obtain ⟨-, rfl⟩ := Prod.mk.inj (Option.some.inj hdetach)
    obtain ⟨⟨⟩, st₇, hdisposed, hdone⟩ := Meaning.exists_of_run_bind hrun
    obtain ⟨-, rfl⟩ := Prod.mk.inj (Option.some.inj hdisposed)
    obtain ⟨rfl, rfl⟩ := Prod.mk.inj (Option.some.inj hdone)
    exact .unmounted hmounted hhooks htable

end Client

end LiveMarkup
