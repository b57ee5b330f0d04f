import LiveMarkup.Proofs.Live.Aside

/-!
# Rejected mounts

A mount that is refused before its program is carried out does nothing. One whose program fails has
worked on a copy of the template until then, and has entered bindings into one ledger. If the
directives keep to their nodes, these were nodes of the copy, which nobody else knows. So when the
bindings have been disposed and removed, everything that there was is as it was
(`Client.mount_rejected`).

It does not suffice that the directives keep to their nodes when they are bound: if a mount fails,
what their bindings do when they are disposed is also done (`Visitor.rude_rejected`).
-/

namespace LiveMarkup

variable {C H : Type}

/-- How a mount is undone whose program has failed on a copy of a template, in the state `st₁`, in
which `l₁` is the ledger of the component's view-model. -/
structure ComponentId.Undoes (client : Client C H) (fuel : Nat) (c : ComponentId)
    (owner : Option ViewModelId) (reason : LinkError) (st st' : LiveState C H) (t : NodeId)
    (st₁ : LiveState C H) (l l₁ : Ledger (Binding C)) (new : List (BindingId × Binding C)) :
    Prop where
  template : (st.world.component c).template = some t
  before : st.world.ledger? (st.world.component c).vm = some l
  failure : client.run fuel
    (Program.linkIfAny ⟨(st.world.component c).vm, owner, none⟩
      (.node (st.world.nodes.deepClone t).1) (st.world.component c).program)
    (st.withWorld (st.world.copied t)) = some (.error reason, st₁)
  made : st₁.world.ledger? (st.world.component c).vm = some l₁
  /-- These are all bindings that were entered meanwhile. -/
  gains : l.Gains l₁ new []
  /-- They are disposed in order, and removed. -/
  disposal : ∃ st₂ : LiveState C H, st' = st₂.letGo ∧
    client.run fuel (Disposer.dispose ⟨(st.world.component c).vm, new⟩) st₁ = some ((), st₂)
  after : st'.world.ledger? (st.world.component c).vm = some (l₁.remove (new.map Prod.fst))

namespace Client

variable {client : Client C H} {fuel : Nat} {st st' : LiveState C H} {c : ComponentId}
  {table : TableId} {node : NodeId} {owner : Option ViewModelId}

/-- **A rejected mount changes nothing.** Take a component whose template was compiled with
directives that keep to their nodes. If it is not mounted, everything is as it was before; and
either it was refused at once, or its program failed on a copy of the template, and every binding
that was made meanwhile was disposed. -/
theorem mount_rejected {compiler : Compiler C} {t : Tree NodeId} {e : MountError}
    (hnodes : st.world.nodes.Linked) (hvm : st.world.Hosts (st.world.component c).vm)
    (hprogram : (st.world.component c).program = (compiler.compile t).1)
    (hdirectives : compiler.registry.All fun d ↦ d.behaviour.KeepsTo client)
    (hrun : client.run fuel (c.mount table node owner) st = some (.error e, st')) :
    st.world.Undisturbed st'.world ∧
      (st.world.refusal? c table node = some e ∧ st' = st ∨
        ∃ reason t st₁ l l₁ new, e = .link reason ∧
          c.Undoes client fuel owner reason st st' t st₁ l l₁ new) := by
  cases run_mount hrun with
  | refused hreason => exact ⟨.refl _, .inl ⟨hreason, rfl⟩⟩
  | @failed t₀ reason st₁ _ htemplate hexecution =>
    obtain ⟨l, hl, hsound⟩ := hvm.ledger
    -- The program is given nodes of the copy only, and entries come to one ledger only.
    have huses := Compiler.uses_compile hdirectives.of_resolve? t
    rw [← hprogram] at huses
    obtain ⟨linked, st₂, l₁, new, hlink, -, hgathers, hend⟩ :=
      (World.Builds.copied hnodes hl t₀).run_execute hvm.viewModel hsound hl huses
        (List.mem_singleton_self _) hexecution
    rcases hend with ⟨-, hok, -⟩ | ⟨e', rfl, he, hdispose, hafter, hundisturbed⟩
    · contradiction
    obtain rfl := Except.error.inj he
    refine ⟨hundisturbed.holdings _, .inr ⟨reason, t₀, st₂, l, l₁, new, rfl, ?_⟩⟩
    constructor
    · exact htemplate
    · exact hl
    · exact hlink
    · exact hgathers.after
    · exact hgathers.gains
    · exact ⟨st₁, rfl, hdispose⟩
    · exact hafter

end Client

/-! ### Visitors -/

/-- What three directives do: make a binding that is disposed by doing nothing, or one that is
disposed by leaving a mark on a node, or refuse. -/
inductive Visitor where
  | polite
  | rude (host : NodeId)
  | refuse

namespace Visitor

def directive (visitor : Visitor) : Directive Visitor := { behaviour := .client visitor }

def compiler (visitor : Visitor) : Compiler Visitor where
  registry := (Registry.builtin.register "visit" visitor.directive).register "refuse"
    refuse.directive

def client : Client Visitor Unit where
  perform
    | polite | refuse => pure ()
    | rude host => Live.edit fun nodes ↦ nodes.setAttribute host "visited" ""
  bind
    | refuse, _, _, _ => pure (.error "never")
    | visitor, _, _, _ => pure (.ok (.client visitor))
  link _ _ _ := pure (.ok ())

/-- A visit, and then a refusal. -/
def template : Tree NodeId :=
  .fragment ⟨0⟩ [.element ⟨1⟩ "p" [("v-visit", "")] [], .element ⟨2⟩ "p" [("v-refuse", "")] []]

def house : Tree NodeId := .element ⟨3⟩ "div" [] []

/-- The template and a house, and a component that is not mounted. -/
def state (visitor : Visitor) : LiveState Visitor Unit where
  graph := .empty
  world := {
    nodes := ((NodeStore.empty.plant template).2.plant house).2
    viewModels := #[⟨[], ⟨0⟩, ⟨0⟩, false, false⟩]
    ledgers := #[.empty]
    lifecycles := #[{}]
    tables := #[.empty]
    components := #[⟨"visit", ⟨0⟩, some ⟨0⟩, (visitor.compiler.compile template).1, none⟩]
    host := () }

/-- Binding a visitor changes nothing. -/
theorem run_bind {visitor : Visitor} {scope : Scope} {n : NodeId} {d : Descriptor} {fuel : Nat}
    {st st' : LiveState Visitor Unit} {answer : Except String (Binding Visitor)}
    (hrun : client.run fuel (client.bind visitor scope n d) st = some (answer, st')) :
    st' = st ∧ ∀ b, answer = .ok b → b = .client visitor := by
  cases visitor with
  | refuse =>
    obtain ⟨rfl, rfl⟩ := Prod.mk.inj (Option.some.inj hrun)
    exact ⟨rfl, fun b hb ↦ by contradiction⟩
  | _ =>
    obtain ⟨rfl, rfl⟩ := Prod.mk.inj (Option.some.inj hrun)
    exact ⟨rfl, fun b hb ↦ (Except.ok.inj hb).symm⟩

theorem keepsTo_client {visitor : Visitor} (h : client.perform visitor = pure ()) :
    Behaviour.KeepsTo client (.client visitor) := by
  intro scope n d fuel st answer st' hst _ hrun
  obtain ⟨rfl, hb⟩ := run_bind hrun
  refine ⟨.refl hst, fun b hok ↦ ?_⟩
  obtain rfl := hb b hok
  intro fuel st₁ a st₂ hst₁ _ hdispose
  cases fuel with
  | zero => contradiction
  | succ fuel =>
    have hdone : client.run (fuel + 1) (Live.perform visitor) st₁ =
        (client.run fuel (client.perform visitor) st₁).bind fun x ↦ some (x.1, x.2) := rfl
    rw [h] at hdone
    obtain ⟨-, rfl⟩ := Prod.mk.inj (Option.some.inj (hdone.symm.trans hdispose))
    exact .refl hst₁

/-- After a polite visit nothing has changed. -/
theorem polite_rejected : ∃ st' : LiveState Visitor Unit,
    client.run 3 (ComponentId.mount ⟨0⟩ ⟨0⟩ ⟨3⟩ none) (state polite) =
      some (.error (.link (.directive "refuse" "never")), st') ∧
    (state polite).world.Undisturbed st'.world := by
  have hanswer : (client.run 3 (ComponentId.mount ⟨0⟩ ⟨0⟩ ⟨3⟩ none) (state polite)).map (·.1) =
      some (.error (.link (.directive "refuse" "never"))) := by decide +kernel
  obtain ⟨⟨answer, st'⟩, hrun, rfl⟩ := Option.map_eq_some_iff.mp hanswer
  have hempty := NodeStore.Extends.refl NodeStore.Linked.empty
  have hnodes : (state polite).world.nodes.Linked :=
    ((NodeStore.Extends.refl (hempty.plant template).2.2.linked).plant house).2.2.linked
  have hdirectives : (compiler polite).registry.All fun d ↦ d.behaviour.KeepsTo client :=
    Registry.all_register (Registry.all_register (Registry.all_builtin trivial trivial) _
      (keepsTo_client rfl)) _ (keepsTo_client rfl)
  exact ⟨st', hrun, (Client.mount_rejected hnodes ⟨by decide, .empty, rfl, Ledger.sound_empty⟩ rfl
    hdirectives hrun).1⟩

/-- A rude visitor leaves its mark on the node after all, though no directive touches anything while
it is bound. -/
theorem rude_rejected :
    (∀ (visitor : Visitor) scope n d fuel (st : LiveState Visitor Unit) answer st',
      client.run fuel (client.bind visitor scope n d) st = some (answer, st') → st' = st) ∧
    ((state (rude ⟨3⟩)).world.nodes.get ⟨3⟩).attrs = [] ∧
    (client.run 3 (ComponentId.mount ⟨0⟩ ⟨0⟩ ⟨3⟩ none) (state (rude ⟨3⟩))).map
        (fun x ↦ (x.1, (x.2.world.nodes.get ⟨3⟩).attrs)) =
      some (.error (.link (.directive "refuse" "never")), [("visited", "")]) := by
  refine ⟨fun _ _ _ _ _ _ _ _ hrun ↦ (run_bind hrun).1, ?_, ?_⟩
  · decide +kernel
  · decide +kernel

end Visitor

end LiveMarkup
