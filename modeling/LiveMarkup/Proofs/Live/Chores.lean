import LiveMarkup.Live.Client
import LiveMarkup.Proofs.Live.Yields
import LiveMarkup.Proofs.Reactive.Beside

/-!
# Mounting and unmounting from anywhere

Hooks, effects and directives may mount and unmount components themselves, also those that are just
being mounted or unmounted. In which order that happens, and what else is under way at the time, is
not to be seen in the world afterwards. So mounting and unmounting a component can be done with a
journal beside the world (`Journaled.mount`, `Journaled.unmount`), which lists what has happened and
knows what is under way (`Phase`), the innermost first.

Code of a client that mounts and unmounts components is written as a `Chore`: live code, in which
what is done to components stands out. A `Household` is a client whose code is all of that kind.
Keeping the journal changes nothing about what it does (`Household.exists_journal`).
-/

namespace LiveMarkup

variable {C H α β : Type}

/-- What is under way with a component. -/
inductive Phase (C : Type) where
  /-- It is being mounted on a node, and its program is being carried out. -/
  | carrying (c : ComponentId) (table : TableId) (node : NodeId)
  /-- It is being unmounted: it is not taken for mounted any more, and its destroy hooks run. -/
  | leaving (c : ComponentId) (table : TableId) (node : NodeId)
  /-- It is being unmounted: what was found on its node has been taken out and is disposed. -/
  | clearing (c : ComponentId) (table : TableId) (node : NodeId) (found : Option (Disposer C))

namespace Phase

/-- Whose phase it is. -/
def component : Phase C → ComponentId
  | .carrying c _ _ | .leaving c _ _ | .clearing c _ _ _ => c

/-- Whether destroy hooks run. -/
def isLeaving : Phase C → Bool
  | .leaving .. => true
  | .carrying .. | .clearing .. => false

/-- Whether the component is being unmounted. -/
def isGoing : Phase C → Bool
  | .carrying .. => false
  | .leaving .. | .clearing .. => true

end Phase

/-- What happens to a component. -/
inductive Passage (C H : Type) where
  /-- A mount has found that it is possible, and begins while other things are under way. -/
  | entering (c : ComponentId) (underWay : List (Phase C))
  /-- What a mount has installed is recorded, in this world. -/
  | mounted (c : ComponentId) (table : TableId) (node : NodeId) (disposer : Disposer C)
    (world : World C H)
  /-- An unmount has found the component mounted, and begins while other things are under way. -/
  | leaving (c : ComponentId) (underWay : List (Phase C))
  /-- An unmount answers, in this world, that the component was mounted. -/
  | left (c : ComponentId) (table : TableId) (world : World C H)

/-- What has happened to components, in order, and what is under way, the innermost first. -/
structure Journal (C H : Type) where
  passages : List (Passage C H) := []
  underWay : List (Phase C) := []

namespace Journal

/-- A mount begins. -/
def enter (j : Journal C H) (c : ComponentId) (table : TableId) (node : NodeId) : Journal C H where
  passages := j.passages ++ [.entering c j.underWay]
  underWay := .carrying c table node :: j.underWay

/-- A mount has failed. -/
def fail (j : Journal C H) : Journal C H := { j with underWay := j.underWay.tail }

/-- A mount has succeeded, but for its hooks. -/
def settle (j : Journal C H) (c : ComponentId) (table : TableId) (node : NodeId) (d : Disposer C)
    (w : World C H) : Journal C H where
  passages := j.passages ++ [.mounted c table node d w]
  underWay := j.underWay.tail

/-- An unmount begins. -/
def leave (j : Journal C H) (c : ComponentId) (table : TableId) (node : NodeId) : Journal C H where
  passages := j.passages ++ [.leaving c j.underWay]
  underWay := .leaving c table node :: j.underWay

/-- Destroy hooks have run. -/
def clear (j : Journal C H) (c : ComponentId) (table : TableId) (node : NodeId)
    (found : Option (Disposer C)) : Journal C H :=
  { j with underWay := .clearing c table node found :: j.underWay.tail }

/-- An unmount has come to its end. -/
def finish (j : Journal C H) (c : ComponentId) (table : TableId) (w : World C H) : Journal C H where
  passages := j.passages ++ [.left c table w]
  underWay := j.underWay.tail

end Journal

/-- Live code with a journal beside the world. -/
abbrev Journaled (C H α : Type) : Type :=
  Script Value (Routine C) (World C H × Journal C H) (Call C) Call.Answer α

namespace Journaled

/-- Code that leaves the journal alone. -/
def live (p : Live C H α) : Journaled C H α := p.beside

/-- Writes the journal. -/
def note (f : World C H → Journal C H → Journal C H) : Journaled C H Unit :=
  Script.change (fun w ↦ (w.1, f w.1 w.2)) (Script.done ())

/-- Runs code that holds some things until it ends. -/
def holding (hs : List (Held C)) (p : Journaled C H α) : Journaled C H α := do
  live (Live.change fun w ↦ { w with holdings := hs :: w.holdings })
  let a ← p
  live (Live.change fun w ↦ { w with holdings := w.holdings.tail })
  return a

/-- Carries out the program of a component on a copy of its template and records the result. -/
def carry (c : ComponentId) (table : TableId) (node : NodeId) (program : Option (Program C))
    (scope : Scope) (target : Target) : Journaled C H (Except MountError Unit) := do
  if ← live (Live.ask fun w ↦ (w.table table).isMounted node) then
    note fun _ j ↦ j.fail
    return .error (.alreadyMounted node)
  match ← live (Live.execute program scope target) with
  | .error e =>
    note fun _ j ↦ j.fail
    return .error (.link e)
  | .ok disposer =>
    live (Live.change fun w ↦ w.modifyTable table fun t ↦ t.insert node disposer)
    note fun w j ↦ j.settle c table node disposer w
    return .ok ()

/-- What a mount does once it has begun. -/
def install (c : ComponentId) (table : TableId) (node : NodeId) (owner : Option ViewModelId)
    (component : Component C) (template : NodeId) : Journaled C H (Except MountError Unit) := do
  let copy ← live (Live.editWith fun nodes ↦ nodes.deepClone template)
  holding [.node copy] do
    match ← carry c table node component.program { vm := component.vm, owner } (.node copy) with
    | .error e => return .error e
    | .ok () =>
      let roots ← live (Live.ask fun w ↦ (w.nodes.get copy).children)
      live (Live.edit fun nodes ↦ nodes.append node copy)
      live (Live.change fun w ↦ w.modifyComponent c fun c ↦
        { c with mounted := some (node, roots) })
      let lifecycle ← live (Live.ask fun w ↦ (w.viewModel component.vm).lifecycle)
      live (lifecycle.run .mounted)
      return .ok ()

/-- Mounts a component on a node. -/
def mount (c : ComponentId) (table : TableId) (node : NodeId) (owner : Option ViewModelId) :
    Journaled C H (Except MountError Unit) := do
  let component ← live (Live.ask fun w ↦ w.component c)
  match component.template with
  | none => return .error (.noTemplate component.name)
  | some template =>
    if component.mounted.isSome then return .error (.componentMounted component.name)
    if ← live component.vm.isDisposed then return .error (.componentDisposed component.name)
    if ← live (Live.ask fun w ↦ (w.table table).isMounted node) then
      return .error (.alreadyMounted node)
    note fun _ j ↦ j.enter c table node
    install c table node owner component template

/-- Takes what is mounted on the node of a component out of the table and disposes it. -/
def takeDown (c : ComponentId) (table : TableId) (node : NodeId) : Journaled C H Bool := do
  let found ← live (Live.act fun w ↦
    ((w.table table).find? node, w.modifyTable table fun t ↦ t.erase node))
  note fun _ j ↦ j.clear c table node found
  match found with
  | some disposer =>
    live disposer.dispose
    return true
  | none => return false

/-- Unmounts a component; answers whether it was mounted. -/
def unmount (c : ComponentId) (table : TableId) : Journaled C H Bool := do
  let component ← live (Live.act fun w ↦
    (w.component c, w.modifyComponent c fun c ↦ { c with mounted := none }))
  match component.mounted with
  | none => return false
  | some (node, roots) =>
    note fun _ j ↦ j.leave c table node
    holding ((node :: roots).map .node) do
      let lifecycle ← live (Live.ask fun w ↦ (w.viewModel component.vm).lifecycle)
      live (lifecycle.run .destroy)
      let _ ← takeDown c table node
    live (Live.edit fun nodes ↦ roots.foldl NodeStore.detach nodes)
    live component.vm.markDisposed
    note fun w j ↦ j.finish c table w
    return true

end Journaled

/-! ## Code that mounts and unmounts -/

/-- Code that mounts and unmounts components. -/
inductive Chore (C H α : Type) : Type 1 where
  /-- The code has ended. -/
  | done (result : α)
  /-- Runs live code. -/
  | live {β : Type} (p : Live C H β) (next : β → Chore C H α)
  /-- Mounts a component on a node. -/
  | mount (c : ComponentId) (table : TableId) (node : NodeId) (owner : Option ViewModelId)
    (next : Except MountError Unit → Chore C H α)
  /-- Unmounts a component. -/
  | unmount (c : ComponentId) (table : TableId) (next : Bool → Chore C H α)

namespace Chore

/-- Carries out code. -/
def plain : Chore C H α → Live C H α
  | .done a => pure a
  | .live p k => do (k (← p)).plain
  | .mount c table node owner k => do (k (← c.mount table node owner)).plain
  | .unmount c table k => do (k (← c.unmount table)).plain

/-- Carries out code and keeps the journal. -/
def journaled : Chore C H α → Journaled C H α
  | .done a => pure a
  | .live p k => do (k (← Journaled.live p)).journaled
  | .mount c table node owner k => do (k (← Journaled.mount c table node owner)).journaled
  | .unmount c table k => do (k (← Journaled.unmount c table)).journaled

end Chore

/-- A client whose code mounts and unmounts components. -/
structure Household (C H : Type) : Type 1 where
  /-- Performs code: of an effect, a hook, or a binding that is disposed. -/
  perform : C → Chore C H Unit
  /-- Makes the binding of a directive on a node, or gives a reason not to. -/
  bind : C → Scope → NodeId → Descriptor → Chore C H (Except String (Binding C))
  /-- Carries out a program of the client's own. -/
  link : C → Scope → Target → Chore C H (Except LinkError Unit)

namespace Household

variable (η : Household C H)

/-- The client. -/
def client : Client C H where
  perform code := (η.perform code).plain
  bind code scope node descriptor := (η.bind code scope node descriptor).plain
  link code scope target := (η.link code scope target).plain

/-- What bodies and calls mean when the journal is kept. -/
def journaled : Meaning Value (Routine C) (World C H × Journal C H) (Call C) Call.Answer where
  body b := Journaled.live b.script
  call
    | .perform code => (η.perform code).journaled
    | .bind code scope node descriptor => (η.bind code scope node descriptor).journaled
    | .link code scope target => (η.link code scope target).journaled
    | .resume => Journaled.live Live.resume

end Household

/-! ## Keeping the journal changes nothing -/

namespace Runner.Mirrors

variable {r' : Runner Value (Routine C) (World C H × Journal C H) (Call C) Call.Answer}
  {r : LiveRunner C H} {limit : Nat}

theorem journaling {p' : Journaled C H α} {p : Live C H α} (h : r'.Follows r limit p' p)
    (f : World C H → Journal C H → Journal C H) :
    r'.Follows r limit (Journaled.note f >>= fun _ ↦ p') p := h.note f

theorem journaledHolding (h : r'.Mirrors r) (hs : List (Held C)) {p' : Journaled C H α}
    {p : Live C H α} (hp : r'.Follows r limit p' p) :
    r'.Follows r limit (Journaled.holding hs p') (Live.holding hs p) :=
  (h.beside limit _).bind fun _ ↦ hp.bind fun a ↦ (h.beside limit _).bind fun _ ↦ .done a

theorem journaledCarry (h : r'.Mirrors r) (c : ComponentId) (table : TableId) (node : NodeId)
    (program : Option (Program C)) (scope : Scope) (target : Target) :
    r'.Follows r limit (Journaled.carry c table node program scope target)
      (table.mount node program scope target) := by
  refine (h.beside limit _).bind fun isMounted ↦ ?_
  cases isMounted with
  | true => exact journaling (.done _) _
  | false =>
    refine (h.beside limit _).bind fun result ↦ ?_
    cases result with
    | error e => exact journaling (.done _) _
    | ok d => exact (h.beside limit _).bind fun _ ↦ journaling (.done _) _

theorem journaledMount (h : r'.Mirrors r) (c : ComponentId) (table : TableId) (node : NodeId)
    (owner : Option ViewModelId) :
    r'.Follows r limit (Journaled.mount c table node owner) (c.mount table node owner) := by
  refine (h.beside limit _).bind fun component ↦ ?_
  cases component.template with
  | none => exact .done _
  | some template =>
    cases component.mounted.isSome with
    | true => exact .done _
    | false =>
      refine (h.beside limit _).bind fun disposed ↦ ?_
      cases disposed with
      | true => exact .done _
      | false =>
        refine (h.beside limit _).bind fun taken ↦ ?_
        cases taken with
        | true => exact .done _
        | false =>
          refine journaling ((h.beside limit _).bind fun copy ↦ h.journaledHolding _ ?_) _
          refine (h.journaledCarry c table node _ _ _).bind fun answer ↦ ?_
          cases answer with
          | error e => exact .done _
          | ok u =>
            refine (h.beside limit _).bind fun roots ↦ (h.beside limit _).bind fun _ ↦ ?_
            refine (h.beside limit _).bind fun _ ↦ (h.beside limit _).bind fun lifecycle ↦ ?_
            exact (h.beside limit _).bind fun _ ↦ .done _

theorem journaledTakeDown (h : r'.Mirrors r) (c : ComponentId) (table : TableId) (node : NodeId) :
    r'.Follows r limit (Journaled.takeDown c table node) (table.unmount node) := by
  refine (h.beside limit _).bind fun found ↦ ?_
  cases found with
  | none => exact journaling (.done false) _
  | some d => exact journaling ((h.beside limit d.dispose).bind fun _ ↦ .done true) _

theorem journaledUnmount (h : r'.Mirrors r) (c : ComponentId) (table : TableId) :
    r'.Follows r limit (Journaled.unmount c table) (c.unmount table) := by
  refine (h.beside limit _).bind fun component ↦ ?_
  cases component.mounted with
  | none => exact .done false
  | some x =>
    obtain ⟨node, roots⟩ := x
    refine journaling ((h.journaledHolding _ ?_).bind fun _ ↦ ?_) _
    · refine (h.beside limit _).bind fun lifecycle ↦ (h.beside limit _).bind fun _ ↦ ?_
      exact (h.journaledTakeDown c table node).bind fun _ ↦ .done _
    · refine (h.beside limit _).bind fun _ ↦ (h.beside limit _).bind fun _ ↦ ?_
      exact journaling (.done true) _

theorem chore (h : r'.Mirrors r) (code : Chore C H α) :
    r'.Follows r limit code.journaled code.plain := by
  induction code with
  | done a => exact .done a
  | live p k ih => exact (h.beside limit p).bind ih
  | mount c table node owner k ih => exact (h.journaledMount c table node owner).bind ih
  | unmount c table k ih => exact (h.journaledUnmount c table).bind ih

end Runner.Mirrors

namespace Household

variable (η : Household C H)

theorem mirrors_runner (fuel : Nat) :
    (η.journaled.runner fuel).Mirrors (η.client.meaning.runner fuel) := by
  refine Meaning.mirrors_runner (fun r' r limit h b ↦ h.beside limit _)
    (fun r' r limit h q ↦ ?_) fuel
  cases q with
  | perform code => exact h.chore _
  | bind code scope node descriptor => exact h.chore _
  | link code scope target => exact h.chore _
  | resume => exact h.beside limit _

/-- **Keeping the journal changes nothing.** A run of a client's code is, apart from the journal, a
run of that code with a journal. -/
theorem exists_journal {fuel : Nat} {code : Chore C H α} {st st' : LiveState C H} {a : α}
    (hrun : η.client.run fuel code.plain st = some (a, st')) :
    ∃ j, η.journaled.run fuel code.journaled (st.beside {}) = some (a, st'.beside j) := by
  have hfollows : (η.journaled.runner fuel).Follows (η.client.meaning.runner fuel) fuel
      code.journaled code.plain := (η.mirrors_runner fuel).chore code
  obtain ⟨⟨a', last⟩, hlast, heq⟩ :=
    Option.map_eq_some_iff.mp ((hfollows (st.beside {})).trans hrun)
  obtain ⟨rfl, rfl⟩ := Prod.mk.inj heq
  exact ⟨last.world.2, hlast⟩

end Household

end LiveMarkup
