import LiveMarkup.Live.Mount
import LiveMarkup.Proofs.Live.Yields
import LiveMarkup.Proofs.Reactive.Beside

/-!
# The chronicle of a mount table

In which order a table was mounted on and unmounted from, and what was refused, is not to be seen in
the table. So mounting and unmounting can be done with a chronicle beside the world (`Noted.mount`,
`Noted.unmount`). A mount that finds its node free is noted when it begins and when it ends, since
the code of directives runs in between and may mount on the same table; an unmount notes what it
takes out, and each binding just before that is disposed.

Code of a client that mounts and unmounts is written as a `Fitting`: live code, in which what is
done at the table stands out. A `Workshop` is a client whose code is all of that kind. Taking notes
changes nothing about what it does (`Workshop.exists_noted`).
-/

namespace LiveMarkup

variable {C H α β : Type}

/-- What happens at a mount table. -/
inductive TableEvent (C : Type) where
  /-- A mount has found its node free, and begins. -/
  | begun (node : NodeId)
  /-- A mount has found something on its node, and is refused. -/
  | refused (node : NodeId)
  /-- A mount that had begun has failed. -/
  | failed (node : NodeId)
  /-- A mount that had begun has succeeded, and what it has installed is recorded. -/
  | mounted (node : NodeId) (disposer : Disposer C)
  /-- What was recorded is taken out. -/
  | unmounted (node : NodeId) (disposer : Disposer C)
  /-- A binding of what was taken out is disposed. -/
  | disposed (vm : ViewModelId) (binding : BindingId)

/-- What has happened at a mount table, in order. -/
abbrev Chronicle (C : Type) : Type := List (TableEvent C)

/-- Live code with a chronicle beside the world. -/
abbrev Noted (C H α : Type) : Type :=
  Script Value (Routine C) (World C H × Chronicle C) (Call C) Call.Answer α

namespace Noted

/-- Code that notes nothing. -/
def live (p : Live C H α) : Noted C H α := p.beside

/-- Notes an event. -/
def note (e : TableEvent C) : Noted C H Unit :=
  Script.change (fun w ↦ (w.1, w.2 ++ [e])) (Script.done ())

/-- Runs code that holds some things until it ends. -/
def holding (hs : List (Held C)) (p : Noted C H α) : Noted C H α := do
  live (Live.change fun w ↦ { w with holdings := hs :: w.holdings })
  let a ← p
  live (Live.change fun w ↦ { w with holdings := w.holdings.tail })
  return a

/-- Undoes bindings in order, and notes each of them. -/
def disposeAll (vm : ViewModelId) : List (BindingId × Binding C) → Noted C H Unit
  | [] => return ()
  | (i, b) :: rest => do
    note (.disposed vm i)
    live b.dispose
    disposeAll vm rest

/-- Undoes what is owned, in order of creation, and removes it from the ledger. -/
def dispose (d : Disposer C) : Noted C H Unit := do
  holding d.held (disposeAll d.vm d.owned)
  live (Live.change fun w ↦ w.modifyLedger (w.viewModel d.vm).ledger fun l ↦ l.remove d.ids)

/-- What a mount does when its program has been carried out. -/
def record (table : TableId) (node : NodeId) :
    Except LinkError (Disposer C) → Noted C H (Except MountError Unit)
  | .error e => do
    note (.failed node)
    return .error (.link e)
  | .ok disposer => do
    live (Live.change fun w ↦ w.modifyTable table fun t ↦ t.insert node disposer)
    note (.mounted node disposer)
    return .ok ()

/-- Carries out a program and records the result under `node`, which must be free. -/
def mount (table : TableId) (node : NodeId) (program : Option (Program C)) (scope : Scope)
    (target : Target) : Noted C H (Except MountError Unit) := do
  if ← live (Live.ask fun w ↦ (w.table table).isMounted node) then
    note (.refused node)
    return .error (.alreadyMounted node)
  note (.begun node)
  record table node (← live (Live.execute program scope target))

/-- What an unmount does with what it has taken out. -/
def clear (node : NodeId) : Option (Disposer C) → Noted C H Bool
  | some disposer => do
    note (.unmounted node disposer)
    dispose disposer
    return true
  | none => return false

/-- Takes what is mounted on a node out of the table and disposes it; answers whether there was
anything. -/
def unmount (table : TableId) (node : NodeId) : Noted C H Bool := do
  clear node (← live (Live.act fun w ↦
    ((w.table table).find? node, w.modifyTable table fun t ↦ t.erase node)))

end Noted

/-! ## Code that mounts -/

/-- Code that mounts on a table and unmounts from it. -/
inductive Fitting (C H α : Type) : Type 1 where
  /-- The code has ended. -/
  | done (result : α)
  /-- Runs live code. -/
  | live {β : Type} (p : Live C H β) (next : β → Fitting C H α)
  /-- Mounts a program on a node. -/
  | mount (node : NodeId) (program : Option (Program C)) (scope : Scope) (target : Target)
    (next : Except MountError Unit → Fitting C H α)
  /-- Unmounts what is on a node. -/
  | unmount (node : NodeId) (next : Bool → Fitting C H α)

namespace Fitting

/-- Carries out code at a table. -/
def plain (table : TableId) : Fitting C H α → Live C H α
  | .done a => pure a
  | .live p k => do (k (← p)).plain table
  | .mount node program scope target k => do
    (k (← table.mount node program scope target)).plain table
  | .unmount node k => do (k (← table.unmount node)).plain table

/-- Carries out code at a table, with a chronicle. -/
def noted (table : TableId) : Fitting C H α → Noted C H α
  | .done a => pure a
  | .live p k => do (k (← Noted.live p)).noted table
  | .mount node program scope target k => do
    (k (← Noted.mount table node program scope target)).noted table
  | .unmount node k => do (k (← Noted.unmount table node)).noted table

end Fitting

/-- A client whose code mounts on one table and unmounts from it. -/
structure Workshop (C H : Type) : Type 1 where
  /-- Performs code: of an effect, a hook, or a binding that is disposed. -/
  perform : C → Fitting C H Unit
  /-- Makes the binding of a directive on a node, or gives a reason not to. -/
  bind : C → Scope → NodeId → Descriptor → Fitting C H (Except String (Binding C))
  /-- Carries out a program of the client's own. -/
  link : C → Scope → Target → Fitting C H (Except LinkError Unit)

namespace Workshop

variable (ω : Workshop C H) (table : TableId)

/-- The client, as it works at a table. -/
def client : Client C H where
  perform code := (ω.perform code).plain table
  bind code scope node descriptor := (ω.bind code scope node descriptor).plain table
  link code scope target := (ω.link code scope target).plain table

/-- What bodies and calls mean when the chronicle of the table is kept. -/
def noted : Meaning Value (Routine C) (World C H × Chronicle C) (Call C) Call.Answer where
  body b := Noted.live b.script
  call
    | .perform code => (ω.perform code).noted table
    | .bind code scope node descriptor => (ω.bind code scope node descriptor).noted table
    | .link code scope target => (ω.link code scope target).noted table
    | .resume => Noted.live Live.resume

end Workshop

/-! ## Notes change nothing -/

namespace Runner.Mirrors

variable {r' : Runner Value (Routine C) (World C H × Chronicle C) (Call C) Call.Answer}
  {r : LiveRunner C H} {limit : Nat}

theorem noting {p' : Noted C H α} {p : Live C H α} (h : r'.Follows r limit p' p)
    (e : TableEvent C) : r'.Follows r limit (Noted.note e >>= fun _ ↦ p') p :=
  h.note fun _ es ↦ es ++ [e]

theorem notedDisposeAll (h : r'.Mirrors r) (vm : ViewModelId)
    (owned : List (BindingId × Binding C)) :
    r'.Follows r limit (Noted.disposeAll vm owned) (Disposer.disposeAll owned) := by
  induction owned with
  | nil => exact .done ()
  | cons x rest ih =>
    have hrest := (h.beside limit x.2.dispose).bind fun _ ↦ ih
    exact noting hrest (.disposed vm x.1)

theorem notedDispose (h : r'.Mirrors r) (d : Disposer C) :
    r'.Follows r limit (Noted.dispose d) d.dispose := by
  refine Follows.bind (?_ : r'.Follows r limit (Noted.holding d.held
    (Noted.disposeAll d.vm d.owned)) (Live.holding d.held (Disposer.disposeAll d.owned)))
    fun _ ↦ h.beside limit _
  exact (h.beside limit _).bind fun _ ↦ (h.notedDisposeAll d.vm d.owned).bind fun u ↦
    (h.beside limit _).bind fun _ ↦ .done u

theorem notedMount (h : r'.Mirrors r) (table : TableId) (node : NodeId)
    (program : Option (Program C)) (scope : Scope) (target : Target) :
    r'.Follows r limit (Noted.mount table node program scope target)
      (table.mount node program scope target) := by
  refine (h.beside limit _).bind fun isMounted ↦ ?_
  cases isMounted with
  | true => exact noting (.done _) (.refused node)
  | false =>
    refine noting ((h.beside limit _).bind fun result ↦ ?_) (.begun node)
    cases result with
    | error e => exact noting (.done _) (.failed node)
    | ok d => exact (h.beside limit _).bind fun _ ↦ noting (.done _) (.mounted node d)

theorem notedUnmount (h : r'.Mirrors r) (table : TableId) (node : NodeId) :
    r'.Follows r limit (Noted.unmount table node) (table.unmount node) := by
  refine (h.beside limit _).bind fun found ↦ ?_
  cases found with
  | none => exact .done false
  | some d => exact noting ((h.notedDispose d).bind fun _ ↦ .done true) (.unmounted node d)

theorem fitting (h : r'.Mirrors r) (table : TableId) (code : Fitting C H α) :
    r'.Follows r limit (code.noted table) (code.plain table) := by
  induction code with
  | done a => exact .done a
  | live p k ih => exact (h.beside limit p).bind ih
  | mount node program scope target k ih =>
    exact (h.notedMount table node program scope target).bind ih
  | unmount node k ih => exact (h.notedUnmount table node).bind ih

end Runner.Mirrors

namespace Workshop

variable (ω : Workshop C H) (table : TableId)

theorem mirrors_runner (fuel : Nat) :
    ((ω.noted table).runner fuel).Mirrors ((ω.client table).meaning.runner fuel) := by
  refine Meaning.mirrors_runner (fun r' r limit h b ↦ h.beside limit _)
    (fun r' r limit h q ↦ ?_) fuel
  cases q with
  | perform code => exact h.fitting table _
  | bind code scope node descriptor => exact h.fitting table _
  | link code scope target => exact h.fitting table _
  | resume => exact h.beside limit _

/-- **Notes change nothing.** A run of a client's code at a table is, apart from the chronicle, a
run of that code with notes. -/
theorem exists_noted {fuel : Nat} {code : Fitting C H α} {st st' : LiveState C H} {a : α}
    (hrun : (ω.client table).run fuel (code.plain table) st = some (a, st')) :
    ∃ h, (ω.noted table).run fuel (code.noted table) (st.beside []) = some (a, st'.beside h) := by
  have hfollows : ((ω.noted table).runner fuel).Follows ((ω.client table).meaning.runner fuel) fuel
      (code.noted table) (code.plain table) := (ω.mirrors_runner table fuel).fitting table code
  obtain ⟨⟨a', last⟩, hlast, heq⟩ :=
    Option.map_eq_some_iff.mp ((hfollows (st.beside [])).trans hrun)
  obtain ⟨rfl, rfl⟩ := Prod.mk.inj heq
  exact ⟨last.world.2, hlast⟩

end Workshop

end LiveMarkup
