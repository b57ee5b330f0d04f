import LiveMarkup.Proofs.Live.Triples

/-!
# What the code of this library has to be allowed

But for mounting and unmounting, the code of this library changes few things by itself: nodes,
hooks, deferred assignments and what is held; the fields of view-models; and ledgers, in which it
enters bindings and from which it removes some. Whatever else happens while it runs is done by
somebody whom it calls. So it obeys all rules that allow this much (`Rules.Lenient`), wherever it
runs and whatever comes of its calls.

Two things are known of where it ends all the same. What an execution answers stands in the ledger
by then (`Live.Triples.execute_recorded`), and what is disposed does not
(`Live.Triples.dispose_removed`).
-/

namespace LiveMarkup

variable {C H α β : Type}

/-- Whether no binding of a disposer stands in its ledger any more. -/
def World.Lacks (w : World C H) (d : Disposer C) : Prop :=
  ∀ i ∈ d.ids, i ∉ (w.ledgerOf d.vm).ids

/-- Whether rules allow what the code of this library does, apart from mounting and unmounting. -/
structure Rules.Lenient (ρ : Rules (World C H) (Call C) Call.Answer) : Prop where
  asks : ∀ q w, ρ.asks q w
  /-- View-models, ledgers, mount tables and components are left alone. -/
  idle : ∀ w w' : World C H, w'.viewModels = w.viewModels → w'.ledgers = w.ledgers →
    w'.tables = w.tables → w'.components = w.components → ρ.own w w'
  fields : ∀ (w : World C H) vm (f : ViewModel → List (String × SignalId)),
    ρ.own w (w.modifyViewModel vm fun m ↦ { m with fields := f m })
  register : ∀ (w : World C H) vm b, ρ.own w (w.register vm b)
  remove : ∀ (w : World C H) i ids, ρ.own w (w.modifyLedger i fun l ↦ l.remove ids)

namespace Live.Triples

/-- Whether code obeys rules, wherever it runs. -/
abbrev Heeds (ρ : Rules (World C H) (Call C) Call.Answer) (p : Live C H α) : Prop :=
  (obeys ρ).Keeps (fun _ ↦ True) p

namespace Heeds

variable {ρ : Rules (World C H) (Call C) Call.Answer}

theorem change {f : World C H → World C H} (h : ∀ w, ρ.own w (f w)) : Heeds ρ (Live.change f) :=
  (obeys ρ).change fun w _ ↦ ⟨h w, trivial⟩

theorem act {f : World C H → α × World C H} (h : ∀ w, ρ.own w (f w).2) : Heeds ρ (Live.act f) :=
  (obeys ρ).act fun w _ ↦ ⟨h w, trivial⟩

section Assignments

variable (hfields : ∀ (w : World C H) vm (f : ViewModel → List (String × SignalId)),
  ρ.own w (w.modifyViewModel vm fun m ↦ { m with fields := f m }))

include hfields

theorem declare_of (vm : ViewModelId) (name : String) :
    Heeds ρ (vm.declare name : Live C H SignalId) := by
  refine (Keeps.ask _).bind fun found ↦ ?_
  cases found with
  | some s => exact .done s
  | none =>
    refine Keeps.bind (fun _ _ _ ↦ trivial) fun s ↦ (change fun w ↦ ?_).bind fun _ ↦ .done s
    exact hfields w vm _

/-- Looking at assignments changes nothing else than them, fields and what is held. -/
theorem resume_of (hdeferred : ∀ (w : World C H) d, ρ.own w { w with deferred := d })
    (hholdings : ∀ (w : World C H) hs, ρ.own w { w with holdings := hs })
    (hasks : ∀ w, ρ.asks .resume w) : Heeds ρ (Live.resume : Live C H Unit) := by
  have hresume : Heeds ρ (Live.call .resume) := fun w _ ↦ ⟨hasks w, fun _ _ _ ↦ trivial⟩
  refine (act fun w ↦ ?_).bind fun next ↦ ?_
  · cases w.deferred.next? with
    | some x => exact hdeferred w _
    | none => exact hdeferred w w.deferred
  · cases next with
    | none => exact .done ()
    | some a =>
      obtain ⟨vm, field, arrival, waiting⟩ := a
      cases arrival with
      | fulfilled v =>
        have hset : Heeds ρ (vm.set field v : Live C H Unit) :=
          (declare_of hfields vm field).bind fun s _ _ _ _ ↦ trivial
        exact (Keeps.holding _ (fun w hs _ ↦ ⟨hholdings w hs, trivial⟩) hset).bind fun _ ↦ hresume
      | «open» => exact hresume
      | rejected => exact hresume

end Assignments

variable (hρ : ρ.Lenient)

include hρ

theorem call (q : Call C) : Heeds ρ (Live.call q) :=
  fun w _ ↦ ⟨hρ.asks q w, fun _ _ _ ↦ trivial⟩

theorem edit (f : NodeStore → NodeStore) : Heeds ρ (Live.edit f) :=
  change fun w ↦ hρ.idle w _ rfl rfl rfl rfl

theorem editWith (f : NodeStore → α × NodeStore) : Heeds ρ (Live.editWith f) :=
  act fun w ↦ hρ.idle w _ rfl rfl rfl rfl

theorem holdings (f : List (List (Held C)) → List (List (Held C))) :
    Heeds ρ (Live.change fun w ↦ { w with holdings := f w.holdings }) :=
  change fun w ↦ hρ.idle w _ rfl rfl rfl rfl

theorem holding (hs : List (Held C)) {p : Live C H α} (h : Heeds ρ p) :
    Heeds ρ (Live.holding hs p) :=
  Keeps.holding hs (fun w _ _ ↦ ⟨hρ.idle w _ rfl rfl rfl rfl, trivial⟩) h

theorem script (b : Routine C) : Heeds ρ (b.script : Live C H Unit) :=
  Keeps.script (fun _ _ _ ↦ edit hρ _) (fun _ _ _ _ ↦ edit hρ _) fun _ _ ↦ call hρ _

theorem resume : Heeds ρ (Live.resume : Live C H Unit) :=
  resume_of hρ.fields (fun w _ ↦ hρ.idle w _ rfl rfl rfl rfl)
    (fun w _ ↦ hρ.idle w _ rfl rfl rfl rfl) fun w ↦ hρ.asks _ w

theorem performAll (codes : List C) : Heeds ρ (LifecycleId.performAll codes : Live C H Unit) := by
  induction codes with
  | nil => exact .done ()
  | cons code codes ih => exact (call hρ _).bind fun _ ↦ ih

/-- Running the hooks of a moment. -/
theorem hooks (l : LifecycleId) (moment : Moment) : Heeds ρ (l.run moment : Live C H Unit) :=
  (act fun w ↦ hρ.idle w _ rfl rfl rfl rfl).bind fun codes ↦ performAll hρ codes

/-! ### Bindings -/

theorem dispose (b : Binding C) : Heeds ρ (b.dispose : Live C H Unit) := by
  cases b with
  | effect e => exact fun _ _ ↦ trivial
  | client code => exact call hρ _

theorem disposeAll (owned : List (BindingId × Binding C)) :
    Heeds ρ (Disposer.disposeAll owned : Live C H Unit) := by
  induction owned with
  | nil => exact .done ()
  | cons e rest ih => exact (dispose hρ e.2).bind fun _ ↦ ih

theorem application (a : Application C) (scope : Scope) (n : NodeId) :
    Heeds ρ (a.bind scope n : Live C H (Except String (Binding C))) := by
  rw [Application.bind]
  cases a.directive.behaviour with
  | text => exact fun _ _ _ _ _ ↦ trivial
  | attr =>
    cases a.descriptor.attributeRoutine scope.vm n with
    | ok routine => exact fun _ _ _ _ _ ↦ trivial
    | error reason => exact .done _
  | client code => exact call hρ _

theorem supports (scope : Scope) :
    (obeys ρ).Supports scope (fun _ _ ↦ True) (fun _ ↦ True) (fun _ ↦ True) where
  mono _ _ _ _ _ := trivial
  holdings _ w _ _ := ⟨hρ.idle w _ rfl rfl rfl rfl, trivial⟩
  removeAttribute _ w _ _ _ _ := ⟨hρ.idle w _ rfl rfl rfl rfl, trivial⟩
  setTextContent _ w _ _ _ _ := ⟨hρ.idle w _ rfl rfl rfl rfl, trivial⟩
  plant _ w _ _ := ⟨hρ.idle w _ rfl rfl rfl rfl, trivial⟩
  children _ _ _ _ _ := trivial
  replace _ w _ _ _ _ _ := ⟨hρ.idle w _ rfl rfl rfl rfl, trivial⟩
  bind _ a n _ _ := mono _ (application hρ a scope n) fun _ w _ ↦
    ⟨trivial, fun b _ ↦ ⟨hρ.register w scope.vm b, trivial⟩⟩
  client _ _ _ _ _ := call hρ _

theorem linkIfAny (scope : Scope) (target : Target) (program : Option (Program C)) :
    Heeds ρ (Program.linkIfAny scope target program : Live C H (Except LinkError Unit)) := by
  cases program with
  | none => exact .done _
  | some p =>
    have huses := p.uses_of_forall (fun _ ↦ trivial) fun _ ↦ trivial
    exact mono _ ((supports hρ scope).link target target.among_all p huses) fun _ _ _ ↦ trivial

end Heeds

variable {ρ : Rules (World C H) (Call C) Call.Answer} (hρ : ρ.Lenient)

include hρ

/-- What was disposed does not stand in its ledger. -/
theorem dispose_removed (d : Disposer C) :
    (obeys ρ).holds (fun _ ↦ True) (d.dispose : Live C H Unit) fun _ w ↦ w.Lacks d := by
  refine (obeys ρ).bind (Heeds.holding hρ _ (Heeds.disposeAll hρ d.owned)) fun _ ↦ ?_
  refine (obeys ρ).change fun w _ ↦ ⟨hρ.remove w _ d.ids, fun i hi hmem ↦ ?_⟩
  have hledger : (w.modifyLedger (w.viewModel d.vm).ledger fun l ↦ l.remove d.ids).ledger? d.vm =
      (w.ledger? d.vm).map fun l ↦ l.remove d.ids :=
    (World.ledger?_modifyLedger ..).trans (if_pos rfl)
  cases hl : w.ledger? d.vm with
  | none =>
    rw [hl, Option.map_none, World.ledger?] at hledger
    rw [World.ledgerOf, World.ledger, Array.getD_eq_getD_getElem?, hledger] at hmem
    exact List.not_mem_nil hmem
  | some l =>
    rw [hl, Option.map_some] at hledger
    rw [World.ledgerOf_of_ledger? hledger] at hmem
    exact (Ledger.mem_ids_remove.mp hmem).2 hi

/-- What an execution answers belongs to the scope and stands in its ledger. -/
theorem execute_recorded (program : Option (Program C)) (scope : Scope) (target : Target) :
    (obeys ρ).holds (fun _ ↦ True)
      (Live.execute program scope target : Live C H (Except LinkError (Disposer C)))
      fun answer w ↦ ∀ d, answer = .ok d → d.vm = scope.vm ∧ d.ids ⊆ (w.ledgerOf d.vm).ids := by
  rw [← Manner.plain_execute]
  refine (obeys ρ).bind (Keeps.ask _) fun mark ↦
    (obeys ρ).bind (Heeds.linkIfAny hρ scope target program) fun result ↦ ?_
  cases result with
  | ok u =>
    refine (obeys ρ).bind (Q := fun d w ↦ d.vm = scope.vm ∧ d.ids ⊆ (w.ledgerOf d.vm).ids)
      ((obeys ρ).ask fun w _ ↦ ⟨rfl, ?_⟩) fun d ↦ (obeys ρ).done fun w hd d' hd' ↦ ?_
    · exact (List.filter_sublist.map _).subset
    · obtain rfl := Except.ok.inj hd'
      exact hd
  | error e =>
    refine (obeys ρ).bind (Keeps.ask _) fun d ↦ (obeys ρ).bind (dispose_removed hρ d) fun _ ↦ ?_
    exact (obeys ρ).done fun w _ d' hd' ↦ nomatch hd'

theorem Heeds.execute (program : Option (Program C)) (scope : Scope) (target : Target) :
    Heeds ρ (Live.execute program scope target : Live C H (Except LinkError (Disposer C))) :=
  mono _ (execute_recorded hρ program scope target) fun _ _ _ ↦ trivial

end Live.Triples

end LiveMarkup
