import LiveMarkup.Live.Mount

/-!
# Components

A component is a view-model with a compiled template. Mounting it on a node carries out its
program on a copy of the template and appends the copy to the node; unmounting takes down what
mounting has set up, and disposes the view-model, after which the component cannot be mounted
again. It is mounted on one node at a time.
-/

namespace LiveMarkup

variable {C H : Type}

namespace Live

/-- Compiles the tree below a node, and keeps the reports with the compiler. -/
def compileWith (compiler : CompilerId)
    (compile : Compiler C → NodeStore → Option (Program C) × Trace) :
    Live C H (Option (Program C)) :=
  act fun w ↦
    let (program, trace) := compile (w.compiler compiler).compiler w.nodes
    let w := w.modifyCompiler compiler fun c ↦
      { c with diagnostics := c.diagnostics ++ trace.diagnostics }
    (program, w.modifyNodes fun nodes ↦ nodes.reserve trace.identities)

/-- Compiles the tree below a node. -/
def compile (compiler : CompilerId) (node : NodeId) : Live C H (Option (Program C)) :=
  compileWith compiler fun c nodes ↦ c.compile (nodes.tree node)

/-- Compiles a node, its children aside. -/
def compileNode (compiler : CompilerId) (node : NodeId) : Live C H (Option (Program C)) :=
  compileWith compiler fun c nodes ↦ c.compileNode (nodes.tree node)

/-- Compiles the trees below sibling nodes. -/
def compileNodes (compiler : CompilerId) (siblings : List NodeId) :
    Live C H (Option (Program C)) :=
  compileWith compiler fun c nodes ↦ c.compileAll (siblings.map nodes.tree)

/-- Reads markup into a new fragment that holds its roots. Blank texts among the roots are made and
left out; of a source that cannot be read, the nodes before the defect are made and left alone. -/
def parseFragment (source : String) : Live C H (Except ParseError NodeId) :=
  editWith fun nodes ↦
    let r := Reading.ofSource source
    match r.error with
    | some e => (.error e, nodes.reserve r.nodeCount)
    | none =>
      let forest := r.forest
      let (roots, nodes) := nodes.plantAll forest
      let (fragment, nodes) := nodes.create { kind := .fragment }
      let kept := (forest.zip roots).filterMap fun (t, n) ↦
        if t.isBlankText then none else some n
      (.ok fragment, kept.foldl (fun nodes n ↦ nodes.append fragment n) nodes)

end Live

namespace ComponentId

/-- A new component with the given template, which is compiled. -/
def assemble (name : String) (vm : ViewModelId) (compiler : CompilerId)
    (template : Option NodeId) : Live C H ComponentId := do
  let program ← match template with
    | some t => Live.compile compiler t
    | none => pure none
  Live.act fun w ↦ w.addComponent ⟨name, vm, template, program, none⟩

/-- A new component whose template is read from a source. -/
def ofSource (name : String) (vm : ViewModelId) (compiler : CompilerId) (source : String) :
    Live C H (Except ParseError ComponentId) := do
  match ← Live.parseFragment source with
  | .error e => return .error e
  | .ok template => return .ok (← assemble name vm compiler (some template))

/-- A new component whose template was looked for by name. If it was not found or cannot be read,
the component has no template. -/
def ofLoaded (name : String) (vm : ViewModelId) (compiler : CompilerId)
    (loaded : Except LoadError String) : Live C H ComponentId := do
  match loaded with
  | .error _ => assemble name vm compiler none
  | .ok source =>
    match ← Live.parseFragment source with
    | .error _ => assemble name vm compiler none
    | .ok template => assemble name vm compiler (some template)

/-- Whether the component is mounted. -/
def isMounted (c : ComponentId) : Live C H Bool :=
  Live.ask fun w ↦ (w.component c).mounted.isSome

/-- Mounts the component on `node`, within a component of the given view-model, if any. -/
def mount (c : ComponentId) (table : TableId) (node : NodeId) (owner : Option ViewModelId) :
    Live C H (Except MountError Unit) := do
  let component ← Live.ask fun w ↦ w.component c
  match component.template with
  | none => return .error (.noTemplate component.name)
  | some template =>
    if component.mounted.isSome then return .error (.componentMounted component.name)
    if ← component.vm.isDisposed then return .error (.componentDisposed component.name)
    if ← Live.ask fun w ↦ (w.table table).isMounted node then
      return .error (.alreadyMounted node)
    let copy ← Live.editWith fun nodes ↦ nodes.deepClone template
    Live.holding [.node copy] do
      match ← table.mount node component.program { vm := component.vm, owner } (.node copy) with
      | .error e => return .error e
      | .ok () =>
        let roots ← Live.ask fun w ↦ (w.nodes.get copy).children
        Live.edit fun nodes ↦ nodes.append node copy
        Live.change fun w ↦ w.modifyComponent c fun c ↦ { c with mounted := some (node, roots) }
        (← Live.ask fun w ↦ (w.viewModel component.vm).lifecycle).run .mounted
        return .ok ()

/-- Unmounts the component: its destroy hooks are run, what is mounted on its node is disposed, its
nodes are taken out, and its view-model is disposed. Answers whether it was mounted. -/
def unmount (c : ComponentId) (table : TableId) : Live C H Bool := do
  let component ← Live.act fun w ↦
    (w.component c, w.modifyComponent c fun c ↦ { c with mounted := none })
  match component.mounted with
  | none => return false
  | some (node, roots) =>
    Live.holding ((node :: roots).map .node) do
      (← Live.ask fun w ↦ (w.viewModel component.vm).lifecycle).run .destroy
      let _ ← table.unmount node
    Live.edit fun nodes ↦ roots.foldl NodeStore.detach nodes
    component.vm.markDisposed
    return true

end ComponentId

end LiveMarkup
