/-!
# Lifecycle hooks

Hooks are pieces of code, kept as data, that wait for a component to be mounted or to be
destroyed. Running the hooks of one kind takes all that wait out of the list first, so that a hook
may register further ones, which wait for the next run.
-/

namespace LiveMarkup

/-- The moments for which hooks can wait. -/
inductive Moment where
  | mounted
  | destroy
deriving DecidableEq, Repr

/-- The hooks that wait, each kind in the order of registration. -/
structure Lifecycle (C : Type) where
  mounted : List C := []
  destroy : List C := []
deriving Inhabited

namespace Lifecycle

variable {C : Type}

/-- The hooks that wait for a moment. -/
def pending (l : Lifecycle C) : Moment → List C
  | .mounted => l.mounted
  | .destroy => l.destroy

/-- Adds a hook. -/
def register (l : Lifecycle C) (hook : C) : Moment → Lifecycle C
  | .mounted => { l with mounted := l.mounted ++ [hook] }
  | .destroy => { l with destroy := l.destroy ++ [hook] }

/-- Takes out all hooks that wait for a moment. -/
def drain (l : Lifecycle C) : Moment → List C × Lifecycle C
  | .mounted => (l.mounted, { l with mounted := [] })
  | .destroy => (l.destroy, { l with destroy := [] })

end Lifecycle

end LiveMarkup
