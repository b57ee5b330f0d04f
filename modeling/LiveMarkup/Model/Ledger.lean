/-!
# Ledgers

A ledger lists what was installed, in the order of installation, each entry under an identity.
Identities are handed out in increasing order and never again, so that a mark taken now separates
the entries registered before from those registered after, wherever other entries have gone in the
meantime.
-/

namespace LiveMarkup

/-- The identity of a ledger entry. -/
structure BindingId where
  index : Nat
deriving DecidableEq, Repr, Inhabited

namespace BindingId

/-- The identity in words. -/
def text (b : BindingId) : String := s!"b{b.index}"

end BindingId

/-- Entries of type `β` in the order of their registration. -/
structure Ledger (β : Type) where
  entries : List (BindingId × β)
  /-- The index that the next entry receives. -/
  next : Nat
deriving Inhabited

namespace Ledger

variable {β : Type}

/-- No entries. -/
def empty : Ledger β := ⟨[], 0⟩

/-- Adds an entry under the next identity. -/
def register (l : Ledger β) (b : β) : BindingId × Ledger β :=
  (⟨l.next⟩, ⟨l.entries ++ [(⟨l.next⟩, b)], l.next + 1⟩)

/-- The identity that the next entry receives. -/
def watermark (l : Ledger β) : BindingId := ⟨l.next⟩

/-- The identities of the entries, in order. -/
def ids (l : Ledger β) : List BindingId := l.entries.map (·.1)

/-- Whether there is an entry of that identity. -/
def contains (l : Ledger β) (b : BindingId) : Bool := l.ids.contains b

/-- The entries that were registered at or after a mark. -/
def since (l : Ledger β) (mark : BindingId) : List (BindingId × β) :=
  l.entries.filter fun e ↦ mark.index ≤ e.1.index

/-- The ledger without the entries of the given identities. -/
def remove (l : Ledger β) (ids : List BindingId) : Ledger β :=
  { l with entries := l.entries.filter fun e ↦ !ids.contains e.1 }

@[simp] theorem entries_register (l : Ledger β) (b : β) :
    (l.register b).2.entries = l.entries ++ [(l.watermark, b)] := rfl

@[simp] theorem next_register (l : Ledger β) (b : β) : (l.register b).2.next = l.next + 1 := rfl

@[simp] theorem next_remove (l : Ledger β) (ids : List BindingId) :
    (l.remove ids).next = l.next := rfl

end Ledger

end LiveMarkup
