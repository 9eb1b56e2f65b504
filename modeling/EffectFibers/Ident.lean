/-!
# Identifiers

Fibers, tags, layers, waits, groups, run scopes, timers and one-shot tickets are all named by
numbers that are handed out in increasing order.  Each kind has its own type, so that a tag is
never mistaken for a fiber, and zero is kept back to mean "no identifier".

## Main definitions

* `Ident kind` – an identifier of one kind.
* `Supply kind` – the counter that hands identifiers out.
-/

namespace EffectFibers

/-- What an identifier names. -/
inductive IdentKind
  | fiber | tag | layer | wait | group | scope | timer | ticket
  deriving DecidableEq, Repr

/-- An identifier of the given kind.  Zero stands for "no identifier". -/
structure Ident (kind : IdentKind) where
  raw : Nat
  deriving DecidableEq, Repr

abbrev FiberId := Ident .fiber
abbrev TagId := Ident .tag
abbrev LayerId := Ident .layer
abbrev WaitId := Ident .wait
abbrev GroupId := Ident .group
abbrev ScopeId := Ident .scope
abbrev TimerId := Ident .timer
abbrev Ticket := Ident .ticket

/-- The word that introduces an identifier of this kind in detailed output. -/
def IdentKind.label : IdentKind → String
  | .fiber => "FiberId"
  | .tag => "TagId"
  | .layer => "LayerId"
  | .wait => "WaitId"
  | .group => "GroupId"
  | .scope => "ScopeId"
  | .timer => "TimerHandle"
  | .ticket => "Ticket"

namespace Ident

variable {kind : IdentKind}

/-- The value that means "no identifier". -/
def none : Ident kind := ⟨0⟩

instance : Inhabited (Ident kind) := ⟨none⟩

def isNone (i : Ident kind) : Bool := i.raw == 0

/-- Identifiers are ordered by age. -/
def older (i j : Ident kind) : Bool := i.raw < j.raw

/-- The short form: a number sign and the number, or `none`. -/
def display (i : Ident kind) : String :=
  if i.isNone then "none" else s!"#{i.raw}"

/-- The detailed form: the kind's label around the number, or around `NONE`. -/
def debug (i : Ident kind) : String :=
  kind.label ++ "(" ++ (if i.isNone then "NONE" else toString i.raw) ++ ")"

theorem isNone_iff (i : Ident kind) : i.isNone = true ↔ i = none := by
  cases i
  simp [isNone, none]

end Ident

/-- A counter that hands out identifiers of one kind, starting from one. -/
structure Supply (kind : IdentKind) where
  issued : Nat := 0
  deriving DecidableEq, Repr

namespace Supply

variable {kind : IdentKind}

/-- Hand out the next identifier. -/
def next (s : Supply kind) : Ident kind × Supply kind :=
  (⟨s.issued + 1⟩, ⟨s.issued + 1⟩)

theorem next_fst_ne_none (s : Supply kind) : s.next.1 ≠ Ident.none := by
  simp [next, Ident.none]

/-- An identifier handed out later is younger. -/
theorem older_next_next (s : Supply kind) : s.next.1.older s.next.2.next.1 = true := by
  simp [next, Ident.older]

end Supply

end EffectFibers
