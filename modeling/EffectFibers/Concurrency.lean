/-!
# Options for running many effects at once

How many of the effects may be live at the same time, and what a failure of one of them does to
the others.
-/

namespace EffectFibers

/-- The bound on live children. -/
inductive Concurrency
  | unbounded
  | bounded (limit : Nat)
  deriving DecidableEq, Repr, Inhabited

namespace Concurrency

/-- How many of `n` children may be live: at least one and at most all of them. -/
def limit (c : Concurrency) (n : Nat) : Nat :=
  match c with
  | .unbounded => max n 1
  | .bounded k => min (max k 1) (max n 1)

def debug : Concurrency → String
  | .unbounded => "Unbounded"
  | .bounded k => s!"Bounded({k})"

theorem one_le_limit (c : Concurrency) (n : Nat) : 1 ≤ c.limit n := by
  cases c <;> simp only [limit] <;> omega

theorem limit_le (c : Concurrency) (n : Nat) : c.limit n ≤ max n 1 := by
  cases c <;> simp only [limit] <;> omega

end Concurrency

/-- What a failing child does: it stops the others, or its failure is recorded. -/
inductive AllMode
  | failFast | collectAll
  deriving DecidableEq, Repr, Inhabited

/-- How to run many effects. -/
structure AllOptions where
  concurrency : Concurrency := .unbounded
  mode : AllMode := .failFast
  deriving DecidableEq, Repr

namespace AllOptions

/-- Stop at the first failure, with at most that many live children. -/
def bounded (limit : Nat) : AllOptions := { concurrency := .bounded limit }

/-- The same bound, but let every child finish. -/
def collectAll (o : AllOptions) : AllOptions := { o with mode := .collectAll }

def debug (o : AllOptions) : String :=
  let mode := match o.mode with
    | .failFast => "FailFast"
    | .collectAll => "CollectAll"
  "AllOptions \x7b concurrency: " ++ o.concurrency.debug ++ ", mode: " ++ mode ++ " \x7d"

end AllOptions

end EffectFibers
