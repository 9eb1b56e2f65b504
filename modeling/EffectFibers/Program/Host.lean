import EffectFibers.Program.Template
import EffectFibers.Action

/-!
# The world of programs

What the user code of a program can see and change: gates, cells and counters, all of them shared
between the runs of one program, and the root of the run that is under way.

A gate is closed until it is opened with an exit, and then stays open.  Those who wait at a closed
gate get the exit in the order in which they came.

## Main definitions

* `Host` – the state, with one function per operation.
* `Host.register`, `Host.openGate` – waiting at gates and opening them.
-/

namespace EffectFibers.Program

/-- A gate: the exit with which it was opened, and who waits while it is closed. -/
structure Gate where
  exit : Option Exit := none
  waiters : List WaitId := []

instance : Inhabited Gate := ⟨{}⟩

/-- The state that the user code of programs shares. -/
structure Host where
  gates : List (String × Gate) := []
  cells : Array Value := #[]
  /-- The cells that have names. -/
  names : List (String × Nat) := []
  counters : List (String × Nat) := []
  /-- The root fiber of the run that is under way. -/
  root : Option FiberId := none

/-- Change the entry of a key, or add one. -/
def update {α : Type} (key : String) (change : Option α → α) :
    List (String × α) → List (String × α)
  | [] => [(key, change none)]
  | (k, a) :: rest =>
    if k = key then (k, change (some a)) :: rest else (k, a) :: update key change rest

namespace Host

/-! ## Gates -/

def gate (h : Host) (name : String) : Gate := (h.gates.lookup name).getD {}

def setGate (h : Host) (name : String) (g : Gate) : Host :=
  { h with gates := update name (fun _ => g) h.gates }

/-- Wait at a gate: the exit with which it is open, or a place among those who wait. -/
def register (h : Host) (name : String) (w : WaitId) : Option Exit × Host :=
  let g := h.gate name
  match g.exit with
  | some exit => (some exit, h)
  | none => (none, h.setGate name { g with waiters := g.waiters ++ [w] })

/-- Open a gate, or change the exit with which it is open.  The answer lists those who waited. -/
def openGate (h : Host) (name : String) (exit : Exit) : List WaitId × Host :=
  ((h.gate name).waiters, h.setGate name { exit := some exit })

/-! ## Counters -/

/-- The count of a counter that was used. -/
def counter? (h : Host) (name : String) : Option Nat := h.counters.lookup name

/-- Count one up; the answer is the new count. -/
def countUp (h : Host) (name : String) : Nat × Host :=
  let count := (h.counter? name).getD 0 + 1
  (count, { h with counters := update name (fun _ => count) h.counters })

/-! ## Cells -/

/-- A new cell; the answer is its index. -/
def newCell (h : Host) (v : Value) : Nat × Host :=
  (h.cells.size, { h with cells := h.cells.push v })

/-- A new cell with a name. -/
def nameCell (h : Host) (name : String) (v : Value) : Host :=
  let (cell, h) := h.newCell v
  { h with names := update name (fun _ => cell) h.names }

def cell (h : Host) (i : Nat) : Value := (h.cells[i]?).getD .null

def setCell (h : Host) (i : Nat) (v : Value) : Host :=
  { h with cells := h.cells.modify i fun _ => v }

/-- What the named cells hold. -/
def namedCells (h : Host) : List (String × Value) :=
  h.names.map fun entry => (entry.1, h.cell entry.2)

end Host

end EffectFibers.Program
