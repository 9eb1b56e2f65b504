import EffectFibers.Machine.Group

/-!
# The end of a fiber

When the program of a fiber has an exit, the fiber's live children are interrupted and waited for;
only then does the fiber end, with the exit that its program had.  Its parent forgets it, its
group gets the exit, and everyone who watches it is told.

The exit goes to one reader.  A fiber in a group hands it to the group, and a root fiber to the
handle of its run; any other fiber keeps it until someone takes it, and whoever comes later gets a
defect.

## Main definitions

* `Machine.finish` – the program of a fiber has an exit.
* `Machine.complete` – the fiber ends.
* `Machine.watch` – be told when a fiber has ended.
-/

namespace EffectFibers

variable {σ : Type}

/-- A fiber after its end.  It keeps its exit only for those who may join it. -/
def Fiber.ended (fiber : Fiber σ) (exit : Exit) : Fiber σ :=
  { fiber with
    status := Exit.status exit
    run := none
    pending := none
    input := none
    children := []
    observers := []
    closing := none
    exit := if fiber.reader = .joiner then some exit else none }

namespace Machine

/-- Take the exit of a fiber that has ended; it can be taken once. -/
def takeExit (m : Machine σ) (f : FiberId) : Exit × Machine σ :=
  match (m.fiber? f).bind (·.exit) with
  | some exit => (exit, m.modifyFiber f fun fiber => { fiber with exit := none })
  | none => (Exit.died (.internal "fiber exit already consumed"), m)

/-- Tell a watcher that a fiber has ended.  Joining and awaiting take the exit, even if the wait
of the watcher is over by then. -/
def tellWatcher (m : Machine σ) (f : FiberId) (w : WaitId) (how : Watch) : Machine σ :=
  match how with
  | .join =>
    let (exit, m) := m.takeExit f
    m.resume w exit
  | .await =>
    let (exit, m) := m.takeExit f
    m.resume w (.ok (.exit (Exit.received exit)))
  | .interrupt => m.resume w (.ok .null)

/-- The parent of a fiber forgets it; a root leaves the list of roots. -/
def detach (m : Machine σ) (f : FiberId) (parent : Option FiberId) : Machine σ :=
  match parent with
  | some parent => m.modifyFiber parent fun fiber =>
      { fiber with children := fiber.children.filter (· != f) }
  | none => { m with roots := m.roots.filter (· != f) }

/-- The reader of a fiber's exit gets it.  A joiner takes it by itself. -/
def handOver (m : Machine σ) (f : FiberId) (reader : ExitReader) (exit : Exit) : Machine σ :=
  match reader with
  | .joiner => m
  | .group g place => m.memberExit g place exit
  | .handle => { m with results := (f, exit) :: m.results }

/-- One of the children that an ending fiber waits for has ended.  The answer is the exit of the
fiber if that was the last one. -/
def childGone (m : Machine σ) (parent : FiberId) : Option Exit × Machine σ :=
  match (m.fiber? parent).bind (·.closing) with
  | none => (none, m)
  | some closing =>
    let remaining := closing.remaining - 1
    (if remaining = 0 then some closing.exit else none,
      m.modifyFiber parent fun fiber => { fiber with closing := some { closing with remaining } })

/-- A fiber ends, and with it perhaps some of the fibers above it, up to a height. -/
def completeWithin (height : Nat) (m : Machine σ) (f : FiberId) (exit : Exit) : Machine σ :=
  match height with
  | 0 => m
  | height + 1 =>
    match m.fiber? f with
    | none => m
    | some fiber =>
      let m := m.modifyFiber f fun fiber => fiber.ended exit
      let m := m.trace (.exited f exit)
      let m := m.detach f fiber.parent
      let m := m.handOver f fiber.reader exit
      fiber.observers.foldl
        (fun m observer => match observer with
          | .watcher w how => m.tellWatcher f w how
          | .closing parent =>
            match m.childGone parent with
            | (some exit, m) => completeWithin height m parent exit
            | (none, m) => m)
        m

/-- A fiber ends.  No chain of parents is longer than the number of fibers. -/
def complete (m : Machine σ) (f : FiberId) (exit : Exit) : Machine σ :=
  completeWithin (m.fibers.size + 1) m f exit

/-- Be told when a fiber has ended; at once, if it has. -/
def watch (m : Machine σ) (f : FiberId) (w : WaitId) (how : Watch) : Machine σ :=
  if (m.status f).isTerminal then m.tellWatcher f w how
  else m.modifyFiber f fun fiber =>
    { fiber with observers := fiber.observers ++ [.watcher w how] }

/-- An ending fiber waits for one of its children. -/
def awaitChild (parent : FiberId) (m : Machine σ) (child : FiberId) : Machine σ :=
  m.modifyFiber child fun fiber => { fiber with observers := fiber.observers ++ [.closing parent] }

/-- The program of a fiber has an exit.  Its live children are interrupted, and the fiber ends
when they have ended. -/
def finish (m : Machine σ) (f : FiberId) (exit : Exit) : Machine σ :=
  let children := ((m.fiber? f).map (·.children)).getD []
  if children.isEmpty then m.complete f exit
  else
    let m := m.trace (.waitingForChildren f children.length)
    let m := m.modifyFiber f fun fiber =>
      { fiber with closing := some { remaining := children.length, exit } }
    children.foldl (awaitChild f) (m.interruptAll children)

end Machine

end EffectFibers
