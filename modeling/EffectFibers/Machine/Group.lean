import EffectFibers.Machine.Interrupt
import EffectFibers.Machine.Spawn

/-!
# Groups of children

A race and many effects at once run their children as fibers below the fiber that waits for them.
The parent goes on only when every child that was started has ended, so whoever lost is gone
before the result is seen.

In a race all children exist before any of them runs; the first exit decides, and then every
member is interrupted.  Of many effects at once at most a given number run at the same time; the
others start in order as places become free.  The first exit that counts as a failure decides: no
further child starts, and those that run are interrupted.  An exit that arrives while the parent
is interrupted counts as an interrupt.

## Main definitions

* `Machine.startRace`, `Machine.startAll` – start the children.
* `Gathering.settle` – what the exit of a child does to the results.
* `Machine.memberExit` – an exit reaches the group.
-/

namespace EffectFibers

variable {σ : Type}

namespace Gathering

/-- Let no further child start, and remember why.  The answer lists the children to interrupt; an
earlier failure stays, and then there are none. -/
def fail (g : Gathering σ) (cause : Cause Failure) : List FiberId × Gathering σ :=
  if g.failure.isSome then ([], g)
  else (g.running.map (·.2), { g with failure := some cause, queue := [] })

/-- Record the exit of the child at an index.  The answer lists the children to interrupt. -/
def settle (g : Gathering σ) (index : Nat) (exit : Exit) (parentInterrupted : Bool) :
    List FiberId × Gathering σ :=
  let g := { g with running := g.running.filter fun child => child.1 != index }
  let (first, g) := match exit, g.mode with
    | .ok v, _ => ([], { g with results := g.results.set index (some (.ok v)) })
    | .error (.fail failure), .collectAll =>
      ([], { g with results := g.results.set index (some (.error failure)) })
    | .error cause, _ => g.fail cause
  if parentInterrupted then
    let (second, g) := g.fail .interrupt
    (first ++ second, g)
  else (first, g)

/-- Whether no child runs and none is still to start. -/
def isDone (g : Gathering σ) : Bool := g.running.isEmpty && g.queue.isEmpty

/-- The exit of the whole group: the failure that decided, or the list of all results. -/
def outcome (g : Gathering σ) : Exit :=
  match g.failure with
  | some cause => .error cause
  | none =>
    match g.results.mapM id with
    | some results => .ok (.list (results.map .result))
    | none => Exit.died (.internal "all: child finished without a result")

end Gathering

namespace Machine

/-- Replace what is known about a group. -/
def setGroup (m : Machine σ) (g : GroupId) (group : Group σ) : Machine σ :=
  { m with groups := m.groups.modify g fun _ => group }

/-- Interrupt fibers, one after the other. -/
def interruptAll (m : Machine σ) (fibers : List FiberId) : Machine σ := fibers.foldl interrupt m

/-- Make fibers runnable, one after the other. -/
def enqueueAll (m : Machine σ) (fibers : List FiberId) : Machine σ := fibers.foldl enqueue m

/-- Make one child for each node of a group, with the places in the order of the nodes. -/
def spawnMembers (m : Machine σ) (parent : FiberId) (context : Context Value) (g : GroupId) :
    List (Nat × Node σ) → List (Nat × FiberId) × Machine σ
  | [] => ([], m)
  | (index, node) :: rest =>
    let (child, m) := m.spawnChild parent node context (.group g index)
    let (children, m) := m.spawnMembers parent context g rest
    ((index, child) :: children, m)

/-- Nodes with their places. -/
def numbered (nodes : List (Node σ)) : List (Nat × Node σ) := nodes.mapIdx fun i n => (i, n)

/-- Start a race of some nodes. -/
def startRace (m : Machine σ) (parent : FiberId) (context : Context Value)
    (nodes : List (Node σ)) : GroupId × Machine σ :=
  let g := m.groups.nextId
  let race : Race := { parent, members := [], remaining := nodes.length }
  let m := { m with groups := m.groups.push (.race race) }
  let (children, m) := m.spawnMembers parent context g (numbered nodes)
  let members := children.map (·.2)
  (g, (m.setGroup g (.race { race with members })).enqueueAll members)

/-- Start the next children of a group as far as there is room. -/
def fill (m : Machine σ) (g : GroupId) (all : Gathering σ) : Machine σ :=
  if all.failure.isSome then m
  else
    let room := all.limit - all.running.length
    let (children, m) := m.spawnMembers all.parent all.context g (all.queue.take room)
    let all := { all with queue := all.queue.drop room, running := all.running ++ children }
    (m.setGroup g (.all all)).enqueueAll (children.map (·.2))

/-- Start many nodes at once, as the options say. -/
def startAll (m : Machine σ) (parent : FiberId) (context : Context Value)
    (nodes : List (Node σ)) (options : AllOptions) : GroupId × Machine σ :=
  let g := m.groups.nextId
  let all : Gathering σ := {
    parent, context
    queue := numbered nodes
    results := nodes.map fun _ => none
    limit := options.concurrency.limit nodes.length
    mode := options.mode }
  let m := { m with groups := m.groups.push (.all all) }
  (g, m.fill g all)

/-- A member of a race has ended. -/
def raceExit (m : Machine σ) (g : GroupId) (race : Race) (exit : Exit) : Machine σ :=
  let settled := { race with
    remaining := race.remaining - 1
    winner := some (race.winner.getD exit) }
  let m := m.setGroup g (.race settled)
  let m :=
    if race.winner.isSome then m
    else (m.trace (.raceSettled race.parent (race.members.length - 1))).interruptAll race.members
  if settled.remaining = 0 then m.deliver race.parent (race.winner.getD exit) else m

/-- A child among many has ended. -/
def allExit (m : Machine σ) (g : GroupId) (all : Gathering σ) (index : Nat) (exit : Exit) :
    Machine σ :=
  let (siblings, all) := all.settle index exit (m.isInterrupted all.parent)
  let m := m.setGroup g (.all all)
  let m :=
    if siblings.isEmpty then m
    else (m.trace (.allFailed all.parent siblings.length)).interruptAll siblings
  if all.isDone then m.deliver all.parent all.outcome else m.fill g all

/-- The exit of a member reaches its group. -/
def memberExit (m : Machine σ) (g : GroupId) (index : Nat) (exit : Exit) : Machine σ :=
  match m.groups.get? g with
  | some (.race race) => m.raceExit g race exit
  | some (.all all) => m.allExit g all index exit
  | none => m

end Machine

end EffectFibers
