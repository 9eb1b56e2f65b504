import EffectFibers.Proofs.Changes.Moment

/-!
# What is done about the end of a fiber

A fiber ends, its reader is called with the exit, somebody wants to be told of the end, is told, and
takes the exit that was kept.  These acts leave few traces in a machine: who is told is resumed, and
it does not show whether that was done once or twice.  So the operations that perform them are
followed step by step here, and what they do is noted down in a log.

Only two kinds of events perform such acts.  A program has an exit: then its fiber ends or asks its
children for a report.  And a fiber begins to watch another one.

The acts on one fiber follow a pattern.  Before the end there are requests to be told; then come the
end, the call of the reader and the answers to the requests, first come first served; and then each
later request is answered at once.

## Main definitions

* `Act`, `Log` – what is done about the ends of fibers.
* `Machine.completeLogged` – the end of a fiber, with its acts.
* `Moment.acts` – the acts of a run.
* `Life` – the pattern of the acts on one fiber.

## Main statements

* `Machine.completeLogged_machine` – the acts are those of the end of a fiber.
-/

namespace EffectFibers

variable {σ : Type}

/-- What is done about the end of a fiber. -/
inductive Act
  /-- The fiber ends with an exit. -/
  | ends (x : Exit)
  /-- The reader of the exit is called. -/
  | hands (reader : ExitReader) (x : Exit)
  /-- Somebody wants to be told. -/
  | watches (observer : Observer)
  /-- An observer is told. -/
  | tells (observer : Observer)
  /-- An observer takes the exit that was kept. -/
  | takes (x : Exit)

/-- Acts, with the fibers that they are about. -/
abbrev Log := List (FiberId × Act)

/-- The acts on a fiber. -/
def Log.on (log : Log) (f : FiberId) : List Act := (log.filter (·.1 = f)).map (·.2)

/-- Acts on one fiber. -/
def Log.about (f : FiberId) (acts : List Act) : Log := acts.map (f, ·)

namespace Log

variable {f g : FiberId}

theorem on_append (log more : Log) (f : FiberId) : (log ++ more).on f = log.on f ++ more.on f := by
  simp [on]

theorem on_about_self (f : FiberId) (acts : List Act) : (about f acts).on f = acts := by
  simp [on, about, List.filter_eq_self.2, Function.comp_def]

theorem on_about_of_ne (unequal : f ≠ g) (acts : List Act) : (about f acts).on g = [] := by
  simp [on, about, unequal]

end Log

namespace Act

def end? : Act → Option Exit
  | .ends x => some x
  | _ => none

def handed? : Act → Option (ExitReader × Exit)
  | .hands reader x => some (reader, x)
  | _ => none

def watching? : Act → Option Observer
  | .watches observer => some observer
  | _ => none

def told? : Act → Option Observer
  | .tells observer => some observer
  | _ => none

def taken? : Act → Option Exit
  | .takes x => some x
  | _ => none

end Act

/-- The acts by which a reader gets an exit. -/
def ExitReader.acts (reader : ExitReader) (x : Exit) : List Act :=
  if reader = .joiner then [] else [.hands reader x]

/-- The exit that is kept after the end. -/
def ExitReader.kept (reader : ExitReader) (x : Exit) : Option Exit :=
  if reader = .joiner then some x else none

/-- Whether an observer takes the exit when it is told. -/
def Observer.takes : Observer → Bool
  | .watcher _ .join | .watcher _ .await => true
  | _ => false

/-- The acts by which an observer is told, with the exit that is kept before. -/
def Observer.acts (observer : Observer) (kept : Option Exit) : List Act :=
  .tells observer :: if observer.takes then kept.toList.map .takes else []

/-- The exit that is kept after an observer was told. -/
def Observer.leaves (observer : Observer) (kept : Option Exit) : Option Exit :=
  if observer.takes then none else kept

/-! ## The acts of an operation -/

namespace Machine

/-- The acts by which an observer of a fiber is told. -/
def tellActs (m : Machine σ) (f : FiberId) (observer : Observer) : Log :=
  .about f (observer.acts ((m.fiber? f).bind (·.exit)))

/-- An observer of a fiber that has ended is told, after some acts.  If it is a fiber that has no
more children to wait for, then this fiber ends. -/
def tellLogged (complete : Machine σ → FiberId → Exit → Log × Machine σ) (f : FiberId)
    (sofar : Log × Machine σ) (observer : Observer) : Log × Machine σ :=
  let (log, m) := sofar
  let told := log ++ m.tellActs f observer
  match observer with
  | .watcher w how => (told, m.tellWatcher f w how)
  | .closing parent =>
    match m.childGone parent with
    | (some x, m) => (told ++ (complete m parent x).1, (complete m parent x).2)
    | (none, m) => (told, m)

/-- A fiber ends, and with it perhaps some of the fibers above it: the acts, and the machine. -/
def completeLogged : Nat → Machine σ → FiberId → Exit → Log × Machine σ
  | 0, m, _, _ => ([], m)
  | height + 1, m, f, x =>
    match m.fiber? f with
    | none => ([], m)
    | some fiber =>
      let m := m.modifyFiber f fun fiber => fiber.ended x
      let m := m.trace (.exited f x)
      let m := m.detach f fiber.parent
      let m := m.handOver f fiber.reader x
      fiber.observers.foldl (tellLogged (completeLogged height) f)
        (.about f (.ends x :: fiber.reader.acts x), m)

/-- An observer is told as at the end of a fiber. -/
theorem tellLogged_machine {complete : Machine σ → FiberId → Exit → Log × Machine σ} {height : Nat}
    (machine : ∀ m f x, (complete m f x).2 = m.completeWithin height f x) (f : FiberId)
    (sofar : Log × Machine σ) (observer : Observer) :
    (tellLogged complete f sofar observer).2 = Coherent.tell height f sofar.2 observer := by
  unfold tellLogged Coherent.tell
  cases observer with
  | watcher w how => rfl
  | closing parent =>
      dsimp only
      generalize sofar.2.childGone parent = result
      obtain ⟨_ | y, n⟩ := result
      · rfl
      · exact machine n parent y

theorem foldl_tellLogged_machine {complete : Machine σ → FiberId → Exit → Log × Machine σ}
    {height : Nat} (machine : ∀ m f x, (complete m f x).2 = m.completeWithin height f x)
    (f : FiberId) (observers : List Observer) (sofar : Log × Machine σ) :
    (observers.foldl (tellLogged complete f) sofar).2 =
      observers.foldl (Coherent.tell height f) sofar.2 := by
  induction observers generalizing sofar with
  | nil => rfl
  | cons observer observers ih =>
      rw [List.foldl_cons, List.foldl_cons, ih, tellLogged_machine machine]

/-- The acts are those of the end of a fiber. -/
theorem completeLogged_machine (height : Nat) (m : Machine σ) (f : FiberId) (x : Exit) :
    (completeLogged height m f x).2 = m.completeWithin height f x := by
  induction height generalizing m f x with
  | zero => rfl
  | succ height ih =>
      cases row : m.fiber? f with
      | none => simp only [completeLogged, completeWithin, row]
      | some fiber =>
          rw [Coherent.completeWithin_succ row]
          simp only [completeLogged, row]
          exact foldl_tellLogged_machine ih f _ _

/-- The acts when the program of a fiber has an exit. -/
def finishActs (m : Machine σ) (f : FiberId) (x : Exit) : Log :=
  let children := ((m.fiber? f).map (·.children)).getD []
  if children.isEmpty then (completeLogged (m.fibers.size + 1) m f x).1
  else children.map fun child => (child, .watches (.closing f))

/-- The acts when somebody wants to be told of the end of a fiber.  Of a fiber that there is not
there is nothing to tell. -/
def watchActs (m : Machine σ) (f : FiberId) (w : WaitId) (how : Watch) : Log :=
  match m.fiber? f with
  | none => []
  | some fiber =>
    (f, .watches (.watcher w how)) ::
      if fiber.status.isTerminal then m.tellActs f (.watcher w how) else []

/-- The acts when a fiber begins to watch another one. -/
def evalWatchActs (m : Machine σ) (f : FiberId) (target : FiberId) (how : Watch) : Log :=
  let (w, m) := m.openWait f .fiber
  let m := if how = .interrupt then m.interrupt target else m
  m.watchActs target w how

end Machine

namespace Moment

/-- The acts of an event. -/
def actsAt (μ : Moment σ) : Event σ → Log
  | .work =>
    match μ.taken, μ.machine.running with
    | some (slice, .finish x), _ => μ.machine.finishActs slice.fiber x
    | none, some slice =>
      match slice.run.next with
      | .eval (.watch target how) =>
        let m := { μ.machine with running := none }
        if m.interruptPending slice.fiber slice.run then []
        else m.evalWatchActs slice.fiber target how
      | _ => []
    | _, _ => []
  | _ => []

/-- The acts of a run. -/
def acts : Moment σ → List (Event σ) → Log
  | _, [] => []
  | μ, event :: events => μ.actsAt event ++ acts (μ.apply event) events

/-- An event that does not deal with ends performs no acts. -/
theorem actsAt_of_calm {μ : Moment σ} {event : Event σ} (calm : ¬ μ.Deals event) :
    μ.actsAt event = [] := by
  cases event with
  | work =>
      unfold actsAt
      dsimp only
      split
      · rename_i slice x taken
        exact absurd (.inl ⟨slice, x, taken⟩) calm
      · rename_i slice taken running
        split
        · rename_i target how next
          exact absurd (.inr ⟨taken, slice, target, how, running, next⟩) calm
        · rfl
      · rfl
  | _ => rfl

end Moment

/-! ## The pattern of the acts on a fiber -/

/-- How far the end of a fiber has got. -/
inductive Stage
  /-- The fiber lives, and these observers want to be told. -/
  | live (observers : List Observer)
  /-- The fiber has ended, these observers are still to be told, and this exit is kept. -/
  | gone (x : Exit) (owed : List Observer) (kept : Option Exit)

/-- The acts on a fiber up to some stage. -/
inductive Life (reader : ExitReader) : List Act → Stage → Prop
  | born : Life reader [] (.live [])
  | watches {acts observers} (observer : Observer) (life : Life reader acts (.live observers)) :
    Life reader (acts ++ [.watches observer]) (.live (observers ++ [observer]))
  | ends {acts observers} (x : Exit) (life : Life reader acts (.live observers)) :
    Life reader (acts ++ .ends x :: reader.acts x) (.gone x observers (reader.kept x))
  | tells {acts x observer owed kept} (life : Life reader acts (.gone x (observer :: owed) kept)) :
    Life reader (acts ++ observer.acts kept) (.gone x owed (observer.leaves kept))
  /-- Who asks after the end is told at once. -/
  | late {acts x kept} (observer : Observer) (life : Life reader acts (.gone x [] kept)) :
    Life reader (acts ++ .watches observer :: observer.acts kept)
      (.gone x [] (observer.leaves kept))

end EffectFibers
