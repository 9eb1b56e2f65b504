import EffectFibers.Proofs.Endings.Run

/-!
# Requests to be told of an end

A fiber that joins another one, awaits its exit or interrupts it opens a wait of its own for that.
Waits are numbered as they are opened, so a wait stands for one request: no two fibers are watched
with the same wait, and no fiber is watched with one wait twice.

## Main definitions

* `Log.requests` – the requests in a log, by their waits.
* `Machine.AsksOnce` – the waits of all requests are different, and the machine knows them.

## Main statements

* `Moment.Reachable.asksOnce_run` – in every run a wait stands for one request.
-/

namespace EffectFibers

variable {σ : Type}

/-- The wait of a watcher, and how it watches. -/
def Observer.watcher? : Observer → Option (WaitId × Watch)
  | .watcher w how => some (w, how)
  | .closing _ => none

/-- The request that an act makes of a fiber. -/
def Act.request? (f : FiberId) (act : Act) : Option (WaitId × FiberId × Watch) :=
  (act.watching?.bind Observer.watcher?).map fun request => (request.1, f, request.2)

namespace Log

/-- The requests to be told of an end: the wait, the fiber whose end it is, and how it is watched
for. -/
def requests (log : Log) : List (WaitId × FiberId × Watch) :=
  log.filterMap fun entry => entry.2.request? entry.1

variable {log : Log} {f g : FiberId} {w : WaitId} {how how' : Watch}

theorem requests_append (log more : Log) :
    (log ++ more).requests = log.requests ++ more.requests := List.filterMap_append ..

theorem requests_about (f : FiberId) (acts : List Act) :
    (about f acts).requests = acts.filterMap (Act.request? f) := by
  simp [requests, about, List.filterMap_map]

theorem mem_requests : (w, f, how) ∈ log.requests ↔ .watches (.watcher w how) ∈ log.on f := by
  have request : ∀ act : Act, ∀ g, act.request? g = some (w, f, how) ↔
      g = f ∧ act = .watches (.watcher w how) := by
    intro act g
    cases act with
    | watches observer =>
        cases observer <;> simp [Act.request?, Act.watching?, Observer.watcher?]
        grind
    | _ => simp [Act.request?, Act.watching?]
  simp only [requests, List.mem_filterMap, request, on, List.mem_map, List.mem_filter,
    decide_eq_true_eq]
  grind

/-- Where all waits are different, a wait stands for one request. -/
theorem unique_request (nodup : (log.requests.map (·.1)).Nodup)
    (first : (w, f, how) ∈ log.requests) (second : (w, g, how') ∈ log.requests) :
    f = g ∧ how = how' := by
  have same := List.inj_on_of_nodup_map nodup first second rfl
  simpa using same

end Log

/-- Whoever is told of an end has asked before. -/
theorem requests_acts (observer : Observer) (kept : Option Exit) (f : FiberId) :
    (observer.acts kept).filterMap (Act.request? f) = [] := by
  unfold Observer.acts
  split
  · cases kept <;> simp [Act.request?, Act.watching?]
  · simp [Act.request?, Act.watching?]

theorem requests_tellActs (m : Machine σ) (f : FiberId) (observer : Observer) :
    (m.tellActs f observer).requests = [] := by
  rw [Machine.tellActs, Log.requests_about, requests_acts]

theorem requests_ends (reader : ExitReader) (f : FiberId) (x : Exit) :
    (Log.about f (.ends x :: reader.acts x)).requests = [] := by
  rw [Log.requests_about, ExitReader.acts]
  split <;> simp [Act.request?, Act.watching?]

/-- Nobody asks in the midst of an end. -/
theorem Passing.requests_step {s s' : Passing σ} (step : Step s s') :
    s'.log.requests = s.log.requests := by
  cases step with
  | settled => rfl
  | _ => simp [Passing.enter, Log.requests_append, requests_tellActs, requests_ends]

theorem Passing.requests_steps {s s' : Passing σ} (steps : Steps s s') :
    s'.log.requests = s.log.requests := by
  induction steps with
  | refl => rfl
  | tail _ next ih => exact (requests_step next).trans ih

namespace Machine

/-- The waits of all requests are different, and the machine knows them. -/
structure AsksOnce (m : Machine σ) (log : Log) : Prop where
  nodup : (log.requests.map (·.1)).Nodup
  known : ∀ {w f how}, (w, f, how) ∈ log.requests → (m.waits.get? w).isSome

variable {m m' : Machine σ} {log acts : Log} {f : FiberId} {how : Watch}

/-- An operation without requests. -/
theorem AsksOnce.mono (once : m.AsksOnce log) (kept : m.KeepsWaits m')
    (quiet : acts.requests = []) : m'.AsksOnce (log ++ acts) := by
  refine ⟨?_, fun {w f how} listed => ?_⟩
  · rw [Log.requests_append, quiet, List.append_nil]
    exact once.nodup
  · rw [Log.requests_append, quiet, List.append_nil] at listed
    obtain ⟨wait, row⟩ := Option.isSome_iff_exists.1 (once.known listed)
    obtain ⟨wait', row', -⟩ := kept row
    exact Option.isSome_iff_exists.2 ⟨wait', row'⟩

/-- An operation that opens a wait for a request. -/
theorem AsksOnce.ask (once : m.AsksOnce log) (kept : m.KeepsWaits m')
    (opened : (m'.waits.get? m.waits.nextId).isSome)
    (request : acts.requests = [(m.waits.nextId, f, how)]) : m'.AsksOnce (log ++ acts) := by
  have fresh : m.waits.nextId ∉ log.requests.map (·.1) := by
    intro listed
    obtain ⟨⟨w, g, how'⟩, listed, rfl⟩ := List.mem_map.1 listed
    have known := once.known listed
    simp [Table.get?_nextId] at known
  refine ⟨?_, fun {w g how'} listed => ?_⟩
  · rw [Log.requests_append, request, List.map_append]
    refine List.Nodup.append once.nodup (List.nodup_singleton _) ?_
    simpa using fresh
  · rw [Log.requests_append, request] at listed
    rcases List.mem_append.1 listed with old | new
    · obtain ⟨wait, row⟩ := Option.isSome_iff_exists.1 (once.known old)
      obtain ⟨wait', row', -⟩ := kept row
      exact Option.isSome_iff_exists.2 ⟨wait', row'⟩
    · obtain ⟨rfl, -⟩ : w = m.waits.nextId ∧ _ := by simpa using new
      exact opened

/-- A fiber that begins to watch another one asks with the wait that it opens, if there is the
other one. -/
theorem requests_evalWatchActs (m : Machine σ) (f target : FiberId) (how : Watch) :
    (m.evalWatchActs f target how).requests = [] ∨
      (m.evalWatchActs f target how).requests = [(m.waits.nextId, target, how)] := by
  unfold evalWatchActs watchActs
  dsimp only
  split
  · exact .inl rfl
  · right
    split
    · rw [← List.singleton_append, Log.requests_append, requests_tellActs]
      rfl
    · rfl

end Machine

namespace Moment

variable {μ : Moment σ} {log : Log}

/-- A program that has an exit asks its children, which needs no wait. -/
theorem requests_of_finish (coherent : IsCoherent μ none none) {slice : Slice σ} {x : Exit}
    (taken : μ.taken = some (slice, .finish x)) : (μ.actsAt .work).requests = [] := by
  obtain ⟨fiber, row, -⟩ := (holds_of_finish coherent taken).row_of_held rfl
  have row' : μ.machine.fiber? slice.fiber = some fiber := row
  by_cases alone : fiber.children = []
  · obtain ⟨-, -, steps⟩ := passing_of_finish coherent taken row' alone []
    have same := Passing.requests_steps steps
    simpa [Passing.enter, requests_ends] using same
  · simp [actsAt, taken, Machine.finishActs, row', alone, Log.requests, List.filterMap_map,
      Function.comp_def, Act.request?, Act.watching?, Observer.watcher?]

/-- The fiber on the worker begins to watch another one, unless an interrupt is noticed first. -/
theorem work_of_watch {slice : Slice σ} {target : FiberId} {how : Watch} (taken : μ.taken = none)
    (running : μ.machine.running = some slice) (next : slice.run.next = .eval (.watch target how)) :
    let m := { μ.machine with running := none }
    if m.interruptPending slice.fiber slice.run then
      (μ.apply .work).machine = m ∧ μ.actsAt .work = []
    else
      (μ.apply .work).machine = (m.evalWatch slice.fiber slice.run target how).machine ∧
        μ.actsAt .work = m.evalWatchActs slice.fiber target how := by
  intro m
  have work : (μ.apply .work).machine = (m.stepRun slice.fiber
      (((m.fiber? slice.fiber).map (·.scope)).getD .none) slice.run).machine := by
    simp only [apply, work, taken, running, Machine.takeStep, m]
  rw [work]
  split
  · rename_i noticed
    simp only [Machine.stepRun, next, Machine.eval, Node.isSuspensionPoint, Bool.true_and, noticed,
      if_true, actsAt, taken, running, m, and_self]
  · rename_i calm
    simp only [Machine.stepRun, next, Machine.eval, Node.isSuspensionPoint, Bool.true_and, calm,
      Machine.evalNode, actsAt, taken, running, m, if_false, Bool.false_eq_true, and_self]

/-- A fiber that begins to watch another one makes at most one request, with a new wait. -/
theorem asksOnce_watch (once : μ.machine.AsksOnce log) {slice : Slice σ} {target : FiberId}
    {how : Watch} (kept : μ.machine.KeepsWaits (μ.apply .work).machine) (taken : μ.taken = none)
    (running : μ.machine.running = some slice) (next : slice.run.next = .eval (.watch target how)) :
    (μ.apply .work).machine.AsksOnce (log ++ μ.actsAt .work) := by
  have watches := work_of_watch taken running next
  dsimp only at watches
  split at watches
  · exact once.mono kept (watches.2 ▸ rfl)
  · obtain ⟨same, acts⟩ := watches
    have opened : Evolves none true _ (μ.apply .work).machine :=
      same ▸ Evolves.evalWatch_opened _ slice.fiber slice.run target how
    obtain ⟨wait, row, -⟩ := opened.keepsWaits (Table.get?_push_self _ _)
    rcases Machine.requests_evalWatchActs { μ.machine with running := none } slice.fiber target how
      with quiet | request
    · exact once.mono kept (acts ▸ quiet)
    · exact once.ask kept (Option.isSome_iff_exists.2 ⟨wait, row⟩) (acts ▸ request)

/-- In every event at most one request is made, with a new wait. -/
theorem Reachable.asksOnce_apply (reachable : Reachable μ) (once : μ.machine.AsksOnce log)
    (event : Event σ) : (μ.apply event).machine.AsksOnce (log ++ μ.actsAt event) := by
  have coherent := reachable.isCoherent
  have kept := (evolves coherent reachable.tidy event).keepsWaits
  by_cases deals : μ.Deals event
  · cases event with
    | work =>
        rcases deals with ⟨slice, x, taken⟩ | ⟨taken, slice, target, how, running, next⟩
        · exact once.mono kept (requests_of_finish coherent taken)
        · exact asksOnce_watch once kept taken running next
    | _ => exact deals.elim
  · rw [actsAt_of_calm deals]
    exact once.mono kept rfl

theorem asksOnce_initial (world : World σ) (budget : Nat) :
    (initial world budget).machine.AsksOnce [] := ⟨List.nodup_nil, nofun⟩

/-- In every run a wait stands for one request. -/
theorem Reachable.asksOnce_run (reachable : Reachable μ) (once : μ.machine.AsksOnce log)
    (events : List (Event σ)) : (μ.run events).machine.AsksOnce (log ++ μ.acts events) := by
  induction events generalizing μ log with
  | nil => exact (List.append_nil log).symm ▸ once
  | cons event events ih =>
      have next := ih (reachable.apply event) (reachable.asksOnce_apply once event)
      rwa [List.append_assoc] at next

end Moment

end EffectFibers
