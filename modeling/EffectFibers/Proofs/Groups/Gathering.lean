import EffectFibers.Proofs.Groups.Members
import EffectFibers.Proofs.Groups.Runs

/-!
# Many effects at once

What many effects at once know depends only on which children were started and on the exits that
have arrived, in their order: the first exit that counts as a failure decides, and otherwise every
exit fills the place of its child.

## Main definitions

* `Arrival.failing?`, `Arrival.result?` – what counts as a failure, and what is recorded.
* `Gathering.later` – what is known after some children were started and some exits have come.
* `Gathered` – the result when nothing is left to do.
* `Gathering.Busy` – as many children run as may.

## Main statements

* `Gathering.settle_later` – one more exit comes.
* `Gathering.filled_later` – more children start.
* `Gathering.gathered_of_done` – the result when nothing is left to do.
-/

namespace EffectFibers

variable {σ : Type}

namespace Arrival

/-- Why no further child is started after an exit: it is not recorded, or the parent was interrupted
before. -/
def failing? (mode : AllMode) (a : Arrival) : Option (Cause Failure) :=
  match a.exit, mode with
  | .ok _, _ => if a.late then some .interrupt else none
  | .error (.fail _), .collectAll => if a.late then some .interrupt else none
  | .error cause, _ => some cause

/-- The result that is recorded for an exit. -/
def result? (mode : AllMode) (a : Arrival) : Option (Except Failure Value) :=
  match a.exit, mode with
  | .ok v, _ => some (.ok v)
  | .error (.fail failure), .collectAll => some (.error failure)
  | _, _ => none

/-- An exit that is no failure is recorded. -/
theorem result?_ne_none {mode : AllMode} {a : Arrival} (calm : a.failing? mode = none) :
    a.result? mode ≠ none := by
  obtain ⟨c, i, x, late⟩ := a
  cases x with
  | ok v => simp [result?]
  | error cause => cases cause <;> cases mode <;> simp_all [failing?, result?]

end Arrival

/-- The first failure among exits. -/
def failing (mode : AllMode) (heard : List Arrival) : Option (Cause Failure) :=
  heard.findSome? (·.failing? mode)

/-- The result that is recorded at a place. -/
def slot (mode : AllMode) (heard : List Arrival) (i : Nat) : Option (Except Failure Value) :=
  heard.findSome? fun a => if a.place = i then a.result? mode else none

/-- The exit that many effects have together: the first failure, or a list with the result of every
place. -/
inductive Gathered (mode : AllMode) (n : Nat) (heard : List Arrival) : Exit → Prop
  | failed (cause : Cause Failure) (first : failing mode heard = some cause) :
      Gathered mode n heard (.error cause)
  | full (results : List (Except Failure Value)) (calm : failing mode heard = none)
      (length : results.length = n) (slots : ∀ i < n, results[i]? = slot mode heard i) :
      Gathered mode n heard (.ok (.list (results.map .result)))

section

variable {mode : AllMode} {heard : List Arrival} {a : Arrival} {i : Nat}

theorem failing_append (mode : AllMode) (heard more : List Arrival) :
    failing mode (heard ++ more) = (failing mode heard).or (failing mode more) :=
  List.findSome?_append

/-- A failure that has come stays the first one. -/
theorem failing_append_of_isSome (failed : (failing mode heard).isSome) (more : List Arrival) :
    failing mode (heard ++ more) = failing mode heard := by
  obtain ⟨cause, first⟩ := Option.isSome_iff_exists.1 failed
  rw [failing_append, first]
  rfl

theorem slot_of_fresh (fresh : i ∉ heard.map (·.place)) : slot mode heard i = none := by
  refine List.findSome?_eq_none_iff.2 fun b listed => if_neg fun same => fresh ?_
  exact List.mem_map.2 ⟨b, listed, same⟩

theorem slot_append (fresh : a.place ∉ heard.map (·.place)) (i : Nat) :
    slot mode (heard ++ [a]) i = if a.place = i then a.result? mode else slot mode heard i := by
  rw [slot, List.findSome?_append]
  by_cases same : a.place = i
  · subst same
    have nothing : heard.findSome? (fun b => if b.place = a.place then b.result? mode else none) =
        none := slot_of_fresh fresh
    simp [nothing]
  · simp [same, slot]

/-- Each place of which something was heard has a result, unless there was a failure. -/
theorem slot_ne_none (calm : failing mode heard = none) (known : i ∈ heard.map (·.place)) :
    slot mode heard i ≠ none := by
  obtain ⟨a, listed, rfl⟩ := List.mem_map.1 known
  intro nothing
  have unrecorded := List.findSome?_eq_none_iff.1 nothing a listed
  rw [if_pos rfl] at unrecorded
  exact Arrival.result?_ne_none (List.findSome?_eq_none_iff.1 calm a listed) unrecorded

end

namespace Gathering

variable {task : Gathering σ} {started : List FiberId} {heard : List Arrival} {a : Arrival}
  {i : Nat} {c : FiberId}

/-- What is known about many effects after some children were started and some exits have come. -/
def later (task : Gathering σ) (started : List FiberId) (heard : List Arrival) : Gathering σ :=
  { task with
    queue := if (failing task.mode heard).isSome then [] else task.queue.drop started.length
    running := (started.mapIdx fun i c => (i, c)).filter fun child =>
      child.1 ∉ heard.map (·.place)
    results := (List.range task.results.length).map (slot task.mode heard)
    failure := failing task.mode heard }

theorem mem_running_later : (i, c) ∈ (task.later started heard).running ↔
    started[i]? = some c ∧ i ∉ heard.map (·.place) := by
  simp only [later, List.mem_filter, List.mem_mapIdx, Prod.mk.injEq, decide_eq_true_eq]
  refine and_congr_left fun _ => ⟨?_, fun known => ?_⟩
  · rintro ⟨j, inside, rfl, rfl⟩
    exact List.getElem?_eq_getElem inside
  · obtain ⟨inside, same⟩ := List.getElem?_eq_some_iff.1 known
    exact ⟨i, inside, rfl, same⟩

/-- The children that run are some of those that were started. -/
theorem running_later_sublist (task : Gathering σ) (started : List FiberId) (heard : List Arrival) :
    ((task.later started heard).running.map (·.2)).Sublist started := by
  have all : (started.mapIdx fun i c => (i, c)).map (·.2) = started := by
    refine List.ext_getElem? fun i => ?_
    rw [List.getElem?_map, List.getElem?_mapIdx]
    cases started[i]? <;> rfl
  have fewer := (List.filter_sublist (p := fun child => decide (child.1 ∉ heard.map (·.place)))
    (l := started.mapIdx fun i c => (i, c))).map (·.2)
  rw [all] at fewer
  exact fewer

/-- If none of the children runs that were started, none will. -/
theorem running_later_of_idle (idle : (task.later started heard).running = []) (more : List Arrival) :
    (task.later started (heard ++ more)).running = [] := by
  refine List.eq_nil_iff_forall_not_mem.2 fun child runs => ?_
  obtain ⟨known, unheard⟩ := mem_running_later.1 runs
  have before : child ∈ (task.later started heard).running :=
    mem_running_later.2 ⟨known, fun heard' => unheard (by simp_all)⟩
  rw [idle] at before
  cases before

/-! ## One more exit -/

theorem results_append (fresh : a.place ∉ heard.map (·.place)) (n : Nat) (mode : AllMode) :
    (List.range n).map (slot mode (heard ++ [a])) =
      ((List.range n).map (slot mode heard)).set a.place (a.result? mode) := by
  refine List.ext_getElem (by simp) fun i _ _ => ?_
  simp [List.getElem_set, slot_append fresh]

theorem results_append_of_unrecorded (fresh : a.place ∉ heard.map (·.place)) {mode : AllMode}
    (unrecorded : a.result? mode = none) (n : Nat) :
    (List.range n).map (slot mode (heard ++ [a])) = (List.range n).map (slot mode heard) := by
  refine List.map_congr_left fun i _ => ?_
  rw [slot_append fresh]
  split
  · rename_i same
    rw [unrecorded, ← same, slot_of_fresh fresh]
  · rfl

/-- What an exit does to what is known: the child runs no more, its result is recorded, and after a
failure nothing is left to start. -/
theorem settle_eq (all : Gathering σ) (a : Arrival) (finished : all.failure ≠ none → all.queue = []) :
    (all.settle a.place a.exit a.late).2 = { all with
      queue := if (all.failure.or (a.failing? all.mode)).isSome then [] else all.queue
      running := all.running.filter fun child => child.1 != a.place
      results := match a.result? all.mode with
        | some result => all.results.set a.place (some result)
        | none => all.results
      failure := all.failure.or (a.failing? all.mode) } := by
  obtain ⟨parent, context, queue, running, results, failure, limit, mode⟩ := all
  obtain ⟨c, i, x, late⟩ := a
  unfold settle fail Arrival.failing? Arrival.result?
  cases failure with
  | some cause =>
      obtain rfl : queue = [] := finished nofun
      cases x with
      | ok v => cases late <;> rfl
      | error cause => cases cause <;> cases mode <;> cases late <;> rfl
  | none =>
      cases x with
      | ok v => cases late <;> rfl
      | error cause => cases cause <;> cases mode <;> cases late <;> rfl

/-- What is known after one more exit has come. -/
theorem settle_later (fresh : a.place ∉ heard.map (·.place)) :
    ((task.later started heard).settle a.place a.exit a.late).2 =
      task.later started (heard ++ [a]) := by
  have finished : (task.later started heard).failure ≠ none → (task.later started heard).queue = [] :=
    fun failed => if_pos (Option.isSome_iff_ne_none.2 failed)
  have failure : failing task.mode (heard ++ [a]) =
      (failing task.mode heard).or (a.failing? task.mode) := by
    rw [failing_append]
    simp [failing]
  have running : (task.later started heard).running.filter (fun child => child.1 != a.place) =
      (task.later started (heard ++ [a])).running := by
    simp only [later, List.filter_filter]
    refine List.filter_congr fun child _ => ?_
    by_cases same : child.1 = a.place <;> simp [same]
  have results : (List.range task.results.length).map (slot task.mode (heard ++ [a])) =
      match a.result? task.mode with
      | some result => (task.later started heard).results.set a.place (some result)
      | none => (task.later started heard).results := by
    cases recorded : a.result? task.mode with
    | none => exact results_append_of_unrecorded fresh recorded _
    | some result =>
        have set := results_append fresh task.results.length task.mode
        rw [recorded] at set
        exact set
  have queue : (if (failing task.mode (heard ++ [a])).isSome then []
      else task.queue.drop started.length) =
      if (failing task.mode (heard ++ [a])).isSome then [] else (task.later started heard).queue := by
    rw [failure, later]
    cases failing task.mode heard <;> rfl
  rw [settle_eq _ a finished, running]
  unfold later at results queue ⊢
  rw [queue, results, failure]

/-! ## More children -/

/-- Many effects before any child was started: the places of the nodes are their numbers, and there is
room for a result of each. -/
structure Fresh (task : Gathering σ) : Prop where
  blank : task.later [] [] = task
  order : ∀ (k : Nat) (node : Nat × Node σ), task.queue[k]? = some node → node.1 = k
  length : task.queue.length = task.results.length
  limit_pos : 1 ≤ task.limit

/-- As many children run as may, or none is still to start. -/
structure Busy (all : Gathering σ) : Prop where
  room : all.running.length ≤ all.limit
  full : all.queue ≠ [] → all.running.length = all.limit

@[simp] theorem length_next (all : Gathering σ) (size : Nat) :
    (all.next size).length = min (all.limit - all.running.length) all.queue.length := by
  simp [next]

theorem next_of_nothing {all : Gathering σ} (nothing : all.queue = []) (size : Nat) :
    all.next size = [] := by
  rw [next, nothing, List.take_nil]
  rfl

/-- After as many children as possible were started. -/
theorem busy_filled {all : Gathering σ} (room : all.running.length ≤ all.limit) (size : Nat) :
    (all.filled (all.next size)).Busy := by
  have length : (all.filled (all.next size)).running.length = all.running.length +
      min (all.limit - all.running.length) all.queue.length := by
    rw [filled, List.length_append, length_next]
  refine ⟨?_, fun more => ?_⟩
  · have limit : (all.filled (all.next size)).limit = all.limit := rfl
    omega
  · have enough : all.limit - all.running.length < all.queue.length := by
      simpa [filled, List.drop_eq_nil_iff] using more
    have limit : (all.filled (all.next size)).limit = all.limit := rfl
    omega

/-- If nobody runs although children could start, nothing is left to do. -/
theorem isDone_of_filled {all : Gathering σ} (limit_pos : 1 ≤ all.limit) {size : Nat}
    (idle : (all.filled (all.next size)).running = []) : all.isDone := by
  obtain ⟨nobody, none⟩ : all.running = [] ∧ all.next size = [] := List.append_eq_nil_iff.1 idle
  have length := congrArg List.length none
  rw [length_next, nobody, List.length_nil] at length
  have empty : all.queue = [] := List.length_eq_zero_iff.1 (by omega)
  simp [isDone, nobody, empty]

/-- What is still to start are the last nodes. -/
theorem getElem?_queue_later {k : Nat} {node : Nat × Node σ}
    (queued : (task.later started heard).queue[k]? = some node) :
    task.queue[started.length + k]? = some node := by
  simp only [later] at queued
  split at queued
  · cases queued
  · rwa [List.getElem?_drop] at queued

/-- The child that starts next has the place that comes next. -/
theorem getElem?_next (fresh : task.Fresh) {size k : Nat} {child : Nat × FiberId}
    (listed : ((task.later started heard).next size)[k]? = some child) :
    child = (started.length + k, ⟨size + 1 + k⟩) ∧
      ∃ node, (task.later started heard).queue[k]? = some (started.length + k, node) := by
  rw [next, Machine.getElem?_newMembers, List.getElem?_take] at listed
  split at listed
  · obtain ⟨⟨i, node⟩, known, rfl⟩ := Option.map_eq_some_iff.1 listed
    obtain rfl : i = started.length + k := fresh.order _ _ (getElem?_queue_later known)
    exact ⟨rfl, node, known⟩
  · cases listed

/-- What is known after more children were started. -/
theorem filled_later (fresh : task.Fresh) (inside : ∀ a ∈ heard, a.place < started.length)
    (size : Nat) :
    (task.later started heard).filled ((task.later started heard).next size) =
      task.later (started ++ ((task.later started heard).next size).map (·.2)) heard := by
  let now := task.later started heard
  let ids := (now.next size).map (·.2)
  have dropped : now.queue.drop (now.limit - now.running.length) =
      (task.later (started ++ ids) heard).queue := by
    have length : ids.length = min (now.limit - now.running.length) now.queue.length := by
      rw [List.length_map, length_next]
    have rest : (task.later (started ++ ids) heard).queue = now.queue.drop ids.length := by
      simp only [now, later, List.length_append]
      split
      · exact List.drop_nil.symm
      · rw [List.drop_drop]
    rw [rest, length]
    rcases Nat.le_total (now.limit - now.running.length) now.queue.length with enough | few
    · rw [Nat.min_eq_left enough]
    · rw [Nat.min_eq_right few, List.drop_length, List.drop_eq_nil_of_le few]
  have placed : now.next size = ids.mapIdx fun i c => (i + started.length, c) := by
    refine List.ext_getElem? fun k => ?_
    rw [List.getElem?_mapIdx, List.getElem?_map]
    cases listed : (now.next size)[k]? with
    | none => rfl
    | some child =>
        obtain ⟨rfl, -⟩ := getElem?_next fresh listed
        rw [Option.map_some, Option.map_some, Nat.add_comm]
  -- nothing was heard of the new places
  have running : (task.later (started ++ ids) heard).running = now.running ++ now.next size := by
    have unheard : (now.next size).filter (fun child => child.1 ∉ heard.map (·.place)) =
        now.next size := by
      refine List.filter_eq_self.2 fun child new => ?_
      obtain ⟨k, listed⟩ := List.mem_iff_getElem?.1 new
      obtain ⟨rfl, -⟩ := getElem?_next fresh listed
      rw [decide_eq_true_eq]
      intro known
      obtain ⟨a, heard', same⟩ := List.mem_map.1 known
      have := inside a heard'
      omega
    simp only [later, List.mapIdx_append, List.filter_append]
    rw [← placed, unheard]
    rfl
  unfold filled
  show { now with
    queue := now.queue.drop (now.limit - now.running.length)
    running := now.running ++ now.next size } = task.later (started ++ ids) heard
  rw [dropped, ← running]
  rfl

/-! ## The result -/

/-- A list without gaps. -/
theorem exists_all_some {α : Type} {slots : List (Option α)} (full : none ∉ slots) :
    ∃ results : List α, slots = results.map some := by
  induction slots with
  | nil => exact ⟨[], rfl⟩
  | cons slot slots ih =>
      obtain ⟨results, rest⟩ := ih fun gap => full (List.mem_cons_of_mem _ gap)
      cases slot with
      | none => exact (full List.mem_cons_self).elim
      | some result => exact ⟨result :: results, by rw [rest, List.map_cons]⟩

theorem mapM_id_map_some {α : Type} (results : List α) :
    (results.map some).mapM id = some results := by
  induction results with
  | nil => rfl
  | cons result results ih => simp [List.mapM_cons, ih]

/-- When no child runs and none is still to start, the result is known. -/
theorem gathered_of_done (fresh : task.Fresh)
    (done : (task.later started heard).isDone) :
    Gathered task.mode task.results.length heard (task.later started heard).outcome := by
  obtain ⟨idle, empty⟩ : (task.later started heard).running = [] ∧
      (task.later started heard).queue = [] := by simpa [isDone] using done
  cases calm : failing task.mode heard with
  | some cause =>
      have outcome : (task.later started heard).outcome = .error cause := by
        simp [outcome, later, calm]
      exact outcome ▸ .failed cause calm
  | none =>
      -- all children were started, and of each of them an exit has come
      have known : ∀ i < task.results.length, i ∈ heard.map (·.place) := by
        intro i inside
        have all : task.queue.length ≤ started.length := by
          simpa [later, calm, List.drop_eq_nil_iff] using empty
        have length := fresh.length
        obtain ⟨c, first⟩ : ∃ c, started[i]? = some c := ⟨_, List.getElem?_eq_getElem (by omega)⟩
        by_contra unheard
        have runs : (i, c) ∈ (task.later started heard).running :=
          mem_running_later.2 ⟨first, unheard⟩
        rw [idle] at runs
        cases runs
      have full : none ∉ (List.range task.results.length).map (slot task.mode heard) := by
        intro gap
        obtain ⟨i, inside, nothing⟩ := List.mem_map.1 gap
        exact slot_ne_none calm (known i (List.mem_range.1 inside)) nothing
      obtain ⟨results, same⟩ := exists_all_some full
      have outcome : (task.later started heard).outcome = .ok (.list (results.map .result)) := by
        simp only [outcome, later, calm, same, mapM_id_map_some]
      have count : results.length = task.results.length := by
        simpa using (congrArg List.length same).symm
      refine outcome ▸ .full results calm count fun i inside => ?_
      have at_i := congrArg (·[i]?) same
      simp only [List.getElem?_map, List.getElem?_range inside, Option.map_some] at at_i
      cases known : results[i]? with
      | none => simp [known] at at_i
      | some result => simpa [known] using at_i.symm

end Gathering

end EffectFibers
