import EffectFibers.Proofs.Groups.Steps
import EffectFibers.Proofs.Progress.Position

/-!
# What a run remembers

Every run has a memory for its layers, and every fiber belongs to a run: a root to one of its own,
and a child to that of its parent.  Only a step of a fiber changes what a run remembers.  Whatever
else happens leaves the layers of all runs alone: the ends of fibers and of groups, interrupts, and
what comes of a step.

## Main definitions

* `Machine.SharesRuns` – children belong to the runs of their parents.

## Main statements

* `Moment.Reachable.knows_run` – every fiber belongs to a run.
* `Moment.memo_of_still` – what is no step leaves the layers alone.
-/

namespace EffectFibers

variable {σ : Type}

/-! ## The run of a fiber -/

namespace Machine

/-- Children belong to the runs of their parents, and roots to runs that there are. -/
structure SharesRuns (m : Machine σ) : Prop where
  root : ∀ {f fiber}, m.fiber? f = some fiber → fiber.parent = none →
    (m.scopes.get? fiber.scope).isSome
  child : ∀ {f fiber p parent}, m.fiber? f = some fiber → fiber.parent = some p →
    m.fiber? p = some parent → p.raw < f.raw → fiber.scope = parent.scope

end Machine

section

variable {actor : Option FiberId} {deals : Bool} {m m' : Machine σ}

/-- Runs are never forgotten. -/
theorem Change.runs (change : Change actor deals m m') {s : ScopeId}
    (known : (m.scopes.get? s).isSome) : (m'.scopes.get? s).isSome := by
  cases change with
  | quiet quiet told => exact quiet.runs s known
  | @breakWait m g fiber row marked => exact (m.spares_breakWait g fiber).scopes ▸ known
  | @resume m v x rightful => exact (m.spares_resume v x).scopes ▸ known
  | @deliver m q g x _ _ => exact (m.spares_deliver q x).scopes ▸ known
  | @claim m v own => exact (m.spares_claim v).scopes ▸ known
  | _ => exact known

theorem Change.sharesRuns (change : Change actor deals m m') (shares : m.SharesRuns) :
    m'.SharesRuns := by
  -- who is older than a fiber was there before it
  have older : ∀ {f p : FiberId}, f.raw ≤ m.fibers.size + 1 → (∃ parent, m'.fiber? p = some parent) →
      p.raw < f.raw → ∃ parent, m.fiber? p = some parent := by
    intro f p bound row young
    obtain ⟨positive, -⟩ := Table.exists_row_iff.1 row
    exact Table.exists_row_iff.2 ⟨positive, by omega⟩
  have kept := change.keepsSeats
  constructor
  · intro f fiber row root
    cases before : m.fiber? f with
    | some old =>
        obtain ⟨after, row', seat⟩ := kept before
        obtain rfl := Option.some.inj (row.symm.trans row')
        rw [seat.scope]
        exact change.runs (shares.root before (seat.parent ▸ root))
    | none =>
        rcases Machine.row_of_change before change with missing | ⟨new, -, admitted, rfl, rfl⟩
        · cases missing.symm.trans row
        · obtain rfl : new = fiber := Option.some.inj ((Table.get?_push_self _ _).symm.trans row)
          rw [Machine.Admits, root] at admitted
          exact admitted
  · intro f fiber p parent row below above young
    cases before : m.fiber? f with
    | some old =>
        obtain ⟨after, row', seat⟩ := kept before
        obtain rfl := Option.some.inj (row.symm.trans row')
        have bound : f.raw ≤ m.fibers.size := (Table.exists_row_iff.1 ⟨old, before⟩).2
        obtain ⟨oldParent, before'⟩ := older (by omega) ⟨parent, above⟩ young
        obtain ⟨parent', above', seat'⟩ := kept before'
        obtain rfl := Option.some.inj (above.symm.trans above')
        rw [seat.scope, seat'.scope]
        exact shares.child before (seat.parent ▸ below) before' young
    | none =>
        rcases Machine.row_of_change before change with missing | ⟨new, -, admitted, rfl, rfl⟩
        · cases missing.symm.trans row
        · obtain rfl : new = fiber := Option.some.inj ((Table.get?_push_self _ _).symm.trans row)
          obtain ⟨parent', before'⟩ := older (Nat.le_refl _) ⟨parent, above⟩ young
          obtain rfl := Option.some.inj
            ((Table.get?_push_of_some new before').symm.trans above)
          rw [Machine.Admits, below] at admitted
          simpa [before'] using admitted

theorem Evolves.sharesRuns (evolves : Evolves actor deals m m') (shares : m.SharesRuns) :
    m'.SharesRuns := by
  induction evolves with
  | refl => exact shares
  | tail _ change ih => exact change.sharesRuns ih

end

namespace Moment

variable {μ : Moment σ} {f p : FiberId} {fiber parent : Fiber σ} {event : Event σ}

theorem Reachable.sharesRuns (reachable : Reachable μ) : μ.machine.SharesRuns := by
  induction reachable with
  | initial world budget =>
      constructor
      · intro f fiber row
        cases (Table.get?_empty _).symm.trans row
      · intro f fiber p parent row
        cases (Table.get?_empty _).symm.trans row
  | apply event reachable ih =>
      exact (evolves reachable.isCoherent reachable.tidy event).sharesRuns ih

/-- A child belongs to the run of its parent. -/
theorem Reachable.run_of_child (reachable : Reachable μ) (row : μ.machine.fiber? f = some fiber)
    (below : fiber.parent = some p) :
    ∃ parent, μ.machine.fiber? p = some parent ∧ p.raw < f.raw ∧ fiber.scope = parent.scope := by
  have kin : μ.machine.core.kin f = some fiber.kin := Table.view_of_row _ row
  obtain ⟨young, known⟩ := (family_of_isCoherent reachable.isCoherent).parent_older kin below
  obtain ⟨kp, kin'⟩ := Option.isSome_iff_exists.1 known
  obtain ⟨parent, above, -⟩ := Table.exists_row_of_view kin'
  exact ⟨parent, above, young, reachable.sharesRuns.child row below above young⟩

/-- Every fiber belongs to a run. -/
theorem Reachable.knows_run (reachable : Reachable μ) (row : μ.machine.fiber? f = some fiber) :
    (μ.machine.scopes.get? fiber.scope).isSome := by
  -- parents are older than their children
  induction age : f.raw using Nat.strongRecOn generalizing f fiber with
  | ind n ih =>
      cases above : fiber.parent with
      | none => exact reachable.sharesRuns.root row above
      | some p =>
          obtain ⟨parent, row', young, same⟩ := reachable.run_of_child row above
          rw [same]
          exact ih p.raw (age ▸ young) row' rfl

end Moment

/-! ## What leaves the layers alone -/

namespace Machine

variable (m : Machine σ)

/-- A change to what one run remembers. -/
theorem memo_modifyMemo {m : Machine σ} {s : ScopeId} (known : (m.scopes.get? s).isSome)
    (change : Memo → Memo) (t : ScopeId) :
    (m.modifyMemo s change).memo t = if s = t then change (m.memo t) else m.memo t := by
  simp only [memo, modifyMemo, Table.get?_modify]
  split
  · rename_i same
    obtain ⟨memo, row⟩ := Option.isSome_iff_exists.1 (same ▸ known)
    rw [row]
    rfl
  · rfl

theorem memo_of_scopes {m m' : Machine σ} (same : m'.scopes = m.scopes) (s : ScopeId) :
    m'.memo s = m.memo s := by rw [memo, same, memo]

/-- A new run remembers nothing, as one that there is not. -/
theorem memo_startRoot (node : Node σ) (s : ScopeId) :
    (m.startRoot node).2.memo s = m.memo s := by
  show ((m.scopes.push []).get? s).getD [] = _
  rw [Table.get?_push]
  split
  · rename_i new
    have missing : m.scopes.get? s = none := by
      cases row : m.scopes.get? s with
      | none => rfl
      | some memo =>
          have bound := (Table.exists_row_iff.1 ⟨memo, row⟩).2
          rw [new] at bound
          exact absurd bound (Nat.not_succ_le_self _)
    rw [memo, missing]
    rfl
  · rfl

/-- A change that leaves layers alone, and what is known about the runs. -/
structure GroupsOnly (m m' : Machine σ) : Prop where
  scopes : m'.scopes = m.scopes
  roots : m'.roots = m.roots
  results : m'.results = m.results

theorem GroupsOnly.trans {m m' m'' : Machine σ} (first : m.GroupsOnly m')
    (second : m'.GroupsOnly m'') : m.GroupsOnly m'' :=
  ⟨second.scopes.trans first.scopes, second.roots.trans first.roots,
    second.results.trans first.results⟩

theorem Spares.groupsOnly {m m' : Machine σ} (spares : m.Spares m') : m.GroupsOnly m' :=
  ⟨spares.scopes, spares.roots, spares.results⟩

theorem groupsOnly_setGroup (g : GroupId) (group : Group σ) :
    m.GroupsOnly (m.setGroup g group) := ⟨rfl, rfl, rfl⟩

theorem groupsOnly_fill (g : GroupId) (all : Gathering σ) : m.GroupsOnly (m.fill g all) := by
  unfold fill
  split
  · exact (Spares.refl m).groupsOnly
  · have born := m.spares_spawnMembers all.parent all.context g
      (all.queue.take (all.limit - all.running.length))
    exact born.groupsOnly.trans
      ((groupsOnly_setGroup _ g _).trans (spares_enqueueAll _ _).groupsOnly)

theorem groupsOnly_startRace (parent : FiberId) (context : Context Value)
    (nodes : List (Node σ)) : m.GroupsOnly (m.startRace parent context nodes).2 := by
  have pushed : ∀ groups, m.GroupsOnly { m with groups } := fun _ => ⟨rfl, rfl, rfl⟩
  unfold startRace
  exact (pushed _).trans ((spares_spawnMembers _ parent context _ _).groupsOnly.trans
    ((groupsOnly_setGroup _ _ _).trans (spares_enqueueAll _ _).groupsOnly))

theorem groupsOnly_startAll (parent : FiberId) (context : Context Value) (nodes : List (Node σ))
    (options : AllOptions) : m.GroupsOnly (m.startAll parent context nodes options).2 := by
  have pushed : ∀ groups, m.GroupsOnly { m with groups } := fun _ => ⟨rfl, rfl, rfl⟩
  unfold startAll
  dsimp only
  exact (pushed _).trans (groupsOnly_fill _ _ _)

theorem groupsOnly_raceExit (g : GroupId) (race : Race) (x : Exit) :
    m.GroupsOnly (m.raceExit g race x) := by
  unfold raceExit
  have settled : ∀ n : Machine σ, m.GroupsOnly n → m.GroupsOnly (if race.remaining - 1 = 0 then
      n.deliver race.parent (race.winner.getD x) else n) := by
    intro n same
    split
    · exact same.trans (n.spares_deliver _ _).groupsOnly
    · exact same
  refine settled _ ?_
  have set := m.groupsOnly_setGroup g (.race { race with
    remaining := race.remaining - 1, winner := some (race.winner.getD x) })
  split
  · exact set
  · exact set.trans ((spares_trace _ _).trans (spares_interruptAll _ _)).groupsOnly

theorem groupsOnly_allExit (g : GroupId) (all : Gathering σ) (index : Nat) (x : Exit) :
    m.GroupsOnly (m.allExit g all index x) := by
  unfold allExit
  generalize all.settle index x (m.isInterrupted all.parent) = settled
  obtain ⟨siblings, after⟩ := settled
  have set := m.groupsOnly_setGroup g (.all after)
  have told : m.GroupsOnly (if siblings.isEmpty then m.setGroup g (.all after)
      else ((m.setGroup g (.all after)).trace
        (.allFailed after.parent siblings.length)).interruptAll siblings) := by
    split
    · exact set
    · exact set.trans ((spares_trace _ _).trans (spares_interruptAll _ _)).groupsOnly
  dsimp only
  split
  · exact told.trans (spares_deliver _ _ _).groupsOnly
  · exact told.trans (groupsOnly_fill _ _ _)

theorem groupsOnly_memberExit (g : GroupId) (index : Nat) (x : Exit) :
    m.GroupsOnly (m.memberExit g index x) := by
  unfold memberExit
  split
  · exact m.groupsOnly_raceExit g _ x
  · exact m.groupsOnly_allExit g _ index x
  · exact (Spares.refl m).groupsOnly

theorem scopes_handOver (f : FiberId) (reader : ExitReader) (x : Exit) :
    (m.handOver f reader x).scopes = m.scopes := by
  cases reader with
  | joiner => rfl
  | group g place => exact (m.groupsOnly_memberExit g place x).scopes
  | handle => rfl

theorem scopes_completeWithin (height : Nat) (f : FiberId) (x : Exit) :
    (m.completeWithin height f x).scopes = m.scopes := by
  induction height generalizing m f x with
  | zero => rfl
  | succ height ih =>
      unfold completeWithin
      split
      · rfl
      rename_i fiber _
      dsimp only
      have left : (((m.modifyFiber f fun fiber => fiber.ended x).trace (.exited f x)).detach f
          fiber.parent).scopes = m.scopes := by
        cases fiber.parent <;> rfl
      have handed := (scopes_handOver (((m.modifyFiber f fun fiber => fiber.ended x).trace
        (.exited f x)).detach f fiber.parent) f fiber.reader x).trans left
      generalize (((m.modifyFiber f fun fiber => fiber.ended x).trace (.exited f x)).detach f
        fiber.parent).handOver f fiber.reader x = n at handed
      -- the observers are told one after the other
      generalize fiber.observers = observers
      induction observers generalizing n with
      | nil => exact handed
      | cons observer observers ih' =>
          rw [List.foldl_cons]
          refine ih' _ ?_
          cases observer with
          | watcher w how => exact (n.spares_tellWatcher f w how).scopes.trans handed
          | closing parent =>
              have counted := (n.spares_childGone parent).scopes.trans handed
              dsimp only
              generalize n.childGone parent = result at counted ⊢
              obtain ⟨exit, n'⟩ := result
              cases exit with
              | none => exact counted
              | some exit => exact (ih n' parent exit).trans counted

theorem scopes_finish (f : FiberId) (x : Exit) : (m.finish f x).scopes = m.scopes := by
  unfold finish
  dsimp only
  split
  · exact m.scopes_completeWithin _ f x
  · exact (spares_awaitChildren _ f _).scopes.trans (spares_interruptAll _ _).scopes

theorem scopes_follow (slice : Slice σ) (control : Control σ) :
    (m.follow slice control).scopes = m.scopes := by
  cases control with
  | finish x => exact m.scopes_finish slice.fiber x
  | next step => exact (m.spares_follow slice (by simp)).scopes
  | yield step => exact (m.spares_follow slice (by simp)).scopes
  | suspend pending => exact (m.spares_follow slice (by simp)).scopes

end Machine

namespace Moment

variable {μ : Moment σ} {event : Event σ}

/-- Before the first event no run remembers anything. -/
theorem memo_initial (world : World σ) (budget : Nat) (s : ScopeId) :
    (initial world budget).machine.memo s = [] := by
  simp [Machine.memo, initial, Machine.start]

/-- What is no step of a fiber leaves the layers of all runs alone. -/
theorem memo_of_still (still : ¬ ∃ f t, μ.strideAt f event = some t) (s : ScopeId) :
    (μ.apply event).machine.memo s = μ.machine.memo s := by
  cases event with
  | start node => exact μ.machine.memo_startRoot node s
  | request request => exact Machine.memo_of_scopes (μ.machine.spares_serve request).scopes s
  | host change => rfl
  | receive =>
      refine Machine.memo_of_scopes ?_ s
      simp only [apply, Machine.receive]
      split
      · rfl
      · exact (Machine.spares_resumeCallback _ _ _).scopes
  | fire =>
      refine Machine.memo_of_scopes ?_ s
      simp only [apply, Machine.fireNext]
      split
      · exact (Machine.spares_resume _ _ _).scopes
      · rfl
  | elapse instant => rfl
  | takeResult f =>
      refine Machine.memo_of_scopes ?_ s
      simp only [apply, Machine.takeResult]
      split
      · split <;> rfl
      · rfl
  | work =>
      refine Machine.memo_of_scopes ?_ s
      simp only [apply, Moment.work]
      split
      · exact Machine.scopes_follow _ _ _
      · rename_i slice taken running
        have moves : μ.strideAt slice.fiber .work =
            some ⟨{ μ.machine with running := none }, slice⟩ :=
          strideAt_eq_some_iff.2 ⟨rfl, taken, running, rfl, rfl⟩
        exact absurd ⟨_, _, moves⟩ still
      · exact (Machine.spares_dispatch _).scopes

end Moment

end EffectFibers
