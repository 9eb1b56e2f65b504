import EffectFibers.Proofs.Groups.Arrivals

/-!
# What a group makes of an exit

When the exit of a member reaches its group, the group takes note of it, and perhaps it interrupts
members, starts others, or tells its parent the result.  Other groups do not notice.

## Main statements

* `Machine.groups_memberExit_of_ne` – other groups do not notice.
* `Machine.raced`, `Machine.gathered` – what becomes of a race, and of many effects at once.
-/

namespace EffectFibers

variable {σ : Type}

namespace Machine

variable {m n : Machine σ} {f c p d : FiberId} {g h : GroupId} {i : Nat} {x : Exit}
  {fiber : Fiber σ}

/-! ## Parts of it -/

/-- A group takes note of an exit, and interrupts the members that it lists. -/
def noted (m : Machine σ) (g : GroupId) (group : Group σ) (quiet : Bool) (event : TraceEvent)
    (siblings : List FiberId) : Machine σ :=
  if quiet then m.setGroup g group
  else ((m.setGroup g group).trace event).interruptAll siblings

section

variable (m) (g) (group : Group σ) (quiet : Bool) (event : TraceEvent) (siblings : List FiberId)

theorem spares_noted : (m.setGroup g group).Spares (m.noted g group quiet event siblings) := by
  unfold noted
  split
  · exact .refl _
  · exact (spares_trace _ event).trans (spares_interruptAll _ siblings)

theorem groups_noted (h : GroupId) : (m.noted g group quiet event siblings).groups.get? h =
    if g = h then (m.groups.get? h).map fun _ => group else m.groups.get? h := by
  rw [(m.spares_noted g group quiet event siblings).groups]
  exact Table.get?_modify ..

/-- Nobody is born or ends by this, and nobody goes on who waits for a group. -/
theorem calm_noted (silent : Entry.birth? (.trace event) = none)
    (endless : Entry.exit? (.trace event) = none) :
    Coherent.Calm (m.setGroup g group).core (m.noted g group quiet event siblings).core := by
  unfold noted
  split
  · exact .refl _
  · have calm := Coherent.calm_interruptAll ((m.setGroup g group).trace event) siblings
    rwa [core_trace_of_quiet _ silent endless] at calm

end

/-- A fiber that has not ended gets the answer that it is handed. -/
theorem input_deliver (row : m.fiber? p = some fiber) (live : fiber.status.isTerminal = false)
    (x : Exit) : (m.deliver p x).core.input p = some x := by
  have status : m.status p = fiber.status := Coherent.status_of_row row
  have input : (m.deliver p x).core.input p = ((m.deliver p x).fiber? p).bind (·.input) := rfl
  rw [input]
  unfold deliver
  rw [status]
  cases known : fiber.status with
  | suspended =>
      show ((m.modifyFiber p _).fiber? p).bind (·.input) = some x
      rw [fiber?_modifyFiber, if_pos rfl, row]
      rfl
  | running =>
      show ((m.modifyFiber p _).fiber? p).bind (·.input) = some x
      rw [fiber?_modifyFiber, if_pos rfl, row]
      rfl
  | _ =>
      rw [known] at live
      cases live

/-- The parent of a group that has taken note of an exit is still there to be told. -/
theorem live_of_awaits {κ : Core σ} {φ : Focus} (coherent : Coherent κ φ)
    (asleep : κ.awaits p = some g) {after : Core σ} (same : after.kin = κ.kin) :
    ∃ fiber, after.fibers.get? p = some fiber ∧ fiber.status.isTerminal = false := by
  obtain ⟨fiber, row, pending⟩ := Coherent.row_of_awaits asleep
  have suspended := (coherent.shaped row).asleep.2 (by rw [pending]; rfl)
  have kin : after.kin p = some fiber.kin := by
    rw [same]
    exact Table.view_of_row _ row
  obtain ⟨later, row', alike⟩ := Table.exists_row_of_view kin
  refine ⟨later, row', ?_⟩
  have verdict : later.verdict = fiber.verdict := congrArg Kin.verdict alike
  have none : fiber.verdict = none := by
    simp [Fiber.verdict, suspended, FiberStatus.isTerminal]
  rw [none, Fiber.verdict] at verdict
  by_contra gone
  rw [if_pos (by simpa using gone)] at verdict
  cases verdict

/-- There are as many fibers as before. -/
theorem size_le_of_kin {m' : Machine σ} (same : m'.core.kin = m.core.kin) :
    m.fibers.size ≤ m'.fibers.size := by
  rcases Nat.eq_zero_or_pos m.fibers.size with empty | first
  · omega
  · obtain ⟨fiber, last⟩ : ∃ fiber, m.fibers.get? ⟨m.fibers.size⟩ = some fiber :=
      Table.exists_row_iff.2 ⟨first, Nat.le_refl _⟩
    have kin : m'.core.kin ⟨m.fibers.size⟩ = some fiber.kin := by
      rw [same]
      exact Table.view_of_row _ last
    obtain ⟨after, row, -⟩ := Table.exists_row_of_view kin
    exact (Table.exists_row_iff.1 ⟨after, row⟩).2

/-! ## Other groups -/

/-- What is known about other groups stays the same. -/
theorem groups_fill_of_ne (other : h ≠ g) (m : Machine σ) (all : Gathering σ) :
    (m.fill h all).groups.get? g = m.groups.get? g := by
  by_cases calm : all.failure = none
  · have born := (m.spares_spawnMembers all.parent all.context h
      (all.queue.take (all.limit - all.running.length))).groups
    rw [fill_eq calm, (spares_enqueueAll _ _).groups, setGroup, Table.get?_modify, if_neg other,
      born]
  · rw [fill_of_failure calm]

theorem groups_memberExit_of_ne (other : h ≠ g) (m : Machine σ) (i : Nat) (x : Exit) :
    (m.memberExit h i x).groups.get? g = m.groups.get? g := by
  have settled : ∀ group quiet event siblings,
      (m.noted h group quiet event siblings).groups.get? g = m.groups.get? g :=
    fun group quiet event siblings => (m.groups_noted h group quiet event siblings g).trans
      (if_neg other)
  unfold memberExit
  split
  · rename_i race row
    unfold raceExit
    dsimp only
    split
    · rw [(spares_deliver _ _ _).groups]
      exact settled _ _ _ _
    · exact settled _ _ _ _
  · rename_i all row
    unfold allExit
    dsimp only
    split
    · rw [(spares_deliver _ _ _).groups]
      exact settled _ _ _ _
    · rw [groups_fill_of_ne other]
      exact settled _ _ _ _
  · rfl

/-! ## Races -/

/-- What becomes of a race when the exit of a member arrives. -/
structure Raced (m : Machine σ) (g : GroupId) (race : Race) (x : Exit) (m' : Machine σ) : Prop where
  row : m'.groups.get? g = some (.race { race with
    remaining := race.remaining - 1, winner := some (race.winner.getD x) })
  marked : race.winner = none → ∀ c ∈ race.members, (m.fiber? c).isSome → m'.isInterrupted c = true
  told : race.remaining - 1 = 0 → m'.core.input race.parent = some (race.winner.getD x)

theorem raced {race : Race}
    (coherent : Coherent m.core { settling := some c, idle := some g })
    (placed : m.core.place c = some (g, i)) (row : m.groups.get? g = some (.race race)) (x : Exit) :
    m.Raced g race x (m.memberExit g i x) := by
  let settled : Race :=
    { race with remaining := race.remaining - 1, winner := some (race.winner.getD x) }
  let event : TraceEvent := .raceSettled race.parent (race.members.length - 1)
  let after := m.noted g (.race settled) race.winner.isSome event race.members
  have exit : m.memberExit g i x =
      if settled.remaining = 0 then after.deliver race.parent (race.winner.getD x) else after := by
    simp only [memberExit, row]
    rfl
  have row' : after.groups.get? g = some (.race settled) := by
    rw [groups_noted, if_pos rfl, row]
    rfl
  have asleep : m.core.awaits race.parent = some g := by
    rcases coherent.seating.awaited placed (.inr rfl) row with h | ⟨h, -⟩
    · exact h
    · cases h
  have steady : after.Steady (m.memberExit g i x) := by
    rw [exit]
    split
    · exact .deliver _ _ _
    · exact .refl _
  refine ⟨?_, fun first d listed born => ?_, fun last => ?_⟩
  · rw [steady.groups]
    exact row'
  · rw [steady.marks]
    show (m.noted g _ race.winner.isSome event race.members).isInterrupted d = true
    rw [noted, first]
    exact Evolves.marked_interruptAll listed born
  · have calm := m.calm_noted g (.race settled) race.winner.isSome event race.members rfl rfl
    obtain ⟨fiber, known, live⟩ := live_of_awaits coherent asleep calm.kin
    rw [exit, if_pos last]
    exact input_deliver known live _

/-! ## Many effects at once -/

/-- What becomes of many effects at once when the exit of a member arrives: they take note of it,
further children start, and when nothing is left to do their parent gets the result. -/
theorem gathered {all : Gathering σ}
    (coherent : Coherent m.core { settling := some c, idle := some g })
    (placed : m.core.place c = some (g, i)) (row : m.groups.get? g = some (.all all)) (x : Exit)
    {settled : Gathering σ} (settles : (all.settle i x (m.isInterrupted all.parent)).2 = settled)
    (finished : settled.failure ≠ none → settled.queue = []) :
    (∃ size, m.Fills g settled size (m.memberExit g i x)) ∧
      (settled.isDone → (m.memberExit g i x).core.input all.parent = some settled.outcome) := by
  subst settles
  let settled := (all.settle i x (m.isInterrupted all.parent)).2
  let siblings := (all.settle i x (m.isInterrupted all.parent)).1
  let event : TraceEvent := .allFailed all.parent siblings.length
  let after := m.noted g (.all settled) siblings.isEmpty event siblings
  obtain ⟨-, -, same, -⟩ := all.settle_cases i x (m.isInterrupted all.parent)
  have exit : m.memberExit g i x = if settled.isDone then after.deliver all.parent settled.outcome
      else after.fill g settled := by
    simp only [memberExit, row, allExit, same]
    rfl
  have row' : after.groups.get? g = some (.all settled) := by
    rw [groups_noted, if_pos rfl, row]
    rfl
  have asleep : m.core.awaits all.parent = some g := by
    rcases coherent.seating.awaited placed (.inr rfl) row with h | ⟨h, -⟩
    · exact h
    · cases h
  have calm := m.calm_noted g (.all settled) siblings.isEmpty event siblings rfl rfl
  obtain ⟨parent, known, live⟩ := live_of_awaits coherent asleep calm.kin
  have old : m.fibers.size ≤ after.fibers.size := size_le_of_kin calm.kin
  rw [exit]
  by_cases done : settled.isDone
  · rw [if_pos done]
    have nothing : settled.queue = [] := by
      simp only [Gathering.isDone, Bool.and_eq_true, List.isEmpty_iff] at done
      exact done.2
    refine ⟨⟨_, fills_of_nothing nothing ?_⟩, fun _ => input_deliver known live _⟩
    rw [(spares_deliver _ _ _).groups]
    exact row'
  · rw [if_neg done]
    refine ⟨?_, fun yes => absurd yes done⟩
    by_cases fine : settled.failure = none
    · have there : (after.fiber? settled.parent).isSome := by
        rw [same]
        exact Option.isSome_iff_exists.2 ⟨parent, known⟩
      obtain ⟨-, filled, born⟩ := fills_fill fine row' there
      exact ⟨_, old, filled, born⟩
    · rw [fill_of_failure fine]
      exact ⟨_, fills_of_nothing (finished fine) row'⟩

end Machine

end EffectFibers
