import EffectFibers.Machine.Group
import Mathlib.Logic.Function.Basic
import Mathlib.Data.List.Nodup
import Mathlib.Data.List.Count

/-!
# Members of groups

Every member of a group is a child of the fiber that waits for the group.  A race counts its
members that are still to end; among many effects at once, exactly those that have started and
not ended are listed as running.  The fiber waits as long as some member lives.

While a group changes, some of this does not hold: a member has ended and its group does not
know yet (it is `settling`), a group has perhaps no member left although its fiber still waits (it
is `idle`), or the members of a group are just being made (it is `forming`).

## Main definitions

* `Counted`, `Occupied` – the members that have not ended for their group.
* `RaceSeated`, `AllSeated` – a group knows its members.
* `Seating` – members, groups and waiting fibers belong together.
-/

namespace EffectFibers

variable {σ : Type}

/-- The place in a group to which an exit goes. -/
def ExitReader.place : ExitReader → Option (GroupId × Nat)
  | .group g i => some (g, i)
  | _ => none

/-- The place of a fiber in a group. -/
def Fiber.place (fiber : Fiber σ) : Option (GroupId × Nat) := fiber.reader.place

/-- Whether a fiber is still to end. -/
def Fiber.live (fiber : Fiber σ) : Bool := !fiber.status.isTerminal

/-- The group whose end is awaited. -/
def Pending.group? : Pending σ → Option GroupId
  | .group g => some g
  | .wait .. => none

/-- The group that a fiber sleeps on. -/
def Fiber.awaits (fiber : Fiber σ) : Option GroupId := fiber.pending.bind Pending.group?

/-- The fiber that waits for a group. -/
def Group.parent : Group σ → FiberId
  | .race r => r.parent
  | .all a => a.parent

section

variable (place : FiberId → Option (GroupId × Nat)) (live : FiberId → Option Bool)
  (settling : Option FiberId) (g : GroupId)

/-- A fiber lives, or its group does not know yet that it has ended. -/
def Counted (c : FiberId) : Prop := live c = some true ∨ settling = some c

instance (c : FiberId) : Decidable (Counted live settling c) :=
  inferInstanceAs (Decidable (_ ∨ _))

/-- Some member of the group lives. -/
def Occupied : Prop := ∃ c i, place c = some (g, i) ∧ live c = some true

/-- A race knows its members and how many of them are still to end. -/
structure RaceSeated (race : Race) : Prop where
  nodup : race.members.Nodup
  placed : ∀ {c}, c ∈ race.members → ∃ i, place c = some (g, i)
  listed : ∀ {c i}, place c = some (g, i) → c ∈ race.members
  count : race.remaining = race.members.countP fun c => decide (Counted live settling c)

/-- Many effects at once know which of them run, and start no more after a failure. -/
structure AllSeated (all : Gathering σ) : Prop where
  limit_pos : 1 ≤ all.limit
  nodup : (all.running.map (·.1) ++ all.queue.map (·.1)).Nodup
  runs : ∀ {i c}, (i, c) ∈ all.running → Counted live settling c ∧ place c = some (g, i)
  listed : ∀ {i c}, Counted live settling c → place c = some (g, i) → (i, c) ∈ all.running
  failed : all.failure ≠ none → all.queue = []

end

/-- Members, groups and waiting fibers belong together. -/
structure Seating (groups : GroupId → Option (Group σ)) (parent : FiberId → Option FiberId)
    (place : FiberId → Option (GroupId × Nat)) (live : FiberId → Option Bool)
    (awaits : FiberId → Option GroupId) (held : Option FiberId) (opening : Option GroupId)
    (settling : Option FiberId) (idle forming : Option GroupId) : Prop where
  member : ∀ {c g i}, place c = some (g, i) →
    ∃ G, groups g = some G ∧ parent c = some G.parent
  awaited : ∀ {c g i G}, place c = some (g, i) → Counted live settling c → groups g = some G →
    awaits G.parent = some g ∨ (held = some G.parent ∧ opening = some g)
  awaits_group : ∀ {p g}, awaits p = some g → ∃ G, groups g = some G ∧ G.parent = p
  awaits_member : ∀ {p g}, awaits p = some g → idle ≠ some g → Occupied place live g
  opening_group : ∀ {p g}, held = some p → opening = some g →
    ∃ G, groups g = some G ∧ G.parent = p
  opening_member : ∀ {g}, opening = some g → idle ≠ some g → Occupied place live g
  race : ∀ {g r}, groups g = some (.race r) → forming ≠ some g →
    RaceSeated place live settling g r
  all : ∀ {g a}, groups g = some (.all a) → forming ≠ some g →
    AllSeated place live settling g a

/-! ## What a group does not notice -/

section

variable {place : FiberId → Option (GroupId × Nat)} {live : FiberId → Option Bool}
  {settling : Option FiberId} {g : GroupId} {f : FiberId}

theorem Occupied.mono {place' : FiberId → Option (GroupId × Nat)} {live' : FiberId → Option Bool}
    (occupied : Occupied place live g)
    (same : ∀ {c i}, place c = some (g, i) → place' c = place c ∧ live' c = live c) :
    Occupied place' live' g := by
  obtain ⟨c, i, placed, alive⟩ := occupied
  obtain ⟨h, h'⟩ := same placed
  exact ⟨c, i, h.trans placed, h'.trans alive⟩

/-- A race notices only what happens to its members. -/
theorem RaceSeated.congr {place' : FiberId → Option (GroupId × Nat)}
    {live' : FiberId → Option Bool} {settling' : Option FiberId} {race : Race}
    (seated : RaceSeated place live settling g race)
    (places : ∀ {c i}, place' c = some (g, i) ↔ place c = some (g, i))
    (same : ∀ {c i}, place c = some (g, i) →
      (Counted live' settling' c ↔ Counted live settling c)) :
    RaceSeated place' live' settling' g race := by
  obtain ⟨nodup, placed, listed, count⟩ := seated
  refine ⟨nodup, fun h => ?_, fun h => listed (places.1 h), ?_⟩
  · obtain ⟨i, h⟩ := placed h
    exact ⟨i, places.2 h⟩
  · rw [count]
    refine List.countP_congr fun c h => ?_
    obtain ⟨i, h⟩ := placed h
    simp [same h]

/-- Many effects at once notice only what happens to their members. -/
theorem AllSeated.congr {place' : FiberId → Option (GroupId × Nat)}
    {live' : FiberId → Option Bool} {settling' : Option FiberId} {all : Gathering σ}
    (seated : AllSeated place live settling g all)
    (places : ∀ {c i}, place' c = some (g, i) ↔ place c = some (g, i))
    (same : ∀ {c i}, place c = some (g, i) →
      (Counted live' settling' c ↔ Counted live settling c)) :
    AllSeated place' live' settling' g all := by
  obtain ⟨limit, nodup, runs, listed, failed⟩ := seated
  refine ⟨limit, nodup, fun h => ?_, fun h h' => ?_, failed⟩
  · obtain ⟨counted, placed⟩ := runs h
    exact ⟨(same placed).2 counted, places.2 placed⟩
  · have placed := places.1 h'
    exact listed ((same placed).1 h) placed

/-- Marking one of different items out by a disjunct adds one to what is counted. -/
theorem countP_counted {l : List FiberId} (nodup : l.Nodup) (mem : f ∈ l)
    (gone : live f ≠ some true) :
    (l.countP fun c => decide (Counted live (some f) c)) =
      (l.countP fun c => decide (Counted live none c)) + 1 := by
  induction l with
  | nil => cases mem
  | cons c l ih =>
      rw [List.nodup_cons] at nodup
      rw [List.countP_cons, List.countP_cons]
      by_cases same : c = f
      · subst same
        have others : (l.countP fun d => decide (Counted live (some c) d)) =
            l.countP fun d => decide (Counted live none d) := by
          refine List.countP_congr fun d listed => ?_
          have unequal : c ≠ d := fun h => nodup.1 (h ▸ listed)
          simp [Counted, unequal]
        rw [others]
        simp [Counted, gone]
      · have listed : f ∈ l := by
          rcases List.mem_cons.1 mem with h | h
          · exact absurd h.symm same
          · exact h
        rw [ih nodup.2 listed]
        simp only [Counted, Option.some.injEq, Ne.symm same, reduceCtorEq, or_false,
          decide_eq_true_eq]
        omega

/-- A race hears of the end of a member. -/
theorem RaceSeated.settle {race : Race} {i : Nat}
    (seated : RaceSeated place live (some f) g race) (placed : place f = some (g, i))
    (gone : live f ≠ some true) (winner : Option Exit) :
    RaceSeated place live none g { race with remaining := race.remaining - 1, winner } := by
  obtain ⟨nodup, places, listed, count⟩ := seated
  refine ⟨nodup, places, listed, ?_⟩
  show race.remaining - 1 = race.members.countP fun c => decide (Counted live none c)
  rw [count, countP_counted nodup (listed placed) gone]
  omega

/-- After a member of a race has ended, the group counts whether another one lives. -/
theorem RaceSeated.occupied {race : Race} (seated : RaceSeated place live none g race)
    (more : race.remaining ≠ 0) : Occupied place live g := by
  rw [seated.count, ← Nat.pos_iff_ne_zero, List.countP_pos_iff] at more
  obtain ⟨c, listed, counted⟩ := more
  obtain ⟨i, placed⟩ := seated.placed listed
  exact ⟨c, i, placed, by simpa [Counted] using counted⟩

theorem RaceSeated.deserted {race : Race} (seated : RaceSeated place live none g race)
    (last : race.remaining = 0) {c : FiberId} {i : Nat} (placed : place c = some (g, i)) :
    live c ≠ some true := by
  rw [seated.count, List.countP_eq_zero] at last
  intro alive
  exact last c (seated.listed placed) (by simp [Counted, alive])

/-- What an exit does to a group, apart from its results. -/
theorem Gathering.settle_cases (all : Gathering σ) (index : Nat) (exit : Exit) (b : Bool) :
    (all.settle index exit b).2.running = all.running.filter (fun child => child.1 != index) ∧
      (all.settle index exit b).2.limit = all.limit ∧
      (all.settle index exit b).2.parent = all.parent ∧
      (((all.settle index exit b).2.queue = all.queue ∧
          (all.settle index exit b).2.failure = all.failure) ∨
        (all.settle index exit b).2.queue = []) := by
  unfold Gathering.settle Gathering.fail
  grind

/-- Many effects at once hear of the end of a member. -/
theorem AllSeated.settle {all : Gathering σ} {i : Nat}
    (seated : AllSeated place live (some f) g all) (placed : place f = some (g, i))
    (gone : live f ≠ some true) (exit : Exit) (b : Bool) :
    AllSeated place live none g (all.settle i exit b).2 := by
  obtain ⟨running, limit, -, rest⟩ := Gathering.settle_cases all i exit b
  obtain ⟨limit_pos, nodup, runs, listed, failed⟩ := seated
  have unique : ∀ {c}, (i, c) ∈ all.running → c = f := by
    intro c h
    have h' := listed (.inr rfl) placed
    have nodup' : (all.running.map (·.1)).Nodup := nodup.of_append_left
    exact congrArg Prod.snd (List.inj_on_of_nodup_map nodup' h h' rfl)
  refine ⟨limit ▸ limit_pos, ?_, fun {j c} h => ?_, fun {j c} counted placed' => ?_, ?_⟩
  · rw [running]
    have fewer : ((all.running.filter fun child => child.1 != i).map (·.1)).Sublist
        (all.running.map (·.1)) := List.filter_sublist.map _
    rcases rest with ⟨queue, -⟩ | queue
    · rw [queue]
      exact nodup.sublist (fewer.append_right _)
    · rw [queue, List.map_nil, List.append_nil]
      exact nodup.of_append_left.sublist fewer
  · rw [running, List.mem_filter] at h
    obtain ⟨counted, placed'⟩ := runs h.1
    refine ⟨?_, placed'⟩
    rcases counted with alive | settled
    · exact .inl alive
    · obtain rfl := Option.some.inj settled
      rw [placed] at placed'
      obtain ⟨-, rfl⟩ := Prod.mk.inj (Option.some.inj placed')
      simp at h
  · rw [running, List.mem_filter]
    have alive : live c = some true := by simpa [Counted] using counted
    have h := listed (.inl alive) placed'
    refine ⟨h, ?_⟩
    simp only [bne_iff_ne, ne_eq]
    rintro rfl
    exact gone (unique h ▸ alive)
  · intro failure
    rcases rest with ⟨queue, same⟩ | queue
    · rw [queue]
      exact failed (same ▸ failure)
    · exact queue

theorem AllSeated.occupied {all : Gathering σ} (seated : AllSeated place live none g all)
    (running : all.running ≠ []) : Occupied place live g := by
  obtain ⟨⟨i, c⟩, listed⟩ := List.exists_mem_of_ne_nil _ running
  obtain ⟨counted, placed⟩ := seated.runs listed
  exact ⟨c, i, placed, by simpa [Counted] using counted⟩

theorem AllSeated.deserted {all : Gathering σ} (seated : AllSeated place live none g all)
    (nobody : all.running = []) {c : FiberId} {i : Nat} (placed : place c = some (g, i)) :
    live c ≠ some true := by
  intro alive
  have listed := seated.listed (.inl alive) placed
  simp [nobody] at listed

end

namespace Seating

variable {groups : GroupId → Option (Group σ)} {parent : FiberId → Option FiberId}
  {place : FiberId → Option (GroupId × Nat)} {live : FiberId → Option Bool}
  {awaits : FiberId → Option GroupId} {held : Option FiberId} {opening : Option GroupId}
  {settling : Option FiberId} {idle forming : Option GroupId} {f p : FiberId} {g : GroupId}

/-- A fresh fiber, outside every group or in one that is being formed. -/
theorem born (seating : Seating groups parent place live awaits held opening none idle forming)
    {a : Option FiberId} {s : Option (GroupId × Nat)} (unplaced : place f = none)
    (fresh : live f = none)
    (inside : ∀ g i, s = some (g, i) → forming = some g ∧ ∃ G, groups g = some G ∧
      a = some G.parent ∧ (awaits G.parent = some g ∨ (held = some G.parent ∧ opening = some g))) :
    Seating groups (Function.update parent f a) (Function.update place f s)
      (Function.update live f (some true)) awaits held opening none idle forming := by
  have apart : ∀ {c g i}, place c = some (g, i) → c ≠ f := by
    rintro c g i placed rfl
    simp [unplaced] at placed
  have kept : ∀ {g}, Occupied place live g → Occupied (Function.update place f s)
      (Function.update live f (some true)) g := fun occupied =>
    occupied.mono fun placed => by simp [apart placed]
  constructor
  case race =>
    intro k r row formed
    refine (seating.race row formed).congr (fun {c i} => ?_) fun {c i} placed => ?_
    · by_cases same : c = f
      · subst same
        simp only [Function.update_self, unplaced]
        grind
      · simp [same]
    · simp [Counted, apart placed]
  case all =>
    intro k r row formed
    refine (seating.all row formed).congr (fun {c i} => ?_) fun {c i} placed => ?_
    · by_cases same : c = f
      · subst same
        simp only [Function.update_self, unplaced]
        grind
      · simp [same]
    · simp [Counted, apart placed]
  all_goals
    cases seating
    grind [Function.update_apply, Counted]

/-- A fresh group whose members are still to be made. -/
theorem push (seating : Seating groups parent place live awaits held none none none none)
    {G : Group σ} (fresh : groups g = none) (waits : held = some G.parent) :
    Seating (Function.update groups g (some G)) parent place live awaits held (some g) none
      (some g) (some g) := by
  have apart : ∀ {c k i}, place c = some (k, i) → k ≠ g := by
    rintro c k i placed rfl
    obtain ⟨G', row, -⟩ := seating.member placed
    simp [fresh] at row
  cases seating
  constructor <;> grind [Function.update_apply]

/-- Members are about to be made for a group. -/
theorem form (seating : Seating groups parent place live awaits held opening none idle none)
    (only : ∀ k, idle = some k → k = g) :
    Seating groups parent place live awaits held opening none (some g) (some g) := by
  cases seating
  constructor <;> grind

/-- The members of a group are in place. -/
theorem formed (seating : Seating groups parent place live awaits held opening none idle (some g))
    (race : ∀ r, groups g = some (.race r) → RaceSeated place live none g r)
    (all : ∀ a, groups g = some (.all a) → AllSeated place live none g a) :
    Seating groups parent place live awaits held opening none idle none := by
  cases seating
  constructor <;> grind

/-- A group takes note of its members, new ones and one that has ended. -/
theorem setGroup (seating : Seating groups parent place live awaits held opening settling idle
      forming) {G G' : Group σ} (row : groups g = some G) (same : G'.parent = G.parent)
    (settles : ∀ c, settling = some c → ∃ i, place c = some (g, i))
    (formed : ∀ k, forming = some k → k = g)
    (race : ∀ r, G' = .race r → RaceSeated place live none g r)
    (all : ∀ a, G' = .all a → AllSeated place live none g a) :
    Seating (Function.update groups g (some G')) parent place live awaits held opening none idle
      none := by
  have others : ∀ {k c i}, k ≠ g → place c = some (k, i) →
      (Counted live none c ↔ Counted live settling c) := by
    intro k c i other placed
    have unsettled : settling ≠ some c := by
      intro settled
      obtain ⟨j, placed'⟩ := settles c settled
      rw [placed] at placed'
      exact other (congrArg Prod.fst (Option.some.inj placed'))
    simp [Counted, unsettled]
  constructor
  case race =>
    intro k r rowk _
    by_cases this : k = g
    · subst this
      simp only [Function.update_self, Option.some.injEq] at rowk
      exact race r rowk
    · rw [Function.update_of_ne this] at rowk
      exact (seating.race rowk fun h => this (formed k h)).congr Iff.rfl (others this)
  case all =>
    intro k a rowk _
    by_cases this : k = g
    · subst this
      simp only [Function.update_self, Option.some.injEq] at rowk
      exact all a rowk
    · rw [Function.update_of_ne this] at rowk
      exact (seating.all rowk fun h => this (formed k h)).congr Iff.rfl (others this)
  all_goals
    cases seating
    grind [Function.update_apply, Counted]

/-- A group has a member that lives. -/
theorem occupy (seating : Seating groups parent place live awaits held opening settling idle
      forming) (only : ∀ k, idle = some k → Occupied place live k) :
    Seating groups parent place live awaits held opening settling none forming := by
  cases seating
  constructor <;> grind

/-- A fiber has ended; if it has a place in a group, its group has yet to hear of it. -/
theorem retire (seating : Seating groups parent place live awaits held opening none none none)
    (alive : live f = some true) :
    Seating groups parent place (Function.update live f (some false)) awaits held opening
      ((place f).map fun _ => f) ((place f).map (·.1)) none := by
  have counted : ∀ {c k i}, place c = some (k, i) →
      (Counted (Function.update live f (some false)) ((place f).map fun _ => f) c ↔
        Counted live none c) := by
    intro c k i placed
    by_cases same : c = f
    · subst same
      simp [Counted, placed, alive]
    · simp [Counted, same, Ne.symm same]
  have kept : ∀ {k}, (place f).map (·.1) ≠ some k → Occupied place live k →
      Occupied place (Function.update live f (some false)) k := by
    intro k other occupied
    refine occupied.mono fun {c i} placed => ⟨rfl, Function.update_of_ne ?_ _ _⟩
    rintro rfl
    simp [placed] at other
  constructor
  case race => exact fun row formed => (seating.race row formed).congr Iff.rfl counted
  case all => exact fun row formed => (seating.all row formed).congr Iff.rfl counted
  all_goals
    cases seating
    grind

/-- The end of a group is told to the fiber that waits for it. -/
theorem deliver (seating : Seating groups parent place live awaits held opening none idle none)
    (asleep : awaits p = some g) (only : ∀ k, idle = some k → k = g)
    (gone : ∀ {c i}, place c = some (g, i) → live c ≠ some true) (closed : opening ≠ some g) :
    Seating groups parent place live (Function.update awaits p none) held opening none none
      none := by
  cases seating
  constructor <;> grind [Function.update_apply, Counted]

/-- The fiber on the worker goes to sleep on a group. -/
theorem park (seating : Seating groups parent place live awaits (some p) (some g) none none none)
    (awake : awaits p = none) :
    Seating groups parent place live (Function.update awaits p (some g)) none none none none
      none := by
  cases seating
  constructor <;> grind [Function.update_apply]

/-- Without a group that was just formed it does not matter which fiber is on the worker. -/
theorem hold {held' : Option FiberId}
    (seating : Seating groups parent place live awaits held none settling idle forming) :
    Seating groups parent place live awaits held' none settling idle forming := by
  cases seating
  constructor <;> grind

end Seating

end EffectFibers
