import EffectFibers.Effect.Concurrent
import EffectFibers.Effect.Sequential
import EffectFibers.Proofs.Endings.Run
import EffectFibers.Proofs.Progress.Ends

/-!
# Exits are handed over once

A fiber ends once, with an exit that decides its status for good.  The exit goes to one place: the
reader is called with it once, or it is kept and taken at most once.  Whoever wants to be told of
the end is told once, and not before it.  This is so although the end of a fiber can bring about
that of its parent, which hears of it from the same list of observers as everyone else.

A group therefore hears of each of its children once.  What a race has still to hear of and what it
has heard of add up to its members, so its count never falls below zero.

## Main definitions

* `Fiber.Accounted` – what has been done about the end of a fiber.
* `Log.received` – the children whose exits a group has got.
* `Machine.EndsOnce` – every end is accounted for.

## Main statements

* `Moment.exits_are_handed_over_once` – every end is accounted for in every run.
-/

namespace EffectFibers

variable {σ : Type}

/-! ## What has been done about the end of a fiber -/

/-- The exits that are recorded for a fiber and the acts on it agree with its row. -/
inductive Fiber.Accounted (fiber : Fiber σ) (recorded : List Exit) (acts : List Act) : Prop
  /-- A fiber that lives has no exit, and nothing was done but to note down its observers. -/
  | live (lives : fiber.status.isTerminal = false) (unrecorded : recorded = [])
    (unkept : fiber.exit = none) (acts_eq : acts = fiber.observers.map .watches)
  /-- A fiber that has ended has done so once, and then its reader was called at once, if there is
  anything to call.  Everybody who has asked was told after that, in the order of the requests.  An
  exit that was kept is still there, or it was taken once. -/
  | gone (x : Exit) (asked : List Observer) (later : List Act)
    (status : fiber.status = Exit.status x) (recorded_eq : recorded = [x])
    (unwatched : fiber.observers = [])
    (acts_eq : acts = asked.map .watches ++ (.ends x :: fiber.reader.acts x) ++ later)
    (ended : later.filterMap Act.end? = []) (handed : later.filterMap Act.handed? = [])
    (told : later.filterMap Act.told? = asked ++ later.filterMap Act.watching?)
    (taken : later.filterMap Act.taken? ++ fiber.exit.toList = (fiber.reader.kept x).toList)

/-- The exits that the reader of a fiber was called with. -/
theorem ExitReader.filterMap_handed?_acts (reader : ExitReader) (x : Exit) :
    (reader.acts x).filterMap Act.handed? = if reader = .joiner then [] else [(reader, x)] := by
  unfold acts
  split <;> rfl

namespace Fiber.Accounted

variable {fiber : Fiber σ} {recorded : List Exit} {acts : List Act}

/-- The reader of a fiber is called once, when the fiber ends. -/
theorem handed_eq (accounted : fiber.Accounted recorded acts) :
    acts.filterMap Act.handed? =
      if fiber.reader = .joiner then [] else recorded.map (fiber.reader, ·) := by
  have unheard : ∀ observers : List Observer,
      (observers.map Act.watches).filterMap Act.handed? = [] := fun observers => by
    simp [List.filterMap_map, Function.comp_def, Act.handed?]
  cases accounted with
  | live lives unrecorded unkept acts_eq =>
      rw [acts_eq, unheard, unrecorded]
      simp
  | gone x asked later status recorded_eq unwatched acts_eq ended handed told taken =>
      rw [acts_eq, List.filterMap_append, List.filterMap_append, unheard, handed, recorded_eq]
      simpa [List.filterMap_cons, Act.handed?] using fiber.reader.filterMap_handed?_acts x

/-- A fiber has a recorded exit exactly if its status is terminal. -/
theorem recorded_length (accounted : fiber.Accounted recorded acts) :
    recorded.length = if fiber.status.isTerminal then 1 else 0 := by
  cases accounted with
  | live lives unrecorded unkept acts_eq => simp [unrecorded, lives]
  | gone x asked later status recorded_eq unwatched acts_eq ended handed told taken =>
      simp [recorded_eq, status, Exit.isTerminal_status]

end Fiber.Accounted

/-! ## What a group has heard -/

/-- The group that an exit is handed to. -/
def Act.group? (act : Act) : Option GroupId := act.handed?.bind fun h => h.1.place.map (·.1)

/-- The children whose exits a group has got, in the order in which they came. -/
def Log.received (log : Log) (g : GroupId) : List FiberId :=
  (log.filter (·.2.group? = some g)).map (·.1)

/-- How often a group was called with the exit of a fiber. -/
theorem Log.count_received (log : Log) (g : GroupId) (c : FiberId) :
    (log.received g).count c =
      ((log.on c).filterMap Act.handed?).countP fun h => h.1.place.map (·.1) = some g := by
  have calls : (log.received g).count c = (log.on c).countP (·.group? = some g) := by
    rw [received, on, List.count_eq_countP, List.countP_map, List.countP_map, List.countP_filter,
      List.countP_filter]
    refine List.countP_congr fun entry _ => ?_
    simp [and_comm]
  rw [calls, List.countP_filterMap]
  refine List.countP_congr fun act _ => ?_
  rw [Act.group?]
  cases act.handed? <;> simp

namespace Machine

/-- A fiber has a place in a group. -/
def Member (m : Machine σ) (g : GroupId) (c : FiberId) : Prop :=
  ∃ fiber i, m.fiber? c = some fiber ∧ fiber.reader = .group g i

theorem member_iff {m : Machine σ} {g : GroupId} {c : FiberId} :
    m.Member g c ↔ ∃ i, m.core.place c = some (g, i) := by
  have place : m.core.place c = (m.fiber? c).bind Fiber.place := rfl
  rw [place]
  cases row : m.fiber? c with
  | none => simp [Member, row]
  | some fiber =>
      cases reader : fiber.reader <;>
        simp [Member, row, Fiber.place, ExitReader.place, reader, eq_comm]

/-- Every end is accounted for. -/
structure EndsOnce (m : Machine σ) (log : Log) : Prop where
  fibers : ∀ f fiber, m.fiber? f = some fiber →
    fiber.Accounted (exitsOf (exits m.record) f) (log.on f)
  /-- A group gets the exit of each of its children once, when the child ends. -/
  received : ∀ g, (log.received g).Nodup ∧
    ∀ c, c ∈ log.received g ↔ m.Member g c ∧ (m.status c).isTerminal = true
  /-- A race counts the members whose exits it has not got.  A difference of numbers that would fall
  below zero is zero, and the sum would then exceed the number of members. -/
  races : ∀ g race, m.groups.get? g = some (.race race) →
    race.members.Nodup ∧ (∀ c, c ∈ race.members ↔ m.Member g c) ∧
      race.remaining + (log.received g).length = race.members.length
  /-- Among many effects at once, those run whose exits have not come. -/
  alls : ∀ g all, m.groups.get? g = some (.all all) →
    (all.running.map (·.2)).Nodup ∧
      ∀ c, c ∈ all.running.map (·.2) ↔ m.Member g c ∧ c ∉ log.received g
  /-- A fiber whose program has an exit waits for the children that it has. -/
  closing : ∀ f fiber c, m.fiber? f = some fiber → fiber.closing = some c →
    c.remaining = fiber.children.length ∧ 0 < c.remaining

end Machine

namespace Moment

variable {μ : Moment σ} {log : Log} {f c : FiberId} {fiber : Fiber σ} {g : GroupId}

/-- The acts on a fiber agree with its row. -/
theorem Reachable.accounted (reachable : Reachable μ) (ledger : μ.machine.Ledger log fun _ => [])
    (row : μ.machine.fiber? f = some fiber) :
    fiber.Accounted (exitsOf (exits μ.machine.record) f) (log.on f) := by
  cases terminal : fiber.status.isTerminal with
  | false =>
      have kin : μ.machine.core.kin f = some fiber.kin := Table.view_of_row _ row
      have family := family_of_isCoherent reachable.isCoherent
      have none : exitsOf (exits μ.machine.record) f = [] := family.exits_none fun k kin' => by
        obtain rfl := Option.some.inj (kin.symm.trans kin')
        simp [Fiber.kin, Fiber.verdict, terminal]
      obtain ⟨life, unkept, -⟩ := ledger.live row none
      exact .live terminal none unkept life.live_eq
  | true =>
      obtain ⟨x, fiber', row', status, one⟩ := reachable.exists_endedWith row terminal
      obtain rfl := Option.some.inj (row.symm.trans row')
      obtain ⟨life, unwatched⟩ := ledger.gone row one
      obtain ⟨asked, later, acts_eq, ended, handed, told, taken⟩ := life.gone_eq
      rw [List.append_nil] at told
      exact .gone x asked later status one unwatched acts_eq ended handed told taken

/-- A group was called once with the exit of each child that has ended, and with nothing else. -/
theorem Reachable.count_received (reachable : Reachable μ)
    (ledger : μ.machine.Ledger log fun _ => []) (row : μ.machine.fiber? c = some fiber)
    (g : GroupId) : (log.received g).count c =
      if fiber.place.map (·.1) = some g ∧ fiber.status.isTerminal then 1 else 0 := by
  have accounted := reachable.accounted ledger row
  rw [Log.count_received, accounted.handed_eq]
  by_cases joined : fiber.reader = .joiner
  · simp [joined, Fiber.place, ExitReader.place]
  · rw [if_neg joined, List.countP_map]
    have length := accounted.recorded_length
    by_cases placed : fiber.place.map (·.1) = some g
    · simp only [Fiber.place] at placed
      simp [Function.comp_def, Fiber.place, placed, length]
    · simp only [Fiber.place] at placed
      simp [Function.comp_def, Fiber.place, placed]

/-- The children whose exits a group has got are those that have ended. -/
theorem Reachable.received_iff (reachable : Reachable μ)
    (ledger : μ.machine.Ledger log fun _ => []) (g : GroupId) :
    (log.received g).Nodup ∧ ∀ c, c ∈ log.received g ↔
      μ.machine.Member g c ∧ (μ.machine.status c).isTerminal = true := by
  have unborn : ∀ c, μ.machine.fiber? c = none → (log.received g).count c = 0 := by
    intro c missing
    rw [Log.count_received, (ledger.unborn missing).1]
    rfl
  refine ⟨List.nodup_iff_count_le_one.2 fun c => ?_, fun c => ?_⟩
  · cases row : μ.machine.fiber? c with
    | none => simp [unborn c row]
    | some fiber =>
        rw [reachable.count_received ledger row]
        split <;> omega
  · rw [← List.count_pos_iff]
    cases row : μ.machine.fiber? c with
    | none => simp [unborn c row, Machine.Member, row]
    | some fiber =>
        have member : μ.machine.Member g c ↔ fiber.place.map (·.1) = some g := by
          rw [Machine.member_iff, show μ.machine.core.place c = fiber.place from
            Table.find_of_row _ row]
          simp
        rw [reachable.count_received ledger row, Coherent.status_of_row row, member]
        split <;> simp_all

/-- What a race has still to hear of and what it has heard of are its members. -/
theorem Reachable.race_count (reachable : Reachable μ) (ledger : μ.machine.Ledger log fun _ => [])
    {race : Race} (row : μ.machine.groups.get? g = some (.race race)) :
    race.members.Nodup ∧ (∀ c, c ∈ race.members ↔ μ.machine.Member g c) ∧
      race.remaining + (log.received g).length = race.members.length := by
  obtain ⟨nodup, placed, listed, count⟩ :=
    (seating_of_isCoherent reachable.isCoherent).race row nofun
  obtain ⟨once, received⟩ := reachable.received_iff ledger g
  have members : ∀ c, c ∈ race.members ↔ μ.machine.Member g c := fun c => by
    rw [Machine.member_iff]
    exact ⟨placed, fun ⟨i, place⟩ => listed place⟩
  refine ⟨nodup, members, ?_⟩
  -- the members that have ended are those whose exits have come; the others are counted
  have gone : (log.received g).Perm
      (race.members.filter fun c => !decide (Counted μ.machine.core.live none c)) := by
    refine (List.perm_ext_iff_of_nodup once (nodup.filter _)).2 fun c => ?_
    rw [received, List.mem_filter, members]
    refine and_congr_right fun member => ?_
    obtain ⟨fiber, i, row', -⟩ := member
    have live : μ.machine.core.live c = some fiber.live := Table.view_of_row _ row'
    simp [Coherent.status_of_row row', Counted, live, Fiber.live]
  have split := List.length_eq_countP_add_countP
    (fun c => decide (Counted μ.machine.core.live none c)) (l := race.members)
  simp only [decide_not, Bool.decide_eq_true] at split
  rw [gone.length_eq, ← List.countP_eq_length_filter, count, split]

/-- Of the children among many effects at once, those run whose exits have not come. -/
theorem Reachable.running_iff (reachable : Reachable μ) (ledger : μ.machine.Ledger log fun _ => [])
    {all : Gathering σ} (row : μ.machine.groups.get? g = some (.all all)) :
    (all.running.map (·.2)).Nodup ∧
      ∀ c, c ∈ all.running.map (·.2) ↔ μ.machine.Member g c ∧ c ∉ log.received g := by
  obtain ⟨-, nodup, runs, listed, -⟩ :=
    (seating_of_isCoherent reachable.isCoherent).all row nofun
  obtain ⟨-, received⟩ := reachable.received_iff ledger g
  have counted : ∀ {c}, μ.machine.Member g c →
      (Counted μ.machine.core.live none c ↔ c ∉ log.received g) := by
    intro c member
    obtain ⟨fiber, i, row', -⟩ := id member
    have live : μ.machine.core.live c = some fiber.live := Table.view_of_row _ row'
    rw [received, Coherent.status_of_row row']
    simp [Counted, live, Fiber.live, member]
  refine ⟨List.Nodup.map_on ?_ (List.Nodup.of_map _ nodup.of_append_left), fun c => ⟨?_, ?_⟩⟩
  · rintro ⟨i, c⟩ first ⟨j, d⟩ second same
    obtain rfl : c = d := same
    have place := (runs first).2.symm.trans (runs second).2
    obtain rfl : i = j := congrArg Prod.snd (Option.some.inj place)
    rfl
  · intro runs'
    obtain ⟨⟨i, c⟩, first, rfl⟩ := List.mem_map.1 runs'
    obtain ⟨lives, placed⟩ := runs first
    have member := Machine.member_iff.2 ⟨i, placed⟩
    exact ⟨member, (counted member).1 lives⟩
  · rintro ⟨member, waits⟩
    obtain ⟨i, placed⟩ := Machine.member_iff.1 member
    exact List.mem_map.2 ⟨(i, c), listed ((counted member).2 waits) placed, rfl⟩

/-- A fiber whose program has an exit waits for the children that it has. -/
theorem Reachable.closing_count (reachable : Reachable μ) {closing : Closing}
    (row : μ.machine.fiber? f = some fiber) (closes : fiber.closing = some closing) :
    closing.remaining = fiber.children.length ∧ 0 < closing.remaining :=
  (family_of_isCoherent reachable.isCoherent).closing_count (Table.view_of_row Fiber.kin row) closes
    nofun

theorem Reachable.endsOnce (reachable : Reachable μ) (ledger : μ.machine.Ledger log fun _ => []) :
    μ.machine.EndsOnce log where
  fibers _ _ row := reachable.accounted ledger row
  received := reachable.received_iff ledger
  races _ _ row := reachable.race_count ledger row
  alls _ _ row := reachable.running_iff ledger row
  closing _ _ _ row closes := reachable.closing_count row closes

/-- A status that is terminal stays what it is. -/
theorem Reachable.status_stays_run (reachable : Reachable μ)
    (row : μ.machine.fiber? f = some fiber) (terminal : fiber.status.isTerminal)
    (later : List (Event σ)) :
    ∃ after, (μ.run later).machine.fiber? f = some after ∧ after.status = fiber.status := by
  induction later generalizing μ fiber with
  | nil => exact ⟨fiber, row, rfl⟩
  | cons event later ih =>
      obtain ⟨next, row', same⟩ := reachable.status_stays row terminal event
      obtain ⟨after, row'', same'⟩ := ih (reachable.apply event) row' (same ▸ terminal)
      exact ⟨after, row'', same'.trans same⟩

/-! ## Every run -/

/-- In every run a fiber ends at most once, and its status is then that of its exit for good.  Its
reader is called with the exit once, or the exit is kept and taken at most once; whoever asks to be
told of the end is told once, and not before it.  So a group gets the exit of each of its children
once, and no count of exits that are still to come falls below zero.  Which exit it is has been
decided when the program of the fiber has one. -/
theorem exits_are_handed_over_once (world : World σ) (budget : Nat) (events : List (Event σ)) :
    let μ := (initial world budget).run events
    μ.machine.EndsOnce ((initial world budget).acts events) ∧
    (∀ f fiber, μ.machine.fiber? f = some fiber → fiber.status.isTerminal = true →
      ∀ later : List (Event σ), ∃ after,
        (μ.run later).machine.fiber? f = some after ∧ after.status = fiber.status) ∧
    ∀ slice x, μ.taken = some (slice, .finish x) →
      ∀ later : List (Event σ), ((μ.apply .work).run later).machine.Concluded slice.fiber x := by
  intro μ
  have reachable : Reachable μ := (Reachable.initial world budget).run events
  have ledger : μ.machine.Ledger ((initial world budget).acts events) fun _ => [] :=
    (Reachable.initial world budget).ledger_run (ledger_initial world budget) events
  exact ⟨reachable.endsOnce ledger,
    fun _ _ row terminal later => reachable.status_stays_run row terminal later,
    fun _ _ taken later => reachable.concluded taken later⟩

/-- A program that starts a child, awaits its exit, and then joins it all the same. -/
def asksTwice : Effect Unit :=
  (Effect.succeed (.bool true)).fork.zipRight
    ((Effect.awaitExit ⟨2⟩).zipRight (Effect.join ⟨2⟩))

/-- A run of this program to its end. -/
def askingTwice : List (Event Unit) := .start asksTwice.node :: List.replicate 32 .work

/-- Both requests are answered, the first one at the end of the child and the second one at once;
but only the first one gets the exit. -/
theorem second_request_gets_no_exit :
    let μ := (initial { host := () } 10).run askingTwice
    let log := (initial { host := () } 10).acts askingTwice
    log.on ⟨2⟩ = [.watches (.watcher ⟨1⟩ .await), .ends (.ok (.bool true)),
      .tells (.watcher ⟨1⟩ .await), .takes (.ok (.bool true)),
      .watches (.watcher ⟨2⟩ .join), .tells (.watcher ⟨2⟩ .join)] ∧
    μ.machine.status ⟨2⟩ = .succeeded ∧ μ.machine.status ⟨1⟩ = .died ∧
    μ.machine.EndsOnce log :=
  ⟨rfl, rfl, rfl, (exits_are_handed_over_once { host := () } 10 askingTwice).1⟩

end Moment

end EffectFibers
