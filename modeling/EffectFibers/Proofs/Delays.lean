import EffectFibers.Schedule
import Mathlib.Data.Nat.Fib.Basic
import Mathlib.Data.List.Sort

/-!
# The delays of schedules

The Fibonacci delays are computed with three bounds.  The numbers stop growing at 64 bits, the
factor at 32 bits, and the product at the longest duration.  The first bound never shows, because
the second one is lower.  The second one shows from the attempt on at which the Fibonacci number
exceeds it, as long as the product with the bound itself is a duration: there the delays stay the
same instead of growing on.  So the recurrence holds exactly up to this attempt, or for bases so
long that the third bound is met first.

Decisions are ordered by how soon they let the next attempt begin, and to stop is the latest of all.
In this order an intersection takes the later decision and a union the sooner one, and a bound on
the delay moves both sides alike.  So whatever is composed of schedules whose decisions come later
and later has such decisions as well.

## Main definitions

* `Duration.plus` – the sum of two durations, or the longest duration.
* `Decision.Sooner` – the order of decisions.
* `Schedule.Composed` – schedules that are composed of constant, counting and Fibonacci schedules.

## Main statements

* `Schedule.fibonacci_recurrence_iff` – when a Fibonacci delay is the sum of the two before it.
* `Schedule.Composed.delays_never_shrink` – the decisions of composed schedules.
-/

namespace EffectFibers

namespace Duration

/-- The sum of two durations, or the longest duration. -/
def plus (a b : Duration) : Duration := ofNanos (a.nanos + b.nanos)

@[simp] theorem times_one (d : Duration) : d.times 1 = d := by
  refine ext_nanos ?_
  rw [nanos_times, Nat.mul_one]
  exact Nat.min_eq_left d.le_max

/-- Multiples add up, whether they are cut off before or after. -/
theorem times_plus_times (d : Duration) (j k : Nat) :
    (d.times j).plus (d.times k) = d.times (j + k) := by
  refine ext_nanos ?_
  show min (min (d.nanos * j) maxNanos + min (d.nanos * k) maxNanos) maxNanos =
    min (d.nanos * (j + k)) maxNanos
  rw [Nat.mul_add]
  omega

theorem nanos_times_mono (d : Duration) {j k : Nat} (le : j ≤ k) :
    (d.times j).nanos ≤ (d.times k).nanos := by
  have product := Nat.mul_le_mul_left d.nanos le
  simp only [nanos_times]
  omega

/-- A smaller factor gives the same multiple only of nothing, or if both products are too long. -/
theorem times_eq_times_iff (d : Duration) {j k : Nat} (less : j < k) :
    d.times j = d.times k ↔ d = zero ∨ longest.nanos ≤ d.nanos * j := by
  have product : d.nanos = 0 ∨ d.nanos * j < d.nanos * k := by
    rcases Nat.eq_zero_or_pos d.nanos with none | some
    · exact .inl none
    · exact .inr (Nat.mul_lt_mul_of_pos_left less some)
  have nothing : d = zero ↔ d.nanos = 0 := ⟨fun same => same ▸ rfl, fun same => ext_nanos same⟩
  have nanos : d.times j = d.times k ↔ (d.times j).nanos = (d.times k).nanos :=
    ⟨congrArg Duration.nanos, ext_nanos⟩
  have larger : d.nanos * j ≤ d.nanos * k := Nat.mul_le_mul_left _ (by omega)
  rw [nothing, nanos, nanos_times, nanos_times, show longest.nanos = maxNanos from rfl]
  constructor
  · intro same
    omega
  · rintro (none | long)
    · rw [none, Nat.zero_mul, Nat.zero_mul]
    · omega

end Duration

namespace Schedule

/-! ## Fibonacci numbers -/

/-- The bound on the factor of a Fibonacci delay. -/
def factorCap : Nat := (1 <<< 32) - 1

/-- From two neighbouring Fibonacci numbers below the cap, the computation goes on to a Fibonacci
number, or to the cap. -/
theorem fibonacciPair_snd (steps k : Nat) (below : Nat.fib (k + 1) ≤ fibonacciCap) :
    (fibonacciPair steps (Nat.fib k, Nat.fib (k + 1))).2 =
      min (Nat.fib (k + 1 + steps)) fibonacciCap := by
  induction steps generalizing k with
  | zero => exact (Nat.min_eq_left below).symm
  | succ steps ih =>
      have next : Nat.fib k + Nat.fib (k + 1) = Nat.fib (k + 2) := Nat.fib_add_two.symm
      have index : k + 1 + (steps + 1) = k + 1 + 1 + steps := by omega
      rw [fibonacciPair, next, index]
      split
      · rename_i capped
        have larger : Nat.fib (k + 2) ≤ Nat.fib (k + 1 + 1 + steps) := Nat.fib_mono (by omega)
        show min (Nat.fib (k + 2)) fibonacciCap = _
        omega
      · rename_i small
        have exact_ : min (Nat.fib (k + 2)) fibonacciCap = Nat.fib (k + 2) := by omega
        have within : Nat.fib (k + 2) ≤ fibonacciCap := by omega
        rw [exact_]
        exact ih (k + 1) within

/-- The factor of a Fibonacci delay is a Fibonacci number, as far as 32 bits go. -/
theorem fibonacciFactor_eq (n : Nat) : fibonacciFactor n = min (Nat.fib (n + 1)) factorCap := by
  have caps : factorCap ≤ fibonacciCap := by decide
  have pair : (fibonacciPair (n - 1) (1, 1)).2 = min (Nat.fib (1 + 1 + (n - 1))) fibonacciCap :=
    fibonacciPair_snd (n - 1) 1 (by decide)
  have number : Nat.fib (1 + 1 + (n - 1)) = Nat.fib (n + 1) := by
    cases n with
    | zero => rfl
    | succ n => exact congrArg Nat.fib (by omega)
  rw [fibonacciFactor, pair, number, show (1 <<< 32) - 1 = factorCap from rfl]
  omega

theorem fibonacciFactor_mono {m n : Nat} (le : m ≤ n) : fibonacciFactor m ≤ fibonacciFactor n := by
  have numbers : Nat.fib (m + 1) ≤ Nat.fib (n + 1) := Nat.fib_mono (by omega)
  rw [fibonacciFactor_eq, fibonacciFactor_eq]
  omega

/-- The Fibonacci number of an attempt exceeds 32 bits from the attempt 47 on. -/
theorem fib_le_factorCap_iff (n : Nat) : Nat.fib (n + 1) ≤ factorCap ↔ n ≤ 46 := by
  constructor
  · intro small
    by_contra late
    have larger : Nat.fib 48 ≤ Nat.fib (n + 1) := Nat.fib_mono (by omega)
    have exceeds : factorCap < Nat.fib 48 := by decide +kernel
    omega
  · intro early
    calc Nat.fib (n + 1) ≤ Nat.fib 47 := Nat.fib_mono (by omega)
      _ ≤ factorCap := by decide +kernel

/-- The factor of an attempt is that of the two attempts before it together, up to the cap. -/
theorem fibonacciFactor_add_two (n : Nat) :
    fibonacciFactor (n + 2) = min (fibonacciFactor (n + 1) + fibonacciFactor n) factorCap := by
  have sum : Nat.fib (n + 3) = Nat.fib (n + 1) + Nat.fib (n + 2) := Nat.fib_add_two
  have late : fibonacciFactor (n + 2) = min (Nat.fib (n + 3)) factorCap := fibonacciFactor_eq _
  have middle : fibonacciFactor (n + 1) = min (Nat.fib (n + 2)) factorCap := fibonacciFactor_eq _
  have early : fibonacciFactor n = min (Nat.fib (n + 1)) factorCap := fibonacciFactor_eq _
  omega

/-- Where the sum of two factors is cut off. -/
theorem factorCap_lt_iff (n : Nat) :
    factorCap < fibonacciFactor (n + 1) + fibonacciFactor n ↔ ¬ n + 2 ≤ 46 := by
  have sum : Nat.fib (n + 3) = Nat.fib (n + 1) + Nat.fib (n + 2) := Nat.fib_add_two
  have number : Nat.fib (n + 3) ≤ factorCap ↔ n + 2 ≤ 46 := fib_le_factorCap_iff (n + 2)
  have middle : fibonacciFactor (n + 1) = min (Nat.fib (n + 2)) factorCap := fibonacciFactor_eq _
  have early : fibonacciFactor n = min (Nat.fib (n + 1)) factorCap := fibonacciFactor_eq _
  have some : 0 < Nat.fib (n + 1) ∧ 0 < Nat.fib (n + 2) :=
    ⟨Nat.fib_pos.2 (by omega), Nat.fib_pos.2 (by omega)⟩
  have cap : 0 < factorCap := by decide
  omega

/-! ## The recurrence -/

/-- The two ways to say where the cut-off of the factors does not show: the delay of an attempt is
as if the factor were not cut off. -/
theorem fibonacciDelay_eq_iff (base : Duration) {n k : Nat} (cut : fibonacciFactor (n + 2) =
    min k factorCap) (late : factorCap < k ↔ ¬ n + 2 ≤ 46) :
    fibonacciDelay base (n + 2) = base.times k ↔
      n + 2 ≤ 46 ∨ base = .zero ∨ Duration.longest.nanos ≤ base.nanos * factorCap := by
  rw [fibonacciDelay, cut]
  by_cases early : n + 2 ≤ 46
  · have small : min k factorCap = k := Nat.min_eq_left (by omega)
    simp [early, small]
  · have large : min k factorCap = factorCap := Nat.min_eq_right (by omega)
    rw [large, Duration.times_eq_times_iff base (by omega)]
    simp [early]

/-- The first two delays of a Fibonacci schedule are its base.  Each later one is the sum of the two
before it, and the multiple of the base by the Fibonacci number of the attempt, or the longest
duration, exactly if the number fits into 32 bits, or the base is nothing, or the largest multiple
that is computed is too long anyway. -/
theorem fibonacci_recurrence_iff {α : Type} (base : Duration) (input : α) :
    (∀ n, (fibonacci base).decide n input = .ok (.again (fibonacciDelay base n))) ∧
    fibonacciDelay base 0 = base ∧ fibonacciDelay base 1 = base ∧
    ∀ n,
      (fibonacciDelay base (n + 2) = (fibonacciDelay base (n + 1)).plus (fibonacciDelay base n) ↔
        n + 2 ≤ 46 ∨ base = .zero ∨ Duration.longest.nanos ≤ base.nanos * factorCap) ∧
      (fibonacciDelay base (n + 2) = base.times (Nat.fib (n + 3)) ↔
        n + 2 ≤ 46 ∨ base = .zero ∨ Duration.longest.nanos ≤ base.nanos * factorCap) := by
  have first : fibonacciFactor 0 = 1 := rfl
  have second : fibonacciFactor 1 = 1 := rfl
  refine ⟨fun n => rfl, ?_, ?_, fun n => ⟨?_, ?_⟩⟩
  · rw [fibonacciDelay, first, Duration.times_one]
  · rw [fibonacciDelay, second, Duration.times_one]
  · have sum : (fibonacciDelay base (n + 1)).plus (fibonacciDelay base n) =
        base.times (fibonacciFactor (n + 1) + fibonacciFactor n) :=
      base.times_plus_times _ _
    rw [sum]
    exact fibonacciDelay_eq_iff base (fibonacciFactor_add_two n) (factorCap_lt_iff n)
  · have number : Nat.fib (n + 3) ≤ factorCap ↔ n + 2 ≤ 46 := fib_le_factorCap_iff (n + 2)
    exact fibonacciDelay_eq_iff base (fibonacciFactor_eq (n + 2)) (by omega)

/-- With a base of one nanosecond the delay at attempt 47 is the cap, and not the sum of the two
before it. -/
theorem fibonacci_delay_is_capped :
    let base : Duration := .ofNanos 1
    let schedule : Schedule Unit := .fibonacci base
    schedule.decide 45 () = .ok (.again (.ofNanos 1836311903)) ∧
    schedule.decide 46 () = .ok (.again (.ofNanos 2971215073)) ∧
    schedule.decide 47 () = .ok (.again (.ofNanos 4294967295)) ∧
    fibonacciDelay base 47 ≠ (fibonacciDelay base 46).plus (fibonacciDelay base 45) ∧
    fibonacciDelay base 47 ≠ base.times (Nat.fib 48) := by
  refine ⟨rfl, rfl, rfl, ?_, ?_⟩
  · decide +kernel
  · decide +kernel

end Schedule

/-! ## The order of decisions -/

namespace Decision

/-- The first decision lets the next attempt begin no later than the second one.  To stop is the
latest decision. -/
def Sooner : Decision → Decision → Prop
  | .again d, .again e => d.nanos ≤ e.nanos
  | .again _, .stop => True
  | .stop, .again _ => False
  | .stop, .stop => True

variable {a b a' b' : Decision}

theorem Sooner.refl (a : Decision) : a.Sooner a := by
  cases a with
  | again d => exact Nat.le_refl _
  | stop => trivial

theorem eq_again_of_delay {d : Duration} (delayed : a.delay? = some d) : a = .again d := by
  cases a with
  | again e => exact congrArg Decision.again (Option.some.inj delayed)
  | stop => exact nomatch delayed

/-- After a stop there are only stops. -/
theorem Sooner.eq_stop (sooner : a.Sooner b) (stopped : a = .stop) : b = .stop := by
  subst stopped
  cases b with
  | again e => exact sooner.elim
  | stop => rfl

/-- An intersection takes the later decision. -/
theorem Sooner.both (first : a.Sooner a') (second : b.Sooner b') :
    (a.both b).Sooner (a'.both b') := by
  cases a' with
  | stop => cases a <;> cases b <;> trivial
  | again d' =>
      cases b' with
      | stop => cases a <;> cases b <;> trivial
      | again e' =>
          cases a with
          | stop => exact first.elim
          | again d =>
              cases b with
              | stop => exact second.elim
              | again e =>
                  show (d.longer e).nanos ≤ (d'.longer e').nanos
                  rw [Duration.nanos_longer, Duration.nanos_longer]
                  have left : d.nanos ≤ d'.nanos := first
                  have right : e.nanos ≤ e'.nanos := second
                  omega

/-- A union takes the sooner decision.  When the side with the shorter delay stops, the longer
delay of the other side comes up. -/
theorem Sooner.either (first : a.Sooner a') (second : b.Sooner b') :
    (a.either b).Sooner (a'.either b') := by
  cases a with
  | stop =>
      rw [first.eq_stop rfl]
      exact second
  | again d =>
      cases b with
      | stop =>
          rw [second.eq_stop rfl]
          cases a' with
          | stop => trivial
          | again d' => exact first
      | again e =>
          have shorter : (d.shorter e).nanos = min d.nanos e.nanos := Duration.nanos_shorter d e
          cases a' with
          | again d' =>
              have left : d.nanos ≤ d'.nanos := first
              cases b' with
              | again e' =>
                  have right : e.nanos ≤ e'.nanos := second
                  show (d.shorter e).nanos ≤ (d'.shorter e').nanos
                  rw [shorter, Duration.nanos_shorter]
                  omega
              | stop =>
                  show (d.shorter e).nanos ≤ d'.nanos
                  omega
          | stop =>
              cases b' with
              | again e' =>
                  have right : e.nanos ≤ e'.nanos := second
                  show (d.shorter e).nanos ≤ e'.nanos
                  omega
              | stop => trivial

theorem Sooner.upTo (sooner : a.Sooner b) (limit : Duration) :
    (a.upTo limit).Sooner (b.upTo limit) := by
  cases b with
  | stop => cases a <;> trivial
  | again e =>
      cases a with
      | stop => exact sooner.elim
      | again d =>
          have le : d.nanos ≤ e.nanos := sooner
          show (d.shorter limit).nanos ≤ (e.shorter limit).nanos
          rw [Duration.nanos_shorter, Duration.nanos_shorter]
          omega

end Decision

/-! ## Composed schedules -/

namespace Schedule

variable {α : Type}

/-- The schedules that are composed, by intersections, unions and bounds on the delay, of schedules
that count, wait for a constant or a Fibonacci delay, or look at their input.  Going on for ever and
going on after equal spaces are constant delays. -/
inductive Composed : Schedule α → Prop
  | recurs (attempts : Nat) : Composed (.recurs attempts)
  | fixed (delay : Duration) : Composed (.fixed delay)
  | fibonacci (base : Duration) : Composed (.fibonacci base)
  | whileInput (holds : α → Bool) : Composed (.whileInput fun a => .ok (holds a))
  | intersect {first second : Schedule α} (left : first.Composed) (right : second.Composed) :
      Composed (.intersect first second)
  | union {first second : Schedule α} (left : first.Composed) (right : second.Composed) :
      Composed (.union first second)
  | upToDelay {schedule : Schedule α} (inner : schedule.Composed) (limit : Duration) :
      Composed (.upToDelay schedule limit)

theorem spaced_composed (delay : Duration) : (spaced delay : Schedule α).Composed := .fixed delay

theorem forever_composed : (forever : Schedule α).Composed := .fixed .zero

/-- For an input a schedule decides by a function of the attempt, and never breaks off. -/
def DecidesBy (s : Schedule α) (input : α) (answer : Nat → Decision) : Prop :=
  ∀ n, s.decide n input = .ok (answer n)

/-- A function of the attempt that decides later and later. -/
def Slows (answer : Nat → Decision) : Prop := ∀ m n, m ≤ n → (answer m).Sooner (answer n)

theorem slows_const (decision : Decision) : Slows fun _ => decision :=
  fun _ _ _ => .refl decision

theorem slows_recurs (attempts : Nat) :
    Slows fun n => if n < attempts then .again .zero else .stop := by
  intro m n le
  by_cases late : n < attempts
  · have early : m < attempts := by omega
    simp only [late, early, if_true]
    exact .refl _
  · simp only [late, if_false]
    split <;> trivial

theorem slows_fibonacci (base : Duration) : Slows fun n => .again (fibonacciDelay base n) :=
  fun _ _ le => base.nanos_times_mono (fibonacciFactor_mono le)

/-- A composed schedule decides later and later.  The induction is on the composition. -/
theorem Composed.slows {s : Schedule α} (composed : s.Composed) (input : α) :
    ∃ answer, s.DecidesBy input answer ∧ Slows answer := by
  induction composed with
  | recurs attempts => exact ⟨_, fun n => rfl, slows_recurs attempts⟩
  | fixed delay => exact ⟨_, fun n => rfl, slows_const (.again delay)⟩
  | fibonacci base => exact ⟨_, fun n => rfl, slows_fibonacci base⟩
  | whileInput holds =>
      exact ⟨_, fun n => rfl, slows_const (if holds input then .again .zero else .stop)⟩
  | intersect left right first second =>
      obtain ⟨answer, decides, slows⟩ := first
      obtain ⟨answer', decides', slows'⟩ := second
      refine ⟨fun n => (answer n).both (answer' n), fun n => ?_, fun m n le => ?_⟩
      · simp only [decide, decides n, decides' n]
        rfl
      · exact (slows m n le).both (slows' m n le)
  | union left right first second =>
      obtain ⟨answer, decides, slows⟩ := first
      obtain ⟨answer', decides', slows'⟩ := second
      refine ⟨fun n => (answer n).either (answer' n), fun n => ?_, fun m n le => ?_⟩
      · simp only [decide, decides n, decides' n]
        rfl
      · exact (slows m n le).either (slows' m n le)
  | upToDelay inner limit ih =>
      obtain ⟨answer, decides, slows⟩ := ih
      refine ⟨fun n => (answer n).upTo limit, fun n => ?_, fun m n le => ?_⟩
      · simp only [decide, decides n]
        rfl
      · exact (slows m n le).upTo limit

/-! ## The list of delays -/

/-- The delays of the attempts in a range at which a schedule goes on. -/
def delaysIn (answer : Nat → Decision) (attempt count : Nat) : List Duration :=
  (List.range' attempt count).filterMap fun n => (answer n).delay?

theorem delaysIn_succ (answer : Nat → Decision) (attempt count : Nat) :
    delaysIn answer attempt (count + 1) =
      (answer attempt).delay?.toList ++ delaysIn answer (attempt + 1) count := by
  rw [delaysIn, List.range'_succ, List.filterMap_cons, delaysIn]
  cases (answer attempt).delay? <;> rfl

theorem delaysIn_of_stop {answer : Nat → Decision} (slows : Slows answer) {attempt : Nat}
    (stopped : answer attempt = .stop) (count : Nat) : delaysIn answer attempt count = [] := by
  refine List.filterMap_eq_nil_iff.2 fun n mem => ?_
  obtain ⟨i, -, rfl⟩ := List.mem_range'.1 mem
  rw [(slows attempt (attempt + 1 * i) (by omega)).eq_stop stopped]
  rfl

/-- Because nothing follows a stop, the list that ends at the first stop misses no delay. -/
theorem delaysFrom_eq_delaysIn {s : Schedule α} {input : α} {answer : Nat → Decision}
    (decides : s.DecidesBy input answer) (slows : Slows answer) (attempt count : Nat) :
    s.delaysFrom input attempt count = .ok (delaysIn answer attempt count) := by
  induction count generalizing attempt with
  | zero => rfl
  | succ count ih =>
      rw [delaysFrom, decides attempt]
      cases decision : answer attempt with
      | stop => exact congrArg Except.ok (delaysIn_of_stop slows decision _).symm
      | again delay =>
          rw [delaysIn_succ, decision]
          show (do return delay :: (← s.delaysFrom input (attempt + 1) count)) = _
          rw [ih]
          rfl

theorem delaysIn_sorted {answer : Nat → Decision} (slows : Slows answer) (attempt count : Nat) :
    (delaysIn answer attempt count).Pairwise fun d e => d.nanos ≤ e.nanos := by
  refine List.pairwise_filterMap.2 ((List.pairwise_le_range' 1).imp ?_)
  intro m n le d first e second
  have sooner := slows m n le
  rw [Decision.eq_again_of_delay first, Decision.eq_again_of_delay second] at sooner
  exact sooner

/-- A composed schedule never breaks off.  Once it stops it stays stopped, and its delays never
shrink.  So the list of its delays has those of all attempts below the limit at which it goes on, in
their order, and they never get shorter. -/
theorem Composed.delays_never_shrink {s : Schedule α} (composed : s.Composed) (input : α) :
    ∃ answer : Nat → Decision, (∀ n, s.decide n input = .ok (answer n)) ∧
      (∀ m n, m ≤ n → answer m = .stop → answer n = .stop) ∧
      (∀ m n d e, m ≤ n → answer m = .again d → answer n = .again e → d.nanos ≤ e.nanos) ∧
      ∀ limit, ∃ ds, s.delays input limit = .ok ds ∧
        ds = (List.range limit).filterMap (fun n => (answer n).delay?) ∧
        ds.Pairwise fun d e => d.nanos ≤ e.nanos := by
  obtain ⟨answer, decides, slows⟩ := composed.slows input
  refine ⟨answer, decides, fun m n le => (slows m n le).eq_stop, ?_, fun limit => ?_⟩
  · intro m n d e le first second
    have sooner := slows m n le
    rw [first, second] at sooner
    exact sooner
  · refine ⟨delaysIn answer 0 limit, delaysFrom_eq_delaysIn decides slows 0 limit, ?_,
      delaysIn_sorted slows 0 limit⟩
    rw [delaysIn, List.range_eq_range']

/-- A counted delay of 50 ms and two Fibonacci delays, whichever comes sooner, and 30 ms at most. -/
theorem delays_of_union_never_shrink :
    let schedule : Schedule Unit :=
      .upToDelay (.union (.intersect (.recurs 1) (.fixed (.ofMillis 50)))
        (.intersect (.recurs 2) (.fibonacci (.ofMillis 20)))) (.ofMillis 30)
    schedule.Composed ∧
    ∃ answer : Nat → Decision, (∀ n, schedule.decide n () = .ok (answer n)) ∧
      (∀ n, 2 ≤ n → answer n = .stop) ∧
      schedule.delays () 5 = .ok [.ofMillis 20, .ofMillis 20] := by
  intro schedule
  have composed : schedule.Composed :=
    .upToDelay (.union (.intersect (.recurs 1) (.fixed _))
      (.intersect (.recurs 2) (.fibonacci _))) _
  obtain ⟨answer, decides, stops, -, -⟩ := composed.delays_never_shrink ()
  refine ⟨composed, answer, decides, fun n late => ?_, by rfl⟩
  refine stops 2 n late ?_
  have second : schedule.decide 2 () = .ok .stop := rfl
  rw [decides 2] at second
  exact Except.ok.inj second

end Schedule

end EffectFibers
