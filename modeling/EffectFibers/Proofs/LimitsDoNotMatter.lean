import EffectFibers.Proofs.Results.Members
import EffectFibers.Proofs.Results.Plain

/-!
# Limits do not matter

Many plain effects are run at once, and all their results are collected.  Every effect has its own
result, which it has when it is run by itself.  However many of them may run at a time, and in
whatever order they end, the results come in the order of the effects; or, if the values are asked
for, the first failure by its place, if there is one.

## Main definitions

* `Exit.ofResults` – the values, or the first failure by its place.
* `Moment.Returns` – a fiber gets an exit, and no other one.

## Main statements

* `Moment.Begins.returns` – many effects whose results are known.
* `Moment.limits_do_not_matter` – every bound leads to the same results.
-/

namespace EffectFibers

variable {σ : Type}

/-! ## What is made of the results -/

/-- A result of a type that the combinators know. -/
def IsKnown (r : Except Failure Value) : Prop := r ≠ .ok .alien ∧ r ≠ .error .alien

/-- The first failure among results. -/
def firstFailure? (results : List (Except Failure Value)) : Option Failure :=
  results.findSome? fun
    | .error φ => some φ
    | .ok _ => none

/-- The values of results in their order, or the first failure by its place. -/
def Exit.ofResults (results : List (Except Failure Value)) : Exit :=
  match firstFailure? results with
  | some φ => .error (.fail φ)
  | none => .ok (.list (results.filterMap (·.toOption)))

namespace Effect

variable {results : List (Except Failure Value)}

/-- Results of known types are reported as they are. -/
theorem collectResults_eq (known : ∀ r ∈ results, IsKnown r) :
    collectResults (results.map .result) = .ok (results.map .result) := by
  induction results with
  | nil => rfl
  | cons r results ih =>
      obtain ⟨⟨value, failure⟩, rest⟩ := List.forall_mem_cons.1 known
      have first : collectResults ((r :: results).map .result) =
          (collectResults (results.map .result)).map (.result r :: ·) := by
        rcases r with φ | v
        · cases φ with
          | alien => exact absurd rfl failure
          | _ => rfl
        · cases v with
          | alien => exact absurd rfl value
          | _ => rfl
      rw [first, ih rest]
      rfl

/-- Of results of known types the values are taken, or the first failure. -/
theorem collectValues_eq (known : ∀ r ∈ results, IsKnown r) :
    collectValues (results.map .result) =
      match firstFailure? results with
      | some φ => .error (.fail φ)
      | none => .ok (results.filterMap (·.toOption)) := by
  induction results with
  | nil => rfl
  | cons r results ih =>
      obtain ⟨⟨value, -⟩, rest⟩ := List.forall_mem_cons.1 known
      rcases r with φ | v
      · rfl
      have first : collectValues (((.ok v : Except Failure Value) :: results).map .result) =
          (collectValues (results.map .result)).map (v :: ·) := by
        cases v with
        | alien => exact absurd rfl value
        | _ => rfl
      have failure : firstFailure? (.ok v :: results) = firstFailure? results := rfl
      rw [first, ih rest, failure]
      cases firstFailure? results <;> rfl

/-- What is collected is given as it is. -/
theorem collecting_eq {collect : List Value → Except (Cause Failure) (List Value)}
    {vs : List Value} : (collecting collect (.list vs) : Action σ (Node σ)) =
      Node.given ((collect vs).map .list) := by
  simp only [collecting]
  cases collect vs <;> rfl

/-- When what is collected is given, the program is over. -/
theorem endsIn_collecting {collect : List Value → Except (Cause Failure) (List Value)}
    {vs : List Value} {y : Exit} (collected : (collect vs).map .list = y) :
    (Left.going (.done (.ok (.list vs)))
      [(.flatMap (collecting collect) : Frame σ)]).EndsIn y 3 := by
  have built : (collecting collect (.list vs) : Action σ (Node σ)) = Node.given y := by
    rw [collecting_eq, collected]
  intro sight
  refine ⟨.going (.ofBuilt (Action.resultAt (collecting collect (.list vs)) sight)) [], rfl, ?_⟩
  rw [built]
  exact fun _ => ⟨.going (.done y) [], rfl, fun _ => ⟨.gone y, rfl, rfl⟩⟩

/-- Plain effects lead to the results that they have by themselves. -/
theorem exists_leadTo {es : List (Effect σ)} (plain : ∀ e ∈ es, e.Plain)
    (alone : List.Forall₂ (fun e r => e.EndsAlone (.ofResult r)) es results) :
    ∃ bound, LeadTo (es.map (·.node)) results bound := by
  induction alone with
  | nil => exact ⟨0, rfl, fun i node r known => by cases known⟩
  | @cons e r es results own _ ih =>
      obtain ⟨first, rest⟩ := List.forall_mem_cons.1 plain
      obtain ⟨bound, length, course⟩ := ih rest
      obtain ⟨n, ends⟩ := first.endsIn own
      refine ⟨max n bound, congrArg (· + 1) length, fun i node r' known result => ?_⟩
      cases i with
      | zero =>
          obtain rfl := Option.some.inj known
          obtain rfl := Option.some.inj result
          exact ⟨first.node.sequential, n, Nat.le_max_left .., ends⟩
      | succ i =>
          obtain ⟨sequential, k, few, ends⟩ := course i node r' known result
          exact ⟨sequential, k, Nat.le_trans few (Nat.le_max_right ..), ends⟩

end Effect

namespace Moment

variable {μ : Moment σ} {f : FiberId} {x y : Exit} {n bound : Nat} {holdings : Holdings}
  {nodes : List (Node σ)} {options : AllOptions} {results : List (Except Failure Value)}
  {k : Value → Action σ (Node σ)} {context : Context Value} {later : List (Event σ)}

/-! ## One fiber that runs many effects -/

/-- After a run, a fiber has an exit, or it lives and one of a few fibers is at work or sleeps on a
timer: the fiber itself or one that was born in the run.  None of these has taken many steps. -/
def Pursues (μ : Moment σ) (f : FiberId) (x : Exit) (bound : Nat) (later : List (Event σ)) : Prop :=
  ∃ family : List FiberId, family.length ≤ bound ∧
    (∀ c ∈ family, (c = f ∨ μ.machine.fiber? c = none) ∧ μ.steps c later ≤ bound) ∧
    ((μ.run later).machine.Concluded f x ∨
      ((μ.run later).machine.status f).isTerminal = false ∧ ∃ c ∈ family, (μ.run later).OnItsWay c)

/-- However a run goes on, if neither a fiber nor a child of it is interrupted, the exit of the fiber
is `x`; until it has this exit, one of a few fibers is at work or sleeps on a timer, and none of them
takes many steps. -/
def Returns (μ : Moment σ) (f : FiberId) (x : Exit) : Prop :=
  ∃ bound, ∀ later : List (Event σ), (∀ event ∈ later, event.Reusable) →
    (μ.run later).Undisturbed f → μ.Pursues f x bound later

/-- A fiber on its course returns its exit. -/
theorem Reachable.returns_of_heads (reachable : Reachable μ) (thrifty : μ.Thrifty holdings)
    (heads : μ.Heads f x n) : μ.Returns f x := by
  refine ⟨n + 1, fun later reusable undisturbed => ⟨[f], by simp, fun c listed => ?_, ?_⟩⟩
  · obtain ⟨k, -, cost⟩ := reachable.heads_run thrifty heads reusable undisturbed.calm
    obtain rfl := List.mem_singleton.1 listed
    exact ⟨.inl rfl, by omega⟩
  · obtain ⟨k, heads', -⟩ := reachable.heads_run thrifty heads reusable undisturbed.calm
    exact (heads'.onItsWay (reachable.run later)).imp_right fun onward =>
      ⟨onward.live, f, List.mem_singleton_self f, onward⟩

/-- A fiber with something to do is on its way. -/
theorem Faces.pursues {step : Step σ} {stack : List (Frame σ)} (reachable : Reachable μ)
    (faces : (μ.run later).Faces f (.going step stack)) (few : (strides f μ later).length < bound) :
    μ.Pursues f x bound later := by
  have onward := faces.onItsWay (reachable.run later).isCoherent
  refine ⟨[f], ?_, fun c listed => ?_, .inr ⟨onward.live, f, List.mem_singleton_self f, onward⟩⟩
  · rw [List.length_singleton]
    omega
  · obtain rfl := List.mem_singleton.1 listed
    rw [steps_eq]
    exact ⟨.inl rfl, Nat.le_of_lt few⟩

/-- Nobody takes a step before being born. -/
theorem Reachable.pursues_append (reachable : Reachable μ) {first : List (Event σ)} {j : Nat}
    (few : (strides f μ first).length ≤ j) (pursues : (μ.run first).Pursues f x bound later) :
    μ.Pursues f x (bound + j) (first ++ later) := by
  obtain ⟨family, small, each, onward⟩ := pursues
  rw [← run_append] at onward
  refine ⟨family, by omega, fun c listed => ?_, onward⟩
  obtain ⟨whose, cost⟩ := each c listed
  rw [steps_append]
  rcases whose with rfl | missing
  · rw [steps_eq c first]
    exact ⟨.inl rfl, by omega⟩
  · have before : μ.machine.fiber? c = none := by
      by_contra there
      have stays := reachable.isSome_run (Option.isSome_iff_ne_none.2 there) first
      rw [missing] at stays
      cases stays
    rw [reachable.steps_of_missing missing]
    exact ⟨.inr before, by omega⟩

/-- The step that starts many effects. -/
theorem Steps.startsAll {s : Stride σ} {stack : List (Frame σ)}
    (steps : μ.Steps f (.eval (.all nodes options)) stack s) :
    s.slice.fiber = f ∧ μ.StartsAll s.slice nodes options := by
  obtain ⟨stride, next, -, calm⟩ := steps
  obtain ⟨-, free, running, own, machine⟩ := strideAt_eq_some_iff.1 stride
  refine ⟨own, free, running, next, ?_⟩
  rw [own]
  rw [machine] at calm
  exact calm

/-- Who starts many effects waits for them. -/
theorem Steps.waits {s : Stride σ} {stack : List (Frame σ)} (reachable : Reachable μ)
    (steps : μ.Steps f (.eval (.all nodes options)) stack s) (nonempty : nodes ≠ []) :
    (μ.apply .work).Faces f (.waiting false stack) := by
  obtain ⟨stride, next, rfl, calm⟩ := steps
  have own := (strideAt_eq_some_iff.1 stride).2.2.2.1
  have result : s.result.control =
        .suspend (.group (s.machine.startAll s.slice.fiber s.slice.run.context nodes options).1) ∧
      s.result.run = s.slice.run := by
    rw [← own] at calm
    rw [Stride.result, Machine.stepRun_eval next, Machine.eval, calm, Bool.and_false,
      if_neg (by simp), Machine.evalNode, Machine.evalAll, if_neg (by simpa using nonempty)]
    exact ⟨rfl, rfl⟩
  have faces := reachable.faces_of_group stride result.1
  rwa [result.2] at faces

section

variable (mode : options.mode = .collectAll) (lead : LeadTo nodes results bound)
  (tail : (Left.going (.done (.ok (.list (results.map .result)))) [.flatMap k]).EndsIn y n)

include mode lead tail

/-- Many effects whose results are known, from their beginning on. -/
theorem Steps.pursues {s : Stride σ} (reachable : Reachable μ)
    (steps : μ.Steps f (.eval (.all nodes options)) [.flatMap k] s) (nonempty : nodes ≠ [])
    (thrifty : (μ.apply .work).Thrifty holdings) (reusable : ∀ event ∈ later, event.Reusable)
    (undisturbed : ((μ.apply .work).run later).Undisturbed f) :
    μ.Pursues f y (results.length + bound + n + 1) (.work :: later) := by
  have reachable' := reachable.apply .work
  have faces := steps.waits reachable nonempty
  obtain ⟨rfl, starts⟩ := steps.startsAll
  obtain ⟨members, foresees⟩ := starts.foresees reachable nonempty mode lead
  obtain ⟨family, small, each, onward⟩ :=
    foresees.gathers reachable' thrifty faces reusable undisturbed
  have members : ∀ c ∈ family, (c = s.slice.fiber ∨ μ.machine.fiber? c = none) ∧
      μ.steps c (.work :: later) ≤ results.length + bound + n + 1 := by
    intro c listed
    obtain ⟨cost, i, placed⟩ := each c listed
    have missing : μ.machine.fiber? c = none :=
      reachable.missing_of_placed (show (μ.run (.work :: later)).machine.Placed _ i c from placed)
    rw [Moment.steps, reachable.strideAt_of_missing missing]
    exact ⟨.inr missing, by simp; omega⟩
  have own : μ.steps s.slice.fiber (.work :: later) =
      1 + (μ.apply .work).steps s.slice.fiber later := by
    rw [Moment.steps, steps.stride]
    rfl
  suffices cost : (μ.apply .work).steps s.slice.fiber later ≤ n ∧
      (((μ.apply .work).run later).machine.Concluded s.slice.fiber y ∨
        (((μ.apply .work).run later).machine.status s.slice.fiber).isTerminal = false ∧
          ∃ c ∈ s.slice.fiber :: family, ((μ.apply .work).run later).OnItsWay c) by
    refine ⟨s.slice.fiber :: family, by rw [List.length_cons]; omega,
      List.forall_mem_cons.2 ⟨⟨.inl rfl, by omega⟩, members⟩, cost.2⟩
  rcases onward with ⟨still, faces', c, listed, onward⟩ | ⟨before, after, rfl, still, faces'⟩
  · have still' : strides s.slice.fiber (μ.apply .work) later = [] := still
    rw [steps_eq, still']
    exact ⟨Nat.zero_le _, .inr ⟨faces'.live (reachable'.run later).isCoherent, c,
      List.mem_cons_of_mem _ listed, onward⟩⟩
  · -- the results have come, and the fiber goes on with them
    obtain ⟨holdings', thrifty'⟩ := reachable'.thrifty_run thrifty fun event listed =>
      reusable event (List.mem_append_left _ listed)
    rw [run_append] at undisturbed ⊢
    obtain ⟨j, heads, cost⟩ := (reachable'.run before).heads_run thrifty' (faces'.heads tail)
      (fun event listed => reusable event (List.mem_append_right _ listed)) undisturbed.calm
    have still' : strides s.slice.fiber (μ.apply .work) before = [] := still
    have cost' : ((μ.apply .work).run before).steps s.slice.fiber after ≤ n :=
      Nat.le_trans (Nat.le_add_left _ _) cost
    rw [steps_append, steps_eq _ before, still', List.length_nil, Nat.zero_add]
    refine ⟨cost', ?_⟩
    exact (heads.onItsWay ((reachable'.run before).run after)).imp_right fun onward =>
      ⟨onward.live, _, List.mem_cons_self, onward⟩

/-- A fiber runs many effects whose results are known, and goes on with these. -/
theorem Begins.returns (begins : μ.Begins f (.flatMap (.all nodes options) k) context)
    (thrifty : μ.Thrifty holdings) : μ.Returns f y := by
  have reachable := begins.reachable
  by_cases nonempty : nodes = []
  · -- there is nothing to wait for
    subst nonempty
    obtain rfl : results = [] := List.length_eq_zero_iff.1 lead.length.symm
    have ends : (Left.going (.eval (.flatMap (.all [] options) k)) []).EndsIn y (n + 2) :=
      fun _ => ⟨_, rfl, fun _ => ⟨_, rfl, tail⟩⟩
    exact reachable.returns_of_heads thrifty (begins.heads ends)
  refine ⟨results.length + bound + n + 2, fun later reusable undisturbed => ?_⟩
  -- the fiber comes to the many effects
  rcases reachable.stays_or_steps begins.faces undisturbed.calm with
    ⟨none, faces⟩ | ⟨first, later, s, rfl, none, steps⟩
  · exact faces.pursues reachable (by rw [none, List.length_nil]; omega)
  have enter : first ++ .work :: later = (first ++ [.work]) ++ later := by simp
  rw [enter] at reusable undisturbed ⊢
  obtain ⟨holdings₁, thrifty₁⟩ := reachable.thrifty_run thrifty fun event listed =>
    reusable event (List.mem_append_left _ (List.mem_append_left _ listed))
  rw [run_append] at undisturbed
  have reachable₁ := reachable.run (first ++ [.work])
  have calm₁ := reachable₁.calm_before undisturbed.calm
  have faces₁ : (μ.run (first ++ [.work])).Faces f
      (.going (.eval (.all nodes options)) [.flatMap k]) := by
    rw [run_append] at calm₁ ⊢
    exact (reachable.run first).faces_of_steps thrifty₁ steps calm₁ rfl
  have one : (strides f μ (first ++ [.work])).length ≤ 1 := by
    simp [strides_append, none, strides, steps.stride]
  obtain ⟨holdings₂, thrifty₂⟩ := reachable.thrifty_run thrifty fun event listed =>
    reusable event (List.mem_append_left _ listed)
  have more : ∀ event ∈ later, event.Reusable := fun event listed =>
    reusable event (List.mem_append_right _ listed)
  have begun : (μ.run (first ++ [.work])).Pursues f y (results.length + bound + n + 1) later := by
    -- and it begins with them
    rcases reachable₁.stays_or_steps faces₁ undisturbed.calm with
      ⟨none, faces⟩ | ⟨second, later, s, rfl, none, steps⟩
    · exact faces.pursues reachable₁ (by rw [none, List.length_nil]; omega)
    have split : second ++ .work :: later = (second ++ [.work]) ++ later := by simp
    obtain ⟨holdings₃, thrifty₃⟩ := reachable₁.thrifty_run thrifty₂ fun event listed =>
      more event (split ▸ List.mem_append_left later listed)
    rw [run_append] at undisturbed thrifty₃
    have begins := steps.pursues mode lead tail (reachable₁.run second) nonempty thrifty₃
      (fun event listed => more event (split ▸ List.mem_append_right _ listed)) undisturbed
    have idle : (strides f (μ.run (first ++ [.work])) second).length ≤ 0 := by simp [none]
    have whole := reachable₁.pursues_append idle begins
    exact whole
  have whole := reachable.pursues_append one begun
  exact whole

end

/-! ## Every bound -/

/-- In every run, a fiber that begins to run plain effects at once, and that is not interrupted, comes
to the same end for every bound.  If each outcome is reported, it gets the list of the results that
the effects have by themselves, in their order; if the values are collected, it gets these in their
order, or the first failure by its place. -/
theorem limits_do_not_matter (world : World σ) (budget : Nat) {before : List (Event σ)}
    (reusable : ∀ event ∈ before, event.Reusable) {es : List (Effect σ)}
    (plain : ∀ e ∈ es, e.Plain)
    (alone : List.Forall₂ (fun e r => e.EndsAlone (.ofResult r)) es results)
    (known : ∀ r ∈ results, IsKnown r) (f : FiberId) (context : Context Value)
    (concurrency : Concurrency) :
    let μ := (initial world budget).run before
    (μ.Begins f (Effect.allSettled es concurrency).node context →
      μ.Returns f (.ok (.list (results.map .result)))) ∧
    (μ.Begins f (Effect.allWith es { concurrency, mode := .collectAll }).node context →
      μ.Returns f (.ofResults results)) := by
  intro μ
  obtain ⟨holdings, thrifty⟩ :=
    (Reachable.initial world budget).thrifty_run (thrifty_initial world budget) reusable
  obtain ⟨bound, lead⟩ := Effect.exists_leadTo plain alone
  refine ⟨fun begins => ?_, fun begins => ?_⟩
  · refine Begins.returns rfl lead (Effect.endsIn_collecting ?_) begins thrifty
    rw [Effect.collectResults_eq known]
    rfl
  · refine Begins.returns rfl lead (Effect.endsIn_collecting ?_) begins thrifty
    rw [Effect.collectValues_eq known, Exit.ofResults]
    cases firstFailure? results <;> rfl

/-- An effect that yields and then succeeds, and one that fails. -/
def twoPlain : List (Effect Unit) :=
  [Effect.yieldNow.zipRight (Effect.succeed (.bool true)), Effect.fail (.plain "late")]

/-- Their own results. -/
def twoResults : List (Except Failure Value) := [.ok (.bool true), .error (.plain "late")]

/-- One after the other or both at once, the results are the same. -/
theorem two_limits_do_not_matter :
    let start := fun node : Node Unit => (initial { host := () } 100).run [.start node]
    (∀ e ∈ twoPlain, e.Plain) ∧
    List.Forall₂ (fun e r => e.EndsAlone (.ofResult r)) twoPlain twoResults ∧
    (∀ r ∈ twoResults, IsKnown r) ∧
    (start (Effect.allSettled twoPlain (.bounded 1)).node).Returns ⟨1⟩
      (.ok (.list (twoResults.map .result))) ∧
    (start (Effect.allSettled twoPlain .unbounded).node).Returns ⟨1⟩
      (.ok (.list (twoResults.map .result))) ∧
    (start (Effect.allWith twoPlain { concurrency := .bounded 0, mode := .collectAll }).node).Returns
      ⟨1⟩ (.error (.fail (.plain "late"))) := by
  intro start
  have plain : ∀ e ∈ twoPlain, e.Plain := by
    refine List.forall_mem_cons.2 ⟨.zipRight .yieldNow (.succeed _), ?_⟩
    exact List.forall_mem_singleton.2 (.fail _)
  have alone : List.Forall₂ (fun e r => e.EndsAlone (.ofResult r)) twoPlain twoResults := by
    refine .cons ⟨{ host := () }, 100, List.replicate 14 .work, by simp, ⟨_, rfl, rfl, rfl⟩, rfl⟩
      (.cons ⟨{ host := () }, 100, List.replicate 5 .work, by simp, ⟨_, rfl, rfl, rfl⟩, rfl⟩ .nil)
  have known : ∀ r ∈ twoResults, IsKnown r := by
    simp [twoResults, IsKnown]
  have composed : ∀ e ∈ twoPlain, e.Composed := fun e listed => (plain e listed).composed
  have reusable : ∀ {e : Effect Unit}, e.Composed →
      ∀ event ∈ [Event.start e.node], event.Reusable := fun composed event listed => by
    obtain rfl := List.mem_singleton.1 listed
    exact composed.bears
  have begins : ∀ node : Node Unit, (start node).Begins ⟨1⟩ node {} := fun node =>
    ⟨⟨initial { host := () } 100, .start node, .initial _ _, rfl, rfl⟩, _, rfl, rfl⟩
  refine ⟨plain, alone, known, ?_, ?_, ?_⟩
  · exact (limits_do_not_matter { host := () } 100 (reusable (.allSettled composed _)) plain alone
      known ⟨1⟩ {} (.bounded 1)).1 (begins _)
  · exact (limits_do_not_matter { host := () } 100 (reusable (.allSettled composed _)) plain alone
      known ⟨1⟩ {} .unbounded).1 (begins _)
  · exact (limits_do_not_matter { host := () } 100 (reusable (.allWith composed _)) plain alone
      known ⟨1⟩ {} (.bounded 0)).2 (begins _)

end Moment

end EffectFibers
