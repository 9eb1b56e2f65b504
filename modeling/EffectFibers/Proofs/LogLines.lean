import EffectFibers.Effect.Concurrent
import EffectFibers.Proofs.Scopes
import Mathlib.Data.List.Induction

/-!
# Lines of the log

A line of the log shows the spans that are open around it, the outermost one first.  What is open is
a matter of the steps that were taken: a step opens a span, and the span stays open until an exit
reaches the frame that closes it, whatever exit this is.

The spans belong to the fiber that has opened them.  A child of a fiber starts without any, so a line
that a child writes shows none of the spans that its parent has opened around it.

## Main definitions

* `Stride.span?` – the span that a step opens.
* `Stride.Closes` – an exit reaches the frame that closes it.
* `openSpans` – the spans that some steps have opened and not closed.

## Main statements

* `Moment.lists_of_run` – the spans that a fiber keeps are those that its own steps have left open.
* `Moment.lines_list_own_spans` – what every line of the log shows.
* `Moment.child_lists_no_spans` – a line that is written in a span and does not show it.
-/

namespace EffectFibers

variable {σ : Type}

/-! ## Openings -/

namespace Stride

/-- The span that a step opens. -/
def span? (s : Stride σ) : Option LogSpan :=
  match s.slice.run.next with
  | .eval (.span label _) => some { label, started := s.machine.now }
  | _ => none

/-- An exit reaches the frame that closes what an earlier step has opened. -/
def Closes (later s : Stride σ) : Prop := ∃ x, later.Hands (.spanEnd :: s.slice.run.stack) x

theorem span?_of_evaluates {s : Stride σ} {label : String} {source : Node σ}
    {stack : List (Frame σ)} (evaluates : s.Evaluates (.span label source) stack) :
    s.span? = some { label, started := s.machine.now } := by
  rw [span?, evaluates.1]

/-- A step that opens a span evaluates it. -/
theorem exists_of_span? {s : Stride σ} (opens : s.span?.isSome) :
    ∃ label source, s.slice.run.next = .eval (.span label source) ∧
      s.span? = some { label, started := s.machine.now } := by
  unfold span? at opens ⊢
  split at opens
  · rename_i label source next
    exact ⟨label, source, next, rfl⟩
  · cases opens

end Stride

open Classical in
/-- The steps that have opened a span which none of the later ones has closed. -/
noncomputable def openings : List (Stride σ) → List (Stride σ)
  | [] => []
  | s :: later =>
    if s.span?.isSome ∧ ∀ t ∈ later, ¬ t.Closes s then s :: openings later else openings later

/-- The spans that some steps have opened and not closed, the first one first. -/
noncomputable def openSpans (taken : List (Stride σ)) : List LogSpan :=
  (openings taken).filterMap (·.span?)

section

variable {s t : Stride σ} {taken later : List (Stride σ)}

theorem mem_of_mem_openings (opened : s ∈ openings taken) : s ∈ taken ∧ s.span?.isSome := by
  induction taken with
  | nil => cases opened
  | cons first taken ih =>
      rw [openings] at opened
      split at opened
      · rename_i kept
        rcases List.mem_cons.1 opened with rfl | opened
        · exact ⟨List.mem_cons_self, kept.1⟩
        · exact (ih opened).imp_left (List.mem_cons_of_mem _)
      · exact (ih opened).imp_left (List.mem_cons_of_mem _)

/-- Every opening is one span. -/
theorem length_openSpans : (openSpans taken).length = (openings taken).length := by
  rw [openSpans, List.length_filterMap_eq_countP, List.countP_eq_length]
  exact fun s opened => (mem_of_mem_openings opened).2

open Classical in
/-- Later steps close some of the spans, and open others. -/
theorem openings_append : openings (taken ++ later) =
    (openings taken).filter (fun s => ∀ t ∈ later, ¬ t.Closes s) ++ openings later := by
  induction taken with
  | nil => rfl
  | cons s taken ih =>
      simp only [List.cons_append, openings, ih, List.mem_append]
      by_cases opens : s.span?.isSome ∧ ∀ t ∈ taken, ¬ t.Closes s
      · by_cases stays : ∀ t ∈ later, ¬ t.Closes s
        · rw [if_pos opens, if_pos ⟨opens.1, fun t taken => taken.elim (opens.2 t) (stays t)⟩,
            List.filter_cons_of_pos (by simpa using stays), List.cons_append]
        · rw [if_pos opens, if_neg fun both => stays fun t taken => both.2 t (.inr taken),
            List.filter_cons_of_neg (by simpa using stays)]
      · rw [if_neg opens, if_neg fun both => opens ⟨both.1, fun t taken => both.2 t (.inl taken)⟩]

/-- Steps that close nothing only open. -/
theorem openings_append_of_not_closes (stays : ∀ s ∈ openings taken, ∀ t ∈ later, ¬ t.Closes s) :
    openings (taken ++ later) = openings taken ++ openings later := by
  rw [openings_append, List.filter_eq_self.2 fun s opened => by simpa using stays s opened]

end

/-! ## What closes a span is on the stack -/

/-- What lies below the frames that close spans, the last one first. -/
def spanEnds : List (Frame σ) → List (List (Frame σ))
  | [] => []
  | .spanEnd :: stack => stack :: spanEnds stack
  | _ :: stack => spanEnds stack

/-- The spans that a program keeps are those that some steps have left open, and the frames that
close them are on its stack. -/
structure RunState.Lists (taken : List (Stride σ)) (run : RunState σ) : Prop where
  ends : (openings taken).reverse.map (·.slice.run.stack) = spanEnds run.stack
  spans : (openSpans taken).reverse = run.spans

theorem spanEnds_cons {frame : Frame σ} (plain : frame ≠ .spanEnd) (stack : List (Frame σ)) :
    spanEnds (frame :: stack) = spanEnds stack := by
  cases frame <;> first | rfl | exact absurd rfl plain

theorem suffix_of_mem_spanEnds {below stack : List (Frame σ)} (listed : below ∈ spanEnds stack) :
    .spanEnd :: below <:+ stack := by
  induction stack with
  | nil => cases listed
  | cons frame stack ih =>
      by_cases closes : frame = .spanEnd
      · subst closes
        rcases List.mem_cons.1 listed with rfl | listed
        · exact List.suffix_refl _
        · exact (ih listed).trans (List.suffix_cons _ _)
      · rw [spanEnds_cons closes] at listed
        exact (ih listed).trans (List.suffix_cons _ _)

theorem spanEnds_append (new stack : List (Frame σ)) :
    ∃ ends, spanEnds (new ++ stack) = ends ++ spanEnds stack := by
  induction new with
  | nil => exact ⟨[], rfl⟩
  | cons frame new ih =>
      obtain ⟨ends, split⟩ := ih
      by_cases closes : frame = .spanEnd
      · subst closes
        exact ⟨_ :: ends, congrArg (_ :: ·) split⟩
      · exact ⟨ends, (spanEnds_cons closes _).trans split⟩

/-! ## One step -/

namespace Machine

variable {m : Machine σ} {f : FiberId} {scope : ScopeId} {run : RunState σ}

theorem spans_advanceLayers (run : RunState σ) (m : Machine σ) (build : LayerBuild σ)
    (todo : List (LayerNode σ)) : (m.advanceLayers f scope run build todo).run.spans = run.spans := by
  induction todo generalizing m build with
  | nil => rfl
  | cons layer rest ih =>
      unfold advanceLayers
      split
      · exact ih _ _
      · rfl
      · rfl

/-- Only the opening of a span opens one. -/
theorem spans_eval {node : Node σ} (plain : ∀ label source, node ≠ .span label source) :
    (m.eval f scope run node).run.spans = run.spans := by
  unfold eval
  split
  · rfl
  cases node with
  | span label source => exact absurd rfl (plain label source)
  | async register =>
      simp only [evalNode, evalAsync]
      split <;> rfl
  | sync thunk =>
      simp only [evalNode]
      split <;> rfl
  | provide body plan exports =>
      cases plan with
      | error e => rfl
      | ok layers => exact spans_advanceLayers (run.push (.restore run.context)) m _ layers
  | race children =>
      simp only [evalNode, evalRace]
      split <;> rfl
  | all children options =>
      simp only [evalNode, evalAll]
      split <;> rfl
  | sleep d =>
      simp only [evalNode, evalSleep]
      split <;> rfl
  | _ => rfl

theorem spans_resumeLayers (build : LayerBuild σ) (x : Exit) :
    (m.resumeLayers f scope run build x).run.spans = run.spans := by
  unfold resumeLayers
  split
  · split
    · rfl
    · unfold endBuild
      split
      · exact spans_advanceLayers { run with context := build.outer } _ _ _
      · rfl
      · rfl
      · rfl
  · split
    · exact spans_advanceLayers run m build build.todo
    · rfl

/-- Only the frame at the end of a span closes one. -/
theorem spans_resumeFrame {frame : Frame σ} (plain : frame ≠ .spanEnd) (x : Exit) :
    (m.resumeFrame f scope run frame x).run.spans = run.spans := by
  cases frame with
  | spanEnd => exact absurd rfl plain
  | layers build => exact spans_resumeLayers build x
  | flatMap next => cases x <;> rfl
  | recover handler => rcases x with (_ | _ | _) | v <;> rfl
  | repeated source schedule attempt => cases x <;> rfl
  | retry source schedule attempt =>
      rcases x with (failure | _ | _) | v
      · simp only [resumeFrame, resumeRetry, evalAfter]
        split
        · dsimp only
          split <;> rfl
        · rfl
        · rfl
      · rfl
      · rfl
      · rfl
  | _ => rfl

end Machine

namespace RunState.Lists

variable {taken : List (Stride σ)} {run run' : RunState σ} {t : Stride σ}

theorem next (lists : run.Lists taken) (step : Step σ) :
    ({ run with next := step } : RunState σ).Lists taken := ⟨lists.ends, lists.spans⟩

/-- As many frames close spans as spans are open. -/
theorem length_eq (lists : run.Lists taken) : (spanEnds run.stack).length = run.spans.length := by
  rw [← lists.ends, ← lists.spans, List.length_map, List.length_reverse, List.length_reverse,
    length_openSpans]

/-- A span that is open is closed on the stack. -/
theorem suffix_of_mem (lists : run.Lists taken) {s : Stride σ} (opened : s ∈ openings taken) :
    .spanEnd :: s.slice.run.stack <:+ run.stack := by
  refine suffix_of_mem_spanEnds ?_
  rw [← lists.ends]
  exact List.mem_map_of_mem (List.mem_reverse.2 opened)

/-- A step that has nothing to do with spans. -/
theorem of_plain (lists : run.Lists taken) (opens : t.span? = none)
    (stays : ∀ s ∈ openings taken, ¬ t.Closes s) {new below : List (Frame σ)}
    (grown : run'.stack = new ++ below) (plain : spanEnds below = spanEnds run.stack)
    (kept : run'.spans = run.spans)
    (counted : (spanEnds run'.stack).length = run'.spans.length) : run'.Lists (taken ++ [t]) := by
  have unopened : openings [t] = [] := by simp [openings, opens]
  have same : openings (taken ++ [t]) = openings taken := by
    rw [openings_append_of_not_closes (by simpa using stays), unopened, List.append_nil]
  obtain ⟨ends, split⟩ := spanEnds_append new below
  have balance := lists.length_eq
  rw [grown, split, kept, List.length_append, plain] at counted
  obtain rfl : ends = [] := List.length_eq_zero_iff.1 (by omega)
  constructor
  · rw [same, lists.ends, grown, split, plain, List.nil_append]
  · rw [openSpans, same, kept, ← lists.spans, openSpans]

/-- A step that opens a span. -/
theorem of_opens (lists : run.Lists taken) (evaluates : ∀ x, t.slice.run.next ≠ .done x)
    {span : LogSpan} (opens : t.span? = some span) (same : t.slice.run.stack = run.stack)
    (grown : run'.stack = .spanEnd :: run.stack) (kept : run'.spans = span :: run.spans) :
    run'.Lists (taken ++ [t]) := by
  have opened : openings (taken ++ [t]) = openings taken ++ [t] := by
    rw [openings_append_of_not_closes]
    · simp [openings, opens]
    · intro s _ u listed ⟨x, hands, _⟩
      obtain rfl := List.mem_singleton.1 listed
      exact evaluates x hands
  constructor
  · rw [opened, List.reverse_append, List.map_append, lists.ends, grown]
    exact congrArg (· :: spanEnds run.stack) same
  · rw [openSpans, opened, List.filterMap_append, List.reverse_append, kept, ← lists.spans]
    simp [opens, openSpans]

/-- A step that closes the last span. -/
theorem of_closes (lists : run.Lists taken) {x : Exit} {stack : List (Frame σ)}
    (hands : t.Hands (.spanEnd :: stack) x) (top : run.stack = .spanEnd :: stack)
    (popped : run'.stack = stack) (kept : run'.spans = run.spans.tail) :
    run'.Lists (taken ++ [t]) := by
  have ends := lists.ends
  rw [top, spanEnds] at ends
  obtain ⟨s, before, split, here, below⟩ := List.map_eq_cons_iff.1 ends
  have split : openings taken = before.reverse ++ [s] := by
    rw [← List.reverse_reverse (openings taken), split, List.reverse_cons]
  have opened : ∃ span, s.span? = some span := Option.isSome_iff_exists.1
    (mem_of_mem_openings (by rw [split]; simp : s ∈ openings taken)).2
  obtain ⟨span, opened⟩ := opened
  have left : openings (taken ++ [t]) = before.reverse := by
    have unopened : openings [t] = [] := by simp [openings, Stride.span?, hands.1]
    have closed : t.Closes s := ⟨x, by rwa [here]⟩
    have others : ∀ s' ∈ before.reverse, ¬ t.Closes s' := by
      intro s' listed ⟨x', hands'⟩
      have lower : s'.slice.run.stack ∈ spanEnds stack := by
        rw [← below]
        exact List.mem_map_of_mem (List.mem_reverse.1 listed)
      have shorter := (suffix_of_mem_spanEnds lower).length_le
      have same := congrArg List.length (hands'.2.symm.trans hands.2)
      simp only [List.length_cons] at shorter same
      omega
    rw [openings_append, unopened, split, List.filter_append, List.append_nil]
    rw [List.filter_eq_self.2 fun s' listed => by simpa using others s' listed]
    simp [closed]
  constructor
  · rw [left, List.reverse_reverse, below, popped]
  · rw [openSpans, left, kept, ← lists.spans, openSpans, split]
    simp [opened]

/-- A step keeps the account of the spans, as long as they are as many as the frames that close
them. -/
theorem step (lists : t.slice.run.Lists taken)
    (counted : (spanEnds t.result.run.stack).length = t.result.run.spans.length) :
    t.result.run.Lists (taken ++ [t]) := by
  cases next : t.slice.run.next with
  | eval node =>
      have result : t.result = t.machine.eval t.slice.fiber t.scope t.slice.run node :=
        Machine.stepRun_eval next
      have evaluates : ∀ x, t.slice.run.next ≠ .done x := by simp [next]
      by_cases opens : ∃ label source, node = .span label source
      · obtain ⟨label, source, rfl⟩ := opens
        exact lists.of_opens evaluates (t.span?_of_evaluates ⟨next, rfl⟩) rfl (result ▸ rfl)
          (result ▸ rfl)
      · have grows : Machine.Grows t.slice.run.stack _ t.result := Machine.stepRun_eval_grows next
        obtain ⟨new, grown, -⟩ := grows.frames
        refine lists.of_plain ?_ (fun s _ ⟨x, hands, _⟩ => evaluates x hands) grown rfl ?_ counted
        · unfold Stride.span?
          rw [next]
          cases node <;> first | rfl | exact absurd ⟨_, _, rfl⟩ opens
        · rw [result]
          exact Machine.spans_eval fun label source same => opens ⟨label, source, same⟩
  | done x =>
      have unopened : t.span? = none := by rw [Stride.span?, next]
      cases top : t.slice.run.stack with
      | nil =>
          have result : t.result = { control := .finish x, run := t.slice.run, machine := t.machine } :=
            Machine.stepRun_over next top
          have same : t.result.run.stack = [] ++ t.slice.run.stack := by
            rw [result]
            rfl
          refine lists.of_plain unopened (fun s _ ⟨y, hands⟩ => ?_) same rfl ?_ counted
          · cases top.symm.trans hands.2
          · rw [result]
      | cons frame stack =>
          have result : t.result = t.machine.resumeFrame t.slice.fiber t.scope
              { t.slice.run with stack } frame x := Machine.stepRun_done next top
          by_cases closes : frame = .spanEnd
          · subst closes
            exact lists.of_closes ⟨next, top⟩ top (result ▸ rfl) (result ▸ rfl)
          · have grows : Machine.Grows stack _ t.result := Machine.stepRun_done_grows next top
            obtain ⟨new, grown, -⟩ := grows.frames
            refine lists.of_plain unopened (fun s _ ⟨y, hands⟩ => ?_) grown ?_ ?_ counted
            · exact closes (List.cons.inj (top.symm.trans hands.2)).1
            · rw [top, spanEnds_cons closes]
            · rw [result]
              exact Machine.spans_resumeFrame closes x

end RunState.Lists

/-- The frames that close spans are as many as the spans. -/
theorem Opened.length_spans {outer now : Scopes} {stack : List (Frame σ)}
    (opened : Opened outer stack now) :
    now.spans.length = (spanEnds stack).length + outer.spans.length := by
  induction opened with
  | nil => exact (Nat.zero_add _).symm
  | plain plain _ ih => rwa [spanEnds_cons (by rintro rfl; cases plain)]
  | guard guards _ ih => rwa [spanEnds_cons (by rintro rfl; cases guards)]
  | span span _ ih =>
      rw [spanEnds, List.length_cons, List.length_cons, ih]
      omega
  | _ => assumption

/-! ## Every run -/

namespace Moment

variable {μ : Moment σ} {f : FiberId} {event : Event σ} {events : List (Event σ)}
  {world : World σ} {budget : Nat} {run : RunState σ}

/-- Every program has as many spans open as its stack will close. -/
theorem Reachable.spans_counted (reachable : Reachable μ) (rest : μ.rest? f = some run) :
    (spanEnds run.stack).length = run.spans.length := by
  obtain ⟨p, position, rest⟩ := Option.bind_eq_some_iff.1 rest
  obtain ⟨outer, outside, opened⟩ : ∃ outer : Scopes, outer.spans = [] ∧
      Opened outer run.stack run.scopes := by
    refine reachable.kept (P := fun run => ∃ outer : Scopes, outer.spans = [] ∧
      Opened outer run.stack run.scopes) (fun node context => ⟨_, rfl, .nil⟩) (fun _ _ => id) ?_
      position rest
    rintro m g scope run ⟨outer, outside, opened⟩
    by_cases ended : run.stack = [] ∧ ∃ x, run.next = .done x
    · obtain ⟨top, x, next⟩ := ended
      rw [Machine.stepRun_over next top]
      exact ⟨outer, outside, opened⟩
    · have within : run.Within outer [] := ⟨run.stack, (List.append_nil _).symm, opened⟩
      obtain ⟨new, split, opened'⟩ :=
        within.stepRun (fun x next top => ended ⟨top, x, next⟩) m g scope
      rw [List.append_nil] at split
      exact ⟨outer, outside, split ▸ opened'⟩
  have length := opened.length_spans
  rw [outside] at length
  exact length.symm

/-- A fiber that there is not yet has taken no step. -/
theorem Reachable.strides_of_unborn (reachable : Reachable μ) {events : List (Event σ)}
    (missing : (μ.run events).machine.fiber? f = none) : strides f μ events = [] := by
  rw [List.eq_nil_iff_forall_not_mem]
  intro s taken
  obtain ⟨before, event, ⟨after, split⟩, stride⟩ := exists_of_mem_strides taken
  have reached : Reachable (μ.run before) := reachable.run before
  obtain ⟨-, ready, -⟩ := reached.stride stride
  obtain ⟨fiber, row, -⟩ := Option.map_eq_some_iff.1 ready
  have known := reached.isSome_run (Option.isSome_iff_exists.2 ⟨fiber, row⟩) after
  rw [← run_append, split, missing] at known
  cases known

/-- In every run, the spans that a fiber keeps are those that its own steps have left open. -/
theorem lists_of_run (world : World σ) (budget : Nat) (events : List (Event σ))
    (rest : ((initial world budget).run events).rest? f = some run) :
    run.Lists (strides f (initial world budget) events) := by
  induction events using List.reverseRecOn generalizing run with
  | nil => simp [rest?, position?_initial] at rest
  | append_singleton events event ih =>
      have reached : Reachable ((initial world budget).run events) := (Reachable.initial _ _).run _
      rw [run_append] at rest
      have counted := (reached.apply event).spans_counted rest
      obtain ⟨p, position, rest⟩ := Option.bind_eq_some_iff.1 rest
      rw [strides_append, strides, strides, List.append_nil]
      cases reached.comes position with
      | born missing row saved =>
          have still : ((initial world budget).run events).strideAt f event = none :=
            reached.still_of_unready (fun run ready => by simp [position?, missing] at ready) event
          obtain rfl := Option.some.inj rest
          rw [(Reachable.initial _ _).strides_of_unborn missing, still]
          exact ⟨rfl, rfl⟩
      | moved stood still moves =>
          obtain ⟨run₀, rest₀, same⟩ := moves.stack_stays rest
          rw [still, Option.toList_none, List.append_nil, same]
          exact (ih ((rest?_of_position stood).trans rest₀)).next run.next
      | @stepped t _ stride ready =>
          obtain rfl := Option.some.inj rest
          rw [stride]
          exact (ih (rest?_of_position ready)).step counted

/-- While a span is open, it comes after those that were open before it, and all of these stay
open. -/
theorem openings_inside (world : World σ) (budget : Nat) {before during : List (Event σ)}
    {s : Stride σ} (stride : ((initial world budget).run before).strideAt f .work = some s)
    (opens : s.span?.isSome)
    (inside : ∀ t ∈ strides f (((initial world budget).run before).apply .work) during,
      ¬ t.Closes s) :
    openings (strides f (initial world budget) (before ++ .work :: during)) =
      openings (strides f (initial world budget) before) ++
        s :: openings (strides f (((initial world budget).run before).apply .work) during) := by
  have reached : Reachable ((initial world budget).run before) := (Reachable.initial _ _).run _
  obtain ⟨-, ready, answer, stepped, -⟩ := reached.stride stride
  have lists := lists_of_run world budget before (rest?_of_position ready)
  obtain ⟨label, source, next, span⟩ := Stride.exists_of_span? opens
  have above : (((initial world budget).run before).apply .work).Above f
      (.spanEnd :: s.slice.run.stack) := by
    refine ⟨s.result.run, rest?_of_position stepped, ?_⟩
    rw [show s.result = s.machine.eval s.slice.fiber s.scope s.slice.run (.span label source) from
      Machine.stepRun_eval next]
    exact List.suffix_refl _
  have steady : Steady f (.spanEnd :: s.slice.run.stack)
      (((initial world budget).run before).apply .work) during := by
    rcases (reached.apply .work).steady_or_reached above during with
      steady | ⟨first, last, t, x, rfl, -, step, hands⟩
    · exact steady
    · refine absurd ⟨x, hands⟩ (inside t ?_)
      rw [strides_append, strides, step]
      simp
  rw [strides_append, strides, stride, Option.toList_some, List.singleton_append,
    openings_append_of_not_closes, openings, if_pos ⟨opens, inside⟩]
  -- what was open before is closed further down
  rintro o opened t listed ⟨x, hands, top⟩
  have lower := (lists.suffix_of_mem opened).length_le
  rcases List.mem_cons.1 listed with rfl | later
  · cases next.symm.trans hands
  · have higher := ((reached.apply .work).suffix_of_steady steady later).length_le
    rw [top] at higher
    simp only [List.length_cons] at lower higher
    omega

/-- When a span is closed, just those are open that were open before it. -/
theorem openings_after (world : World σ) (budget : Nat) {before during : List (Event σ)}
    {s u : Stride σ} (stride : ((initial world budget).run before).strideAt f .work = some s)
    (opens : s.span?.isSome)
    (inside : ∀ t ∈ strides f (((initial world budget).run before).apply .work) during,
      ¬ t.Closes s)
    (last : ((initial world budget).run (before ++ .work :: during)).strideAt f .work = some u)
    (closes : u.Closes s) :
    openings (strides f (initial world budget) (before ++ .work :: during ++ [.work])) =
      openings (strides f (initial world budget) before) := by
  have reached : Reachable ((initial world budget).run before) := (Reachable.initial _ _).run _
  have reached' : Reachable ((initial world budget).run (before ++ .work :: during)) :=
    (Reachable.initial _ _).run _
  obtain ⟨-, ready, -⟩ := reached.stride stride
  obtain ⟨-, ready', answer, stepped, -⟩ := reached'.stride last
  have lists := lists_of_run world budget before (rest?_of_position ready)
  obtain ⟨x, hands, top⟩ := closes
  have closed : (openings (strides f (initial world budget)
      (before ++ .work :: during ++ [.work]))).length =
      (openings (strides f (initial world budget) before)).length := by
    have rest : ((initial world budget).run (before ++ .work :: during ++ [.work])).rest? f =
        some u.result.run := by
      rw [run_append]
      exact rest?_of_position stepped
    have popped : u.result.run.stack = s.slice.run.stack := by
      rw [show u.result = _ from Machine.stepRun_done hands top]
      rfl
    have ends := (lists_of_run world budget _ rest).ends
    rw [popped, ← lists.ends] at ends
    simpa using congrArg List.length ends
  rw [strides_append, openings_append, openings_inside world budget stride opens inside,
    strides, strides, last, Option.toList_some, List.append_nil, List.filter_append] at closed ⊢
  have unopened : openings [u] = [] := by simp [openings, Stride.span?, hands]
  -- what was open before is closed further down
  rw [List.filter_eq_self.2, unopened, List.append_nil] at closed ⊢
  · rw [List.length_append, Nat.add_eq_left, List.length_eq_zero_iff] at closed
    rw [closed, List.append_nil]
  all_goals
    simp only [List.mem_singleton, forall_eq, decide_eq_true_eq]
    rintro o opened ⟨x', hands', top'⟩
    have lower := (lists.suffix_of_mem opened).length_le
    rw [top] at top'
    simp only [List.cons.injEq, true_and] at top'
    rw [top', List.length_cons] at lower
    omega

/-- What a line of the log shows that a fiber writes at the end of a run. -/
structure ListsOwnSpans (world : World σ) (budget : Nat) (events : List (Event σ)) (f : FiberId)
    (t : Stride σ) (level : Level) (message : String) : Prop where
  /-- The spans that the fiber has opened and not closed, the outermost one first. -/
  text : t.result.machine = t.machine.write (.log level message f
    (renderSpans (openSpans (strides f (initial world budget) events)) t.machine.now))
  /-- In a span: first the spans around it, then the span itself, and then those in it. -/
  inside : ∀ before during s span, events = before ++ .work :: during →
    ((initial world budget).run before).strideAt f .work = some s → s.span? = some span →
    (∀ u ∈ strides f (((initial world budget).run before).apply .work) during, ¬ u.Closes s) →
    openSpans (strides f (initial world budget) events) =
      openSpans (strides f (initial world budget) before) ++
        span :: openSpans (strides f (((initial world budget).run before).apply .work) during)
  /-- After a span: only spans around it, and those that were opened later. -/
  after : ∀ before during later s u, events = before ++ .work :: during ++ [.work] ++ later →
    ((initial world budget).run before).strideAt f .work = some s → s.span?.isSome →
    (∀ v ∈ strides f (((initial world budget).run before).apply .work) during, ¬ v.Closes s) →
    ((initial world budget).run (before ++ .work :: during)).strideAt f .work = some u →
    u.Closes s →
    ∃ outer, List.Sublist outer (openSpans (strides f (initial world budget) before)) ∧
      openSpans (strides f (initial world budget) events) = outer ++
        openSpans (strides f ((initial world budget).run (before ++ .work :: during ++ [.work]))
          later)

/-- In every run, a line of the log shows the spans that its own fiber has open, whatever exits led
out of others, and in the order in which they lie in each other. -/
theorem lines_list_own_spans (world : World σ) (budget : Nat) (events : List (Event σ))
    {t : Stride σ} {level : Level} {message : String}
    (stride : ((initial world budget).run events).strideAt f .work = some t)
    (writes : t.slice.run.next = .eval (.log level message)) :
    ListsOwnSpans world budget events f t level message where
  text := by
    have reached : Reachable ((initial world budget).run events) := (Reachable.initial _ _).run _
    obtain ⟨own, ready, -⟩ := reached.stride stride
    have lists := lists_of_run world budget events (rest?_of_position ready)
    rw [show t.result = t.machine.eval t.slice.fiber t.scope t.slice.run (.log level message) from
      Machine.stepRun_eval writes]
    show t.machine.write (.log level message t.slice.fiber
      (renderSpans t.slice.run.spans.reverse t.machine.now)) = _
    rw [own, ← lists.spans, List.reverse_reverse]
  inside := by
    rintro before during s span rfl opening opens stays
    have opened : s.span?.isSome := by rw [opens]; rfl
    rw [openSpans, openings_inside world budget opening opened stays, List.filterMap_append,
      List.filterMap_cons_some opens]
    rfl
  after := by
    rintro before during later s u rfl opening opens stays last closes
    simp only [openSpans, strides_append _ later, openings_append,
      openings_after world budget opening opens stays last closes, List.filterMap_append]
    exact ⟨_, List.filter_sublist.filterMap _, rfl⟩

/-- A span that is left before a line is written, in a span that is not. -/
def nestedSpans : Node Unit :=
  .span "outer" (.flatMap (.span "inner" (.log .info "first"))
    fun _ => (pure (.log .info "second") : Action Unit (Node Unit)))

/-- What happens until the second line is written. -/
def untilSecondLine : List (Event Unit) := .start nestedSpans :: List.replicate 13 .work

/-- The second line shows the outer span only. -/
theorem second_line_lists_outer_span : ∃ t,
    ((initial { host := () } 100).run untilSecondLine).strideAt ⟨1⟩ .work = some t ∧
    t.slice.run.next = .eval (.log .info "second") ∧
    ListsOwnSpans { host := () } 100 untilSecondLine ⟨1⟩ t .info "second" ∧
    t.result.machine = t.machine.write (.log .info "second" ⟨1⟩ "outer=0ms") := by
  obtain ⟨t, stride, writes, text⟩ : ∃ t,
      ((initial { host := () } 100).run untilSecondLine).strideAt ⟨1⟩ .work = some t ∧
      t.slice.run.next = .eval (.log .info "second") ∧
      t.result.machine = t.machine.write (.log .info "second" ⟨1⟩ "outer=0ms") :=
    ⟨_, rfl, rfl, rfl⟩
  exact ⟨t, stride, writes, lines_list_own_spans _ _ _ stride writes, text⟩

/-! ## A line in a child -/

/-- An effect that writes a line, with a time limit, in a span. -/
def timedInSpan : Effect Unit := ((Effect.log "hi").timeout (.ofMillis 5000)).withLogSpan "load"

/-- What happens until the child that runs the effect writes its line. -/
def untilChildWrites : List (Event Unit) := .start timedInSpan.node :: List.replicate 6 .work

/-- The child of a fiber writes a line while its parent has a span open around it, and the line does
not show the span. -/
theorem child_lists_no_spans :
    let μ := (initial { host := () } 100).run untilChildWrites
    openSpans (strides ⟨1⟩ (initial { host := () } 100) untilChildWrites) = [⟨"load", 0⟩] ∧
    (μ.machine.fiber? ⟨2⟩).bind (·.parent) = some ⟨1⟩ ∧
    ∃ t, μ.strideAt ⟨2⟩ .work = some t ∧ t.slice.run.next = .eval (.log .info "hi") ∧
      t.result.machine = t.machine.write (.log .info "hi" ⟨2⟩ "") := by
  intro μ
  obtain ⟨run, rest, spans⟩ : ∃ run, μ.rest? ⟨1⟩ = some run ∧ run.spans = [⟨"load", 0⟩] :=
    ⟨_, rfl, rfl⟩
  have lists := lists_of_run { host := () } 100 untilChildWrites rest
  refine ⟨?_, rfl, _, rfl, rfl, rfl⟩
  rw [← List.reverse_reverse (openSpans _), lists.spans, spans]
  rfl

end Moment

end EffectFibers
