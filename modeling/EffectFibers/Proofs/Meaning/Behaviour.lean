import EffectFibers.Proofs.Meaning.Evaluates

/-!
# What is left of a meaning

A fiber that has run part of a tree holds the rest as a stack of frames.  Each frame has a meaning
of its own, which follows from that of the tree it was pushed for: what it makes of an exit.  So
what is left to do has a meaning at every point, and a step leads from one to the next.

## Main definitions

* `Behaviour` – the exits that something gives, after which deeds and in how many steps.
* `resumes`, `unwinds` – what a frame and a stack make of an exit.
* `goes` – what a fiber does that is about to take a step.
* `Behaviour.Leads` – a step, with its deeds, from one behaviour to another.

## Main statements

* `Leads.goes_eval`, `Leads.goes_open`, `Leads.goes_code` – the steps that evaluate.
* `Leads.unwinds_cons` – the steps that hand an exit to a frame.
-/

namespace EffectFibers

variable {σ : Type}

/-! ## Behaviours -/

/-- The exits that something gives, after which deeds and in how many steps. -/
abbrev Behaviour (σ : Type) : Type := List (Deed σ) → Exit → Nat → Prop

namespace Behaviour

variable {P P' : Behaviour σ} {Q : Exit → Behaviour σ} {R : Exit → Behaviour σ} {x y : Exit}
  {ds : List (Deed σ)}

/-- Nothing but an exit, after some steps. -/
def gives (x : Exit) (steps : Nat) : Behaviour σ := fun deeds y n => deeds = [] ∧ y = x ∧ n = steps

/-- One thing after another, which gets the exit of the first one. -/
def andThen (P : Behaviour σ) (Q : Exit → Behaviour σ) : Behaviour σ := fun deeds y n =>
  ∃ first x k rest k', deeds = first ++ rest ∧ n = k + k' ∧ P first x k ∧ Q x rest y k'

/-- The same, one step later. -/
def later (P : Behaviour σ) : Behaviour σ := fun deeds y n => ∃ k, n = k + 1 ∧ P deeds y k

theorem gives_andThen_zero : (gives x 0).andThen Q = Q x := by
  funext deeds y n
  refine propext ⟨?_, fun h => ⟨[], x, 0, deeds, n, rfl, by omega, ⟨rfl, rfl, rfl⟩, h⟩⟩
  rintro ⟨_, _, _, rest, k, rfl, rfl, ⟨rfl, rfl, rfl⟩, h⟩
  simpa using h

theorem gives_succ (k : Nat) : (gives x (k + 1) : Behaviour σ) = later (gives x k) := by
  funext deeds y n
  refine propext ⟨?_, ?_⟩
  · rintro ⟨rfl, rfl, rfl⟩
    exact ⟨k, rfl, rfl, rfl, rfl⟩
  · rintro ⟨_, rfl, rfl, rfl, rfl⟩
    exact ⟨rfl, rfl, rfl⟩

theorem later_andThen : (later P).andThen Q = later (P.andThen Q) := by
  funext deeds y n
  refine propext ⟨?_, ?_⟩
  · rintro ⟨first, x, _, rest, k', rfl, rfl, ⟨k, rfl, h⟩, h'⟩
    exact ⟨k + k', by omega, first, x, k, rest, k', rfl, rfl, h, h'⟩
  · rintro ⟨_, rfl, first, x, k, rest, k', rfl, rfl, h, h'⟩
    exact ⟨first, x, k + 1, rest, k', rfl, by omega, ⟨k, rfl, h⟩, h'⟩

theorem andThen_assoc : (P.andThen Q).andThen R = P.andThen fun x => (Q x).andThen R := by
  funext deeds y n
  refine propext ⟨?_, ?_⟩
  · rintro ⟨_, x', _, last, k₃, rfl, rfl, ⟨first, x, k₁, mid, k₂, rfl, rfl, h₁, h₂⟩, h₃⟩
    exact ⟨first, x, k₁, mid ++ last, k₂ + k₃, by simp, by omega, h₁, mid, x', k₂, last, k₃, rfl,
      rfl, h₂, h₃⟩
  · rintro ⟨first, x, k₁, _, _, rfl, rfl, h₁, mid, x', k₂, last, k₃, rfl, rfl, h₂, h₃⟩
    exact ⟨first ++ mid, x', k₁ + k₂, last, k₃, by simp, by omega,
      ⟨first, x, k₁, mid, k₂, rfl, rfl, h₁, h₂⟩, h₃⟩

/-- A step leads from one behaviour to another, and does some deeds. -/
def Leads (P : Behaviour σ) (ds : List (Deed σ)) (P' : Behaviour σ) : Prop :=
  ∀ deeds x n, P (ds ++ deeds) x n ↔ later P' deeds x n

/-- Whatever something does together with more, it does the given deeds first. -/
def Begins (P : Behaviour σ) (ds : List (Deed σ)) : Prop :=
  ∀ first x k rest deeds, P first x k → first ++ rest = ds ++ deeds → ∃ mid, first = ds ++ mid

theorem Leads.of_eq (same : P = later P') : P.Leads [] P' := by
  subst same
  exact fun _ _ _ => Iff.rfl

theorem begins_singleton {d : Deed σ} (busy : ∀ x k, ¬ P [] x k) : P.Begins [d] := by
  intro first x k rest deeds h same
  cases first with
  | nil => exact absurd h (busy x k)
  | cons e first =>
      obtain ⟨rfl, -⟩ := List.cons.inj same
      exact ⟨first, rfl⟩

/-- A step of the first thing is a step of both. -/
theorem Leads.andThen (leads : P.Leads ds P') (begins : P.Begins ds) :
    (P.andThen Q).Leads ds (P'.andThen Q) := by
  intro deeds y n
  constructor
  · rintro ⟨first, x, _, rest, k', split, rfl, h, h'⟩
    obtain ⟨mid, rfl⟩ := begins first x _ rest deeds h split.symm
    obtain ⟨k, rfl, h''⟩ := (leads mid x _).1 h
    have split : deeds = mid ++ rest := by simpa using split
    exact ⟨k + k', by omega, mid, x, k, rest, k', split, rfl, h'', h'⟩
  · rintro ⟨_, rfl, mid, x, k, rest, k', rfl, rfl, h, h'⟩
    exact ⟨ds ++ mid, x, k + 1, rest, k', by simp, by omega, (leads mid x _).2 ⟨k, rfl, h⟩, h'⟩

end Behaviour

/-! ## Frames and stacks -/

section

open Behaviour

variable (context : Context Value)

/-- What a phrase does. -/
def means (phrase : Phrase σ) : Behaviour σ := Evaluates context phrase

/-- What a frame makes of an exit. -/
def resumes : Frame σ → Exit → Behaviour σ
  | .flatMap next, .ok v => means context (.code (next v))
  | .recover handler, .error (.fail φ) => means context (.code (handler φ))
  | .ensuring finalizer, x =>
    later ((means context (.node finalizer)).andThen fun y => gives (x.afterFinalizer y) 1)
  | .finalizing earlier, x => gives (earlier.afterFinalizer x) 1
  | .retry source schedule number, .error (.fail φ) =>
    match schedule.decide? number φ.known? with
    | .ok (.again d) => fun deeds y n => ∃ k, n = (k + if d.isZero then 1 else 0) ∧
        means context (.attempt source schedule (Schedule.nextAttempt number)
          (source.afterDelay d)) deeds y k
    | .ok .stop => gives (.error (.fail φ)) 1
    | .error p => gives (Exit.died (.ofPanic p)) 1
  | .repeated source schedule number, .ok v =>
    means context (.code (Machine.repeatAfter source schedule number v))
  | _, x => gives x 1

/-- What a stack makes of an exit. -/
def unwinds : List (Frame σ) → Exit → Behaviour σ
  | [], x => gives x 1
  | frame :: stack, x => (resumes context frame x).andThen (unwinds stack)

/-- What a fiber does that is about to take a step. -/
def goes (step : Step σ) (stack : List (Frame σ)) : Behaviour σ :=
  match step with
  | .eval node => (means context (.node node)).andThen (unwinds context stack)
  | .done x => unwinds context stack x

/-- What a fiber does that waits for an answer; that of a timer is nothing. -/
def awaits (timer : Bool) (stack : List (Frame σ)) : Behaviour σ := fun deeds y n =>
  ∃ x rest, deeds = .answered x :: rest ∧ (timer → x = .ok .null) ∧ unwinds context stack x rest y n

end

/-! ## The meaning of a tree by the frame that it is pushed for -/

section

open Behaviour

variable {context : Context Value} {source finalizer body : Node σ}

theorem means_flatMap (next : Value → Action σ (Node σ)) :
    means context (.node (.flatMap source next)) =
      later ((means context (.node source)).andThen (resumes context (.flatMap next))) := by
  funext deeds y n
  refine propext ⟨fun h => ?_, ?_⟩
  · cases h with
    | flatMap h h' => exact ⟨_, rfl, _, _, _, _, _, rfl, rfl, h, h'⟩
    | flatMapFails h => exact ⟨_, rfl, _, _, _, [], 1, by simp, rfl, h, rfl, rfl, rfl⟩
  · rintro ⟨_, rfl, first, x, k, rest, k', rfl, rfl, h, h'⟩
    cases x with
    | ok v => exact .flatMap h h'
    | error cause =>
        obtain ⟨rfl, rfl, rfl⟩ := h'
        rw [List.append_nil]
        exact .flatMapFails h

/-- A frame that is for failures passes everything else. -/
theorem resumes_recover_of_ne {handler : Failure → Action σ (Node σ)} {x : Exit}
    (other : ∀ φ, x ≠ .error (.fail φ)) : resumes context (.recover handler) x = gives x 1 := by
  unfold resumes
  split <;> simp_all

theorem resumes_retry_of_ne {schedule : Schedule Failure} {number : Nat} {x : Exit}
    (other : ∀ φ, x ≠ .error (.fail φ)) :
    resumes context (.retry source schedule number) x = gives x 1 := by
  unfold resumes
  split <;> simp_all

theorem means_recover (handler : Failure → Action σ (Node σ)) :
    means context (.node (.recover source handler)) =
      later ((means context (.node source)).andThen (resumes context (.recover handler))) := by
  funext deeds y n
  refine propext ⟨fun h => ?_, ?_⟩
  · cases h with
    | recover h h' => exact ⟨_, rfl, _, _, _, _, _, rfl, rfl, h, h'⟩
    | recoverNot h other =>
        refine ⟨_, rfl, _, _, _, [], 1, by simp, rfl, h, ?_⟩
        rw [resumes_recover_of_ne other]
        exact ⟨rfl, rfl, rfl⟩
  · rintro ⟨_, rfl, first, x, k, rest, k', rfl, rfl, h, h'⟩
    by_cases failure : ∃ φ, x = .error (.fail φ)
    · obtain ⟨φ, rfl⟩ := failure
      exact .recover h h'
    · have other : ∀ φ, x ≠ .error (.fail φ) := fun φ same => failure ⟨φ, same⟩
      rw [resumes_recover_of_ne other] at h'
      obtain ⟨rfl, rfl, rfl⟩ := h'
      rw [List.append_nil]
      exact .recoverNot h other

theorem means_ensuring :
    means context (.node (.ensuring source finalizer)) =
      later ((means context (.node source)).andThen (resumes context (.ensuring finalizer))) := by
  funext deeds y n
  refine propext ⟨fun h => ?_, ?_⟩
  · cases h with
    | @ensuring _ _ first x k rest z k' h h' =>
        exact ⟨k + (k' + 1 + 1), by omega, first, x, k, rest, k' + 1 + 1, rfl, rfl, h, k' + 1, rfl,
          rest, z, k', [], 1, by simp, rfl, h', rfl, rfl, rfl⟩
  · rintro ⟨_, rfl, first, x, k, rest, k', rfl, rfl, h, _, rfl, inner, z, l, _, _, rfl, rfl, h',
      rfl, rfl, rfl⟩
    have cost : k + (l + 1 + 1) + 1 = k + l + 3 := by omega
    rw [List.append_nil, cost]
    exact .ensuring h h'

theorem means_uninterruptible :
    means context (.node (.uninterruptible source)) =
      later ((means context (.node source)).andThen (resumes context .regionEnd)) := by
  funext deeds y n
  refine propext ⟨fun h => ?_, ?_⟩
  · cases h with
    | uninterruptible h => exact ⟨_, rfl, _, _, _, [], 1, by simp, rfl, h, rfl, rfl, rfl⟩
  · rintro ⟨_, rfl, first, x, k, _, _, rfl, rfl, h, rfl, rfl, rfl⟩
    rw [List.append_nil]
    exact .uninterruptible h

theorem means_span (label : String) :
    means context (.node (.span label source)) =
      later ((means context (.node source)).andThen (resumes context .spanEnd)) := by
  funext deeds y n
  refine propext ⟨fun h => ?_, ?_⟩
  · cases h with
    | span h => exact ⟨_, rfl, _, _, _, [], 1, by simp, rfl, h, rfl, rfl, rfl⟩
  · rintro ⟨_, rfl, first, x, k, _, _, rfl, rfl, h, rfl, rfl, rfl⟩
    rw [List.append_nil]
    exact .span h

theorem means_attempt (schedule : Schedule Failure) (number : Nat) :
    means context (.attempt source schedule number body) =
      (means context (.node body)).andThen (resumes context (.retry source schedule number)) := by
  funext deeds y n
  refine propext ⟨fun h => ?_, ?_⟩
  · cases h with
    | attemptEnds h other =>
        refine ⟨_, _, _, [], 1, by simp, rfl, h, ?_⟩
        rw [resumes_retry_of_ne other]
        exact ⟨rfl, rfl, rfl⟩
    | attemptStops h decision =>
        refine ⟨_, _, _, [], 1, by simp, rfl, h, ?_⟩
        simp only [resumes, decision]
        exact ⟨rfl, rfl, rfl⟩
    | attemptPanics h decision =>
        refine ⟨_, _, _, [], 1, by simp, rfl, h, ?_⟩
        simp only [resumes, decision]
        exact ⟨rfl, rfl, rfl⟩
    | @attemptAgain _ _ _ _ first φ k d rest _ k' h decision h' =>
        refine ⟨first, _, k, rest, _, rfl, Nat.add_assoc _ _ _, h, ?_⟩
        simp only [resumes, decision]
        exact ⟨k', rfl, h'⟩
  · rintro ⟨first, x, k, rest, k', rfl, rfl, h, h'⟩
    by_cases failure : ∃ φ, x = .error (.fail φ)
    · obtain ⟨φ, rfl⟩ := failure
      unfold resumes at h'
      cases decision : schedule.decide? number φ.known? with
      | error p =>
          simp only [decision] at h'
          obtain ⟨rfl, rfl, rfl⟩ := h'
          rw [List.append_nil]
          exact .attemptPanics h decision
      | ok what =>
          cases what with
          | stop =>
              simp only [decision] at h'
              obtain ⟨rfl, rfl, rfl⟩ := h'
              rw [List.append_nil]
              exact .attemptStops h decision
          | again d =>
              simp only [decision] at h'
              obtain ⟨l, rfl, h'⟩ := h'
              rw [← Nat.add_assoc]
              exact .attemptAgain h decision h'
    · have other : ∀ φ, x ≠ .error (.fail φ) := fun φ same => failure ⟨φ, same⟩
      rw [resumes_retry_of_ne other] at h'
      obtain ⟨rfl, rfl, rfl⟩ := h'
      rw [List.append_nil]
      exact .attemptEnds h other

theorem means_retry (schedule : Schedule Failure) :
    means context (.node (.retry source schedule)) =
      later ((means context (.node source)).andThen
        (resumes context (.retry source schedule 0))) := by
  rw [← means_attempt]
  funext deeds y n
  refine propext ⟨fun h => ?_, ?_⟩
  · cases h with
    | retry h => exact ⟨_, rfl, h⟩
  · rintro ⟨_, rfl, h⟩
    exact .retry h

theorem means_repeated (schedule : Schedule Value) (number : Nat) :
    means context (.node (.repeated source schedule number)) =
      later ((means context (.node source)).andThen
        (resumes context (.repeated source schedule number))) := by
  funext deeds y n
  refine propext ⟨fun h => ?_, ?_⟩
  · cases h with
    | repeated h h' => exact ⟨_, rfl, _, _, _, _, _, rfl, rfl, h, h'⟩
    | repeatedFails h => exact ⟨_, rfl, _, _, _, [], 1, by simp, rfl, h, rfl, rfl, rfl⟩
  · rintro ⟨_, rfl, first, x, k, rest, k', rfl, rfl, h, h'⟩
    cases x with
    | ok v => exact .repeated h h'
    | error cause =>
        obtain ⟨rfl, rfl, rfl⟩ := h'
        rw [List.append_nil]
        exact .repeatedFails h

theorem means_succeed (v : Value) :
    means context (.node (.succeed v : Node σ)) = gives (.ok v) 1 := by
  funext deeds y n
  refine propext ⟨fun h => ?_, ?_⟩
  · cases h
    exact ⟨rfl, rfl, rfl⟩
  · rintro ⟨rfl, rfl, rfl⟩
    exact .succeed v

theorem means_fail (cause : Cause Failure) :
    means context (.node (.fail cause : Node σ)) = gives (.error cause) 1 := by
  funext deeds y n
  refine propext ⟨fun h => ?_, ?_⟩
  · cases h
    exact ⟨rfl, rfl, rfl⟩
  · rintro ⟨rfl, rfl, rfl⟩
    exact .fail cause

theorem means_log (level : Level) (message : String) :
    means context (.node (.log level message : Node σ)) = gives (.ok .null) 1 := by
  funext deeds y n
  refine propext ⟨fun h => ?_, ?_⟩
  · cases h
    exact ⟨rfl, rfl, rfl⟩
  · rintro ⟨rfl, rfl, rfl⟩
    exact .log level message

theorem means_yield : means context (.node (.yield : Node σ)) = gives (.ok .null) 1 := by
  funext deeds y n
  refine propext ⟨fun h => ?_, ?_⟩
  · cases h
    exact ⟨rfl, rfl, rfl⟩
  · rintro ⟨rfl, rfl, rfl⟩
    exact .yield

theorem means_sleepNot {d : Duration} (zero : d.isZero = true) :
    means context (.node (.sleep d : Node σ)) = gives (.ok .null) 1 := by
  funext deeds y n
  refine propext ⟨fun h => ?_, ?_⟩
  · cases h with
    | sleep long => cases zero.symm.trans long
    | sleepNot _ => exact ⟨rfl, rfl, rfl⟩
  · rintro ⟨rfl, rfl, rfl⟩
    exact .sleepNot zero

end

/-! ## Steps -/

section

open Behaviour

variable {context : Context Value} {stack : List (Frame σ)} {x : Exit} {sight : Sight σ}

/-- The step after user code that builds a tree. -/
def Step.ofBuilt : Except Panic (Node σ) → Step σ
  | .ok node => .eval node
  | .error p => .done (Exit.died (.ofPanic p))

theorem goes_done_nil (x : Exit) : (goes context (.done x) []).Leads [] (gives x 0 : Behaviour σ) :=
  .of_eq (gives_succ 0)

/-- A leaf with nothing to do. -/
theorem goes_leaf {node : Node σ} (leaf : means context (.node node) = gives x 1) :
    (goes context (.eval node) stack).Leads [] (goes context (.done x) stack) := by
  refine .of_eq ?_
  rw [goes, leaf, gives_succ, later_andThen, gives_andThen_zero]
  rfl

/-- A tree that is entered. -/
theorem goes_enter {node source : Node σ} {frame : Frame σ}
    (enters : means context (.node node) =
      later ((means context (.node source)).andThen (resumes context frame))) :
    (goes context (.eval node) stack).Leads [] (goes context (.eval source) (frame :: stack)) := by
  refine .of_eq ?_
  rw [goes, enters, later_andThen, andThen_assoc]
  rfl

/-- Something that ends with one deed. -/
theorem leads_last {P : Behaviour σ} {d : Deed σ} (Q : Exit → Behaviour σ)
    (busy : ∀ y n, ¬ P [] y n)
    (last : ∀ deeds y n, P (d :: deeds) y n ↔ deeds = [] ∧ y = x ∧ n = 1) :
    (P.andThen Q).Leads [d] (Q x) := by
  rw [← gives_andThen_zero (x := x) (Q := Q)]
  refine Leads.andThen (fun deeds y n => ?_) (begins_singleton busy)
  rw [show [d] ++ deeds = d :: deeds from rfl, last, ← gives_succ]
  rfl

/-- User code that builds a tree. -/
theorem means_code_leads (code : Action σ (Node σ)) (sight : Sight σ) (stack : List (Frame σ)) :
    ((means context (.code code)).andThen (unwinds context stack)).Leads [.built code sight]
      (goes context (Step.ofBuilt (code.resultAt sight)) stack) := by
  have busy : ∀ y n, ¬ means context (.code code) [] y n := by
    intro y n h
    cases h
  cases result : code.resultAt sight with
  | ok node =>
      refine Leads.andThen (fun deeds y n => ?_) (begins_singleton busy)
      refine ⟨fun h => ?_, ?_⟩
      · cases h with
        | built result' h =>
            obtain rfl := Except.ok.inj (result.symm.trans result')
            exact ⟨_, rfl, h⟩
        | panics result' => cases result.symm.trans result'
      · rintro ⟨k, rfl, h⟩
        exact .built result h
  | error p =>
      refine leads_last (unwinds context stack) busy fun deeds y n => ⟨fun h => ?_, ?_⟩
      · cases h with
        | built result' h => cases result.symm.trans result'
        | panics result' =>
            obtain rfl := Except.error.inj (result.symm.trans result')
            exact ⟨rfl, rfl, rfl⟩
      · rintro ⟨rfl, rfl, rfl⟩
        exact .panics result

theorem goes_access (reader : Context Value → Action σ (Node σ)) (stack : List (Frame σ)) :
    goes context (.eval (.access reader)) stack =
      (means context (.code (reader context))).andThen (unwinds context stack) := by
  have same : means context (.node (.access reader)) = means context (.code (reader context)) := by
    funext deeds y n
    refine propext ⟨fun h => ?_, .access⟩
    cases h
    assumption
  rw [goes, same]

theorem goes_sync (thunk : Action σ Exit) (sight : Sight σ) (stack : List (Frame σ)) :
    (goes context (.eval (.sync thunk)) stack).Leads [.ran thunk sight]
      (goes context (.done (match thunk.resultAt sight with
        | .ok x => x
        | .error p => Exit.died (.ofPanic p))) stack) := by
  refine leads_last (unwinds context stack) (fun y n h => by cases h) fun deeds y n => ?_
  cases result : thunk.resultAt sight with
  | ok x =>
      refine ⟨fun h => ?_, ?_⟩
      · cases h with
        | sync result' =>
            obtain rfl := Except.ok.inj (result.symm.trans result')
            exact ⟨rfl, rfl, rfl⟩
        | syncPanics result' => cases result.symm.trans result'
      · rintro ⟨rfl, rfl, rfl⟩
        exact .sync result
  | error p =>
      refine ⟨fun h => ?_, ?_⟩
      · cases h with
        | sync result' => cases result.symm.trans result'
        | syncPanics result' =>
            obtain rfl := Except.error.inj (result.symm.trans result')
            exact ⟨rfl, rfl, rfl⟩
      · rintro ⟨rfl, rfl, rfl⟩
        exact .syncPanics result

theorem goes_once (ticket : Ticket) (x : Exit) (sight : Sight σ) (stack : List (Frame σ)) :
    (goes context (.eval (.once ticket x)) stack).Leads [.used ticket sight]
      (goes context (.done (if ticket ∈ sight.world.unused then x
        else Exit.died (.internal "one-shot node evaluated twice"))) stack) := by
  refine leads_last (unwinds context stack) (fun y n h => by cases h) fun deeds y n => ?_
  split
  · rename_i good
    refine ⟨fun h => ?_, ?_⟩
    · cases h with
      | once _ => exact ⟨rfl, rfl, rfl⟩
      | onceAgain bad => exact absurd good bad
    · rintro ⟨rfl, rfl, rfl⟩
      exact .once good
  · rename_i bad
    refine ⟨fun h => ?_, ?_⟩
    · cases h with
      | once good => exact absurd good bad
      | onceAgain _ => exact ⟨rfl, rfl, rfl⟩
    · rintro ⟨rfl, rfl, rfl⟩
      exact .onceAgain bad

/-! ## Waiting -/

theorem awaits_answered {timer : Bool} (rightful : timer → x = .ok .null) (deeds : List (Deed σ))
    (y : Exit) (n : Nat) :
    awaits context timer stack (.answered x :: deeds) y n ↔ unwinds context stack x deeds y n := by
  refine ⟨?_, fun h => ⟨x, deeds, rfl, rightful, h⟩⟩
  rintro ⟨_, _, same, -, h⟩
  obtain ⟨⟨rfl⟩, rfl⟩ := List.cons.inj same
  exact h

/-- A step that ends in a wait leads through the answer as well. -/
theorem Behaviour.Leads.answered {P : Behaviour σ} {ds : List (Deed σ)} {timer : Bool}
    (leads : P.Leads ds (awaits context timer stack)) (rightful : timer → x = .ok .null) :
    P.Leads (ds ++ [.answered x]) (unwinds context stack x) := by
  intro deeds y n
  rw [List.append_assoc, leads]
  simp only [later, List.singleton_append, awaits_answered rightful]

theorem goes_watch (target : FiberId) (how : Watch) (stack : List (Frame σ)) :
    (goes context (.eval (.watch target how)) stack).Leads [] (awaits context false stack) := by
  refine .of_eq ?_
  funext deeds y n
  refine propext ⟨?_, ?_⟩
  · rintro ⟨_, x, _, rest, k, rfl, rfl, h, h'⟩
    cases h
    exact ⟨k, Nat.add_comm 1 k, x, rest, rfl, nofun, h'⟩
  · rintro ⟨k, rfl, x, rest, rfl, -, h⟩
    exact ⟨[.answered x], x, 1, rest, k, rfl, Nat.add_comm k 1, .watch x, h⟩

theorem goes_sleep {d : Duration} (long : d.isZero = false) (stack : List (Frame σ)) :
    (goes context (.eval (.sleep d)) stack).Leads [] (awaits context true stack) := by
  refine .of_eq ?_
  funext deeds y n
  refine propext ⟨?_, ?_⟩
  · rintro ⟨_, x, _, rest, k, rfl, rfl, h, h'⟩
    cases h with
    | sleep _ => exact ⟨k, Nat.add_comm 1 k, _, rest, rfl, fun _ => rfl, h'⟩
    | sleepNot short => cases long.symm.trans short
  · rintro ⟨k, rfl, x, rest, rfl, rightful, h⟩
    obtain rfl := rightful rfl
    exact ⟨[.answered (.ok .null)], _, 1, rest, k, rfl, Nat.add_comm k 1, .sleep long, h⟩

section

variable {register : WaitId → Action σ (Option (Cleanup σ))} {w : WaitId}

/-- Someone asks and gets an answer, perhaps while asking. -/
theorem goes_async_answered (stack : List (Frame σ)) (early : ∀ p,
    (register w).resultAt sight = .error p → .resume w x ∈ (register w).requestsAt sight) :
    (goes context (.eval (.async register)) stack).Leads [.asked register w sight, .answered x]
      (unwinds context stack x) := by
  intro deeds y n
  constructor
  · rintro ⟨_, _, _, rest, k, split, rfl, h, h'⟩
    cases h with
    | async _ =>
        obtain ⟨⟨rfl, rfl, rfl⟩, ⟨rfl⟩, rfl⟩ := by simpa using split
        exact ⟨k, Nat.add_comm 1 k, h'⟩
    | asyncPanics panics unanswered =>
        obtain ⟨⟨rfl, rfl, rfl⟩, -⟩ := by simpa using split
        exact absurd (early _ panics) (unanswered x)
  · rintro ⟨k, rfl, h⟩
    exact ⟨_, x, 1, deeds, k, rfl, Nat.add_comm k 1, .async early, h⟩

/-- Someone asks and waits. -/
theorem goes_async {cleanup : Option (Cleanup σ)} (stack : List (Frame σ))
    (asks : (register w).resultAt sight = .ok cleanup) :
    (goes context (.eval (.async register)) stack).Leads [.asked register w sight]
      (awaits context false stack) := by
  have calm : ∀ p, (register w).resultAt sight ≠ .error p := fun p panics => by
    cases asks.symm.trans panics
  intro deeds y n
  constructor
  · rintro ⟨_, x, _, rest, k, split, rfl, h, h'⟩
    cases h with
    | async _ =>
        obtain ⟨⟨rfl, rfl, rfl⟩, rfl⟩ := by simpa using split
        exact ⟨k, Nat.add_comm 1 k, x, rest, rfl, nofun, h'⟩
    | asyncPanics panics _ =>
        obtain ⟨⟨rfl, rfl, rfl⟩, -⟩ := by simpa using split
        exact absurd panics (calm _)
  · rintro ⟨k, rfl, x, rest, rfl, -, h⟩
    exact ⟨[.asked register w sight, .answered x], x, 1, rest, k, rfl, Nat.add_comm k 1,
      .async fun p panics => absurd panics (calm p), h⟩

/-- Someone breaks off while asking, without an answer. -/
theorem goes_async_panics {p : Panic} (stack : List (Frame σ))
    (panics : (register w).resultAt sight = .error p)
    (unanswered : ∀ x, .resume w x ∉ (register w).requestsAt sight) :
    (goes context (.eval (.async register)) stack).Leads [.asked register w sight]
      (goes context (.done (Exit.died (.ofPanic p))) stack) := by
  refine leads_last (unwinds context stack) (fun y n h => by cases h) fun deeds y n => ?_
  refine ⟨fun h => ?_, ?_⟩
  · cases h with
    | async early => exact absurd (early p panics) (unanswered _)
    | asyncPanics panics' _ =>
        obtain rfl := Except.error.inj (panics.symm.trans panics')
        exact ⟨rfl, rfl, rfl⟩
  · rintro ⟨rfl, rfl, rfl⟩
    exact .asyncPanics panics unanswered

end

/-! ## Handing an exit to a frame -/

/-- A frame that hands on an exit at once. -/
theorem unwinds_pass {frame : Frame σ} {y : Exit} (pass : resumes context frame x = gives y 1) :
    (unwinds context (frame :: stack) x).Leads [] (goes context (.done y) stack) := by
  refine .of_eq ?_
  rw [unwinds, pass, gives_succ, later_andThen, gives_andThen_zero]
  rfl

theorem unwinds_ensuring (finalizer : Node σ) :
    (unwinds context (.ensuring finalizer :: stack) x).Leads []
      (goes context (.eval finalizer) (.finalizing x :: stack)) := by
  refine .of_eq ?_
  rw [unwinds, resumes, later_andThen, andThen_assoc]
  rfl

/-- A failed source is tried again, after a wait if there is one. -/
theorem unwinds_retry_again {source : Node σ} {schedule : Schedule Failure} {number : Nat}
    {φ : Failure} {d : Duration}
    (decision : schedule.decide? number φ.known? = .ok (.again d)) :
    (unwinds context (.retry source schedule number :: stack) (.error (.fail φ))).Leads []
      (if d.isZero then
        goes context (.eval source)
          (.retry source schedule (Schedule.nextAttempt number) :: stack)
      else
        goes context (.eval (.sleep d)) (.flatMap (fun _ => (pure source : Action σ (Node σ))) ::
          .retry source schedule (Schedule.nextAttempt number) :: stack)) := by
  refine .of_eq ?_
  have again : resumes context (.retry source schedule number) (.error (.fail φ)) =
      fun deeds y n => ∃ k, n = (k + if d.isZero then 1 else 0) ∧
        means context (.attempt source schedule (Schedule.nextAttempt number)
          (source.afterDelay d)) deeds y k := by
    simp only [resumes, decision]
  rw [unwinds, again]
  cases zero : d.isZero with
  | true =>
      have now : source.afterDelay d = source := by simp [Node.afterDelay, zero]
      rw [now, means_attempt]
      show (later _).andThen _ = _
      rw [later_andThen, andThen_assoc]
      rfl
  | false =>
      have wait : source.afterDelay d =
          .flatMap (.sleep d) fun _ => (pure source : Action σ (Node σ)) := by
        simp [Node.afterDelay, zero]
      have same : ∀ P : Behaviour σ,
        (fun deeds y n => ∃ k, n = (k + if false = true then 1 else 0) ∧
          P deeds y k) = P := by
        intro P
        funext deeds y n
        simp
      rw [same, wait, means_attempt, means_flatMap, later_andThen, later_andThen, andThen_assoc,
        andThen_assoc]
      rfl

end

end EffectFibers
