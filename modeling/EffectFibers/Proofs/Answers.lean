import EffectFibers.Proofs.Meaning.Run
import EffectFibers.Proofs.WakeUps

/-!
# Answers

An answer that has come to a fiber is neither lost nor replaced, whatever happens until the worker
hands it to the fiber.

## Main definitions

* `Moment.Has` – a fiber has an answer until the worker hands it over.

## Main statements

* `Moment.Reachable.has` – an answer that has come stays.
-/

namespace EffectFibers.Moment

variable {σ : Type} {μ : Moment σ} {p : FiberId} {x : Exit}

/-- A fiber has an answer, in every run until the worker hands it over. -/
def Has (μ : Moment σ) (p : FiberId) (x : Exit) : Prop :=
  ∀ later : List (Event σ), (μ.run later).answer? p = some x ∨
    ∃ before after, later = before ++ .work :: after ∧ (μ.run before).answer? p = some x ∧
      HandedOver (μ.run before) ((μ.run before).apply .work) p x

/-- An answer that has come stays until the worker hands it over. -/
theorem Reachable.has (reachable : Reachable μ) (answered : μ.answer? p = some x) :
    μ.Has p x := by
  intro later
  induction later generalizing μ with
  | nil => exact .inl answered
  | cons event later ih =>
      obtain ⟨fiber, row, input⟩ := Option.bind_eq_some_iff.1 answered
      rcases reachable.answer_stays row input event with ⟨after, row', input'⟩ | ⟨rfl, handed⟩
      · have still : (μ.apply event).answer? p = some x :=
          Option.bind_eq_some_iff.2 ⟨after, row', input'⟩
        rcases ih (reachable.apply event) still with stays | ⟨before, rest, rfl, there, handed⟩
        · exact .inl stays
        · exact .inr ⟨event :: before, rest, rfl, there, handed⟩
      · exact .inr ⟨[], later, rfl, answered, handed⟩

end EffectFibers.Moment
