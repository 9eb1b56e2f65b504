/-!
# The ready queue

A first-in first-out queue.  It is kept as two lists: the front in order, and the back in reverse
order, which is turned over when the front runs out.  What it holds is its view `toList`.

## Main statements

* `ReadyQueue.toList_push` – pushing adds at the end.
* `ReadyQueue.pop_eq_none_iff`, `ReadyQueue.toList_of_pop` – popping takes the first one.
-/

namespace EffectFibers

/-- A first-in first-out queue. -/
structure ReadyQueue (α : Type) where
  front : List α := []
  back : List α := []

namespace ReadyQueue

variable {α : Type}

def empty : ReadyQueue α := {}

instance : Inhabited (ReadyQueue α) := ⟨empty⟩

/-- The items, the first one to leave in front. -/
def toList (q : ReadyQueue α) : List α := q.front ++ q.back.reverse

def push (q : ReadyQueue α) (a : α) : ReadyQueue α := { q with back := a :: q.back }

/-- The first item and the others. -/
def pop (q : ReadyQueue α) : Option (α × ReadyQueue α) :=
  match q.front with
  | a :: front => some (a, { q with front })
  | [] =>
    match q.back.reverse with
    | a :: front => some (a, { front, back := [] })
    | [] => none

def size (q : ReadyQueue α) : Nat := q.front.length + q.back.length

def isEmpty (q : ReadyQueue α) : Bool := q.front.isEmpty && q.back.isEmpty

/-! ## The view -/

@[simp] theorem toList_empty : (empty : ReadyQueue α).toList = [] := rfl

@[simp] theorem toList_push (q : ReadyQueue α) (a : α) : (q.push a).toList = q.toList ++ [a] := by
  simp [push, toList]

theorem toList_of_pop {q r : ReadyQueue α} {a : α} (h : q.pop = some (a, r)) :
    q.toList = a :: r.toList := by
  obtain ⟨front, back⟩ := q
  cases front with
  | cons b front =>
    simp only [pop, Option.some.injEq, Prod.mk.injEq] at h
    obtain ⟨rfl, rfl⟩ := h
    rfl
  | nil =>
    cases turned : back.reverse with
    | nil => simp [pop, turned] at h
    | cons b front =>
      simp only [pop, turned, Option.some.injEq, Prod.mk.injEq] at h
      obtain ⟨rfl, rfl⟩ := h
      simp [toList, turned]

theorem pop_eq_none_iff {q : ReadyQueue α} : q.pop = none ↔ q.toList = [] := by
  obtain ⟨front, back⟩ := q
  cases front with
  | cons b front => simp [pop, toList]
  | nil =>
    cases turned : back.reverse with
    | nil => simp [pop, toList, turned]
    | cons b front => simp [pop, toList, turned]

/-- Popping takes what stands in front. -/
theorem exists_pop_of_head? {q : ReadyQueue α} {a : α} (front : q.toList.head? = some a) :
    ∃ r, q.pop = some (a, r) := by
  cases popped : q.pop with
  | none => simp [pop_eq_none_iff.1 popped] at front
  | some result =>
      obtain ⟨b, r⟩ := result
      rw [toList_of_pop popped] at front
      obtain rfl : b = a := Option.some.inj front
      exact ⟨r, rfl⟩

end ReadyQueue

end EffectFibers
