import EffectFibers.Proofs.Plans.Order
import Mathlib.Data.Fintype.Pigeonhole

/-!
# What a sorting cannot place

The sorting goes on until nobody is ready.  A constructor that is left over then misses another one
that is left over as well, and so on, and as there are finitely many of them one comes back to where
one was before.  Whoever has been placed only depends on others that were placed before it.  So
exactly those are left over that lie on a circle or depend on one that does.

A constructor waits for as many others as it misses, so whenever one of them is placed it waits for
at least one: no count falls below zero.

## Main definitions

* `Stuck` – a constructor lies on a circle of dependencies or depends on one that does.
* `Sorting.Releases` – a constructor is about to have one dependency less to wait for.

## Main statements

* `Sorting.mem_placed_run_iff` – all are placed that are not stuck.
* `Sorting.Releases.waits` – no count falls below zero.
-/

namespace EffectFibers

variable {ν : Type} {layers : List (LayerSpec ν)} {i j k : Nat}

/-- A constructor lies on a circle of dependencies, or depends on one that does. -/
def Stuck (layers : List (LayerSpec ν)) (i : Nat) : Prop :=
  ∃ j, Relation.ReflTransGen (DependsAt layers) i j ∧ Relation.TransGen (DependsAt layers) j j

theorem Stuck.lt (stuck : Stuck layers i) : i < layers.length := by
  obtain ⟨j, path, circle⟩ := stuck
  rcases path.cases_head with rfl | ⟨k, depends, -⟩
  · obtain ⟨k, depends, -⟩ := Relation.TransGen.head'_iff.1 circle
    exact depends.lt.1
  · exact depends.lt.1

/-- Somebody is stuck exactly if there is a circle. -/
theorem exists_stuck_iff :
    (∃ i, Stuck layers i) ↔ ∃ i, Relation.TransGen (DependsAt layers) i i := by
  constructor
  · rintro ⟨i, j, -, circle⟩
    exact ⟨j, circle⟩
  · rintro ⟨i, circle⟩
    exact ⟨i, i, .refl, circle⟩

/-- Who depends on one of a kind that never ends is stuck. -/
theorem stuck_of_forever (left : Nat → Prop)
    (onward : ∀ i, left i → ∃ j, DependsAt layers i j ∧ left j) (here : left i) :
    Stuck layers i := by
  choose! next depends stays using onward
  have all : ∀ n, left (next^[n] i) := by
    intro n
    induction n with
    | zero => exact here
    | succ n ih =>
        rw [Function.iterate_succ_apply']
        exact stays _ ih
  have step : ∀ n, DependsAt layers (next^[n] i) (next^[n + 1] i) := by
    intro n
    rw [Function.iterate_succ_apply']
    exact depends _ (all n)
  have path : ∀ m n, Relation.ReflTransGen (DependsAt layers) (next^[m] i) (next^[m + n] i) := by
    intro m n
    induction n with
    | zero => exact .refl
    | succ n ih => exact ih.tail (step (m + n))
  -- there are finitely many places, so one comes to one of them twice
  obtain ⟨m, n, other, same⟩ := Finite.exists_ne_map_eq_of_infinite
    fun n => (⟨next^[n] i, (step n).lt.1⟩ : Fin layers.length)
  have same' : next^[m] i = next^[n] i := congrArg Fin.val same
  have circle : ∀ {m n}, m < n → next^[m] i = next^[n] i → Stuck layers i := by
    intro m n less same
    refine ⟨next^[m] i, by simpa using path 0 m, ?_⟩
    have around := path (m + 1) (n - (m + 1))
    rw [Nat.add_sub_cancel' less, ← same] at around
    exact .head' (step m) around
  rcases Nat.lt_or_gt_of_ne other with less | more
  · exact circle less same'
  · exact circle more same'.symm

namespace Sorting

variable {s : Sorting}

/-! ## The sorting goes on until nobody is ready -/

/-- The sorting after a number of steps. -/
def after (layers : List (LayerSpec ν)) (steps : Nat) : Sorting :=
  (place layers.toArray)^[steps] (start layers.toArray)

theorem after_succ (layers : List (LayerSpec ν)) (steps : Nat) :
    after layers (steps + 1) = (after layers steps).place layers.toArray :=
  Function.iterate_succ_apply' _ _ _

theorem run_eq_after (layers : List (LayerSpec ν)) :
    run layers.toArray = after layers layers.length := by
  rw [run, List.foldl_const, List.length_range, List.size_toArray, after]

theorem sound_after (layers : List (LayerSpec ν)) (steps : Nat) :
    Sound layers (after layers steps) := by
  induction steps with
  | zero => exact sound_start layers
  | succ steps ih => exact after_succ layers steps ▸ ih.place

theorem place_of_nobody (nobody : s.ready = []) : s.place layers.toArray = s := by
  rw [place, nobody]

theorem placed_place {rest : List Nat} (first : s.ready = j :: rest) :
    (s.place layers.toArray).placed = j :: s.placed := by
  rw [place, first]
  exact (released_foldl _ (nodup_dependents layers.toArray j)).placed

/-- Every step places somebody, as long as somebody is ready. -/
theorem nobody_or_length_after (layers : List (LayerSpec ν)) (steps : Nat) :
    (after layers steps).ready = [] ∨ (after layers steps).placed.length = steps := by
  induction steps with
  | zero => exact .inr rfl
  | succ steps ih =>
      rw [after_succ]
      cases first : (after layers steps).ready with
      | nil =>
          rw [place_of_nobody first]
          exact .inl first
      | cons j rest =>
          rw [placed_place first, List.length_cons]
          refine .inr (congrArg Nat.succ (ih.resolve_left ?_))
          rw [first]
          exact List.cons_ne_nil j rest

/-- In the end nobody is ready. -/
theorem ready_run (layers : List (LayerSpec ν)) : (run layers.toArray).ready = [] := by
  rw [run_eq_after]
  rcases nobody_or_length_after layers layers.length with nobody | all
  · exact nobody
  · refine List.eq_nil_iff_forall_not_mem.2 fun i listed => ?_
    have sound := sound_after layers layers.length
    obtain ⟨inside, unplaced, -⟩ := (sound.ready i).1 listed
    exact unplaced ((sound.perm all.ge).mem_iff.2 (List.mem_range.2 inside))

/-! ## Who is left over -/

/-- Who has been placed is not stuck. -/
theorem Sound.not_stuck (sound : Sound layers s) (placed : i ∈ s.placed) : ¬ Stuck layers i := by
  rintro ⟨j, path, circle⟩
  have down : ∀ {i j}, i ∈ s.placed → DependsAt layers i j →
      j ∈ s.placed ∧ s.placed.idxOf i < s.placed.idxOf j := by
    intro i j here depends
    obtain ⟨there, other⟩ := sound.closed i here j depends
    exact ⟨there, idxOf_lt_of_dependsAt sound.ordered here there other depends⟩
  have below : j ∈ s.placed := by
    clear circle
    induction path with
    | refl => exact placed
    | tail _ depends ih => exact (down ih depends).1
  have further : ∀ {k}, Relation.TransGen (DependsAt layers) j k →
      k ∈ s.placed ∧ s.placed.idxOf j < s.placed.idxOf k := by
    intro k path
    induction path with
    | single depends => exact down below depends
    | tail _ depends ih =>
        obtain ⟨there, less⟩ := down ih.1 depends
        exact ⟨there, Nat.lt_trans ih.2 less⟩
  exact Nat.lt_irrefl _ (further circle).2

/-- Who is left over misses somebody who is left over as well. -/
theorem Sound.onward (sound : Sound layers s) (nobody : s.ready = []) (inside : i < layers.length)
    (unplaced : i ∉ s.placed) :
    ∃ j, DependsAt layers i j ∧ j < layers.length ∧ j ∉ s.placed := by
  have misses : missing layers s.placed i ≠ [] := by
    intro nothing
    have listed := (sound.ready i).2 ⟨inside, unplaced, nothing⟩
    rw [nobody] at listed
    cases listed
  obtain ⟨j, missed⟩ := List.exists_mem_of_ne_nil _ misses
  obtain ⟨depends, unplaced'⟩ := mem_missing.1 missed
  exact ⟨j, depends, depends.lt.2, unplaced'⟩

/-- All are placed that are not stuck. -/
theorem mem_placed_run_iff (inside : i < layers.length) :
    i ∈ (run layers.toArray).placed ↔ ¬ Stuck layers i := by
  have sound := sound_run layers
  refine ⟨sound.not_stuck, fun free => ?_⟩
  by_contra unplaced
  refine free (stuck_of_forever (fun i => i < layers.length ∧ i ∉ (run layers.toArray).placed)
    (fun i left => ?_) ⟨inside, unplaced⟩)
  exact sound.onward (ready_run layers) left.1 left.2

/-- Who is stuck, and nobody else, waits for somebody in the end. -/
theorem waiting_run_pos_iff (inside : i < layers.length) :
    ((run layers.toArray).waiting[i]?).any (0 < ·) ↔ Stuck layers i := by
  have sound := sound_run layers
  rw [sound.waiting i inside, Option.any_some, decide_eq_true_iff, List.length_pos_iff]
  constructor
  · intro misses
    by_contra free
    obtain ⟨j, missed⟩ := List.exists_mem_of_ne_nil _ misses
    obtain ⟨depends, unplaced⟩ := mem_missing.1 missed
    exact unplaced (sound.closed i ((mem_placed_run_iff inside).2 free) j depends).1
  · intro stuck nothing
    have unplaced := mt (mem_placed_run_iff inside).1 (not_not_intro stuck)
    have listed := (sound.ready i).2 ⟨inside, unplaced, nothing⟩
    rw [ready_run] at listed
    cases listed

/-- Some are left over exactly if the dependencies run in a circle. -/
theorem length_placed_run_lt_iff :
    (run layers.toArray).placed.length < layers.length ↔
      ∃ i, Relation.TransGen (DependsAt layers) i i := by
  have sound := sound_run layers
  rw [← exists_stuck_iff, ← not_iff_not, Nat.not_lt]
  constructor
  · rintro all ⟨i, stuck⟩
    have placed := (sound.perm all).mem_iff.2 (List.mem_range.2 stuck.lt)
    exact sound.not_stuck placed stuck
  · intro free
    have all : List.range layers.length ⊆ (run layers.toArray).placed := fun i listed =>
      (mem_placed_run_iff (List.mem_range.1 listed)).2 fun stuck => free ⟨i, stuck⟩
    simpa using (List.subperm_of_subset List.nodup_range all).length_le

/-! ## Counts -/

/-- While the sorting runs, a constructor is about to have one dependency less to wait for: another
one has just been placed, and some of those that depend on it have been told before. -/
def Releases (layers : List (LayerSpec ν)) (s : Sorting) (i : Nat) : Prop :=
  ∃ steps j ready told later, (after layers steps).ready = j :: ready ∧
    dependents layers.toArray j = told ++ i :: later ∧
    s = told.foldl release
      { after layers steps with ready, placed := j :: (after layers steps).placed }

/-- A constructor that is about to wait for one less waits for one at least. -/
theorem Releases.waits (releases : Releases layers s i) : ∃ n, s.waiting[i]? = some (n + 1) := by
  obtain ⟨steps, j, ready, told, later, first, dependents, rfl⟩ := releases
  have sound := sound_after layers steps
  obtain ⟨-, unplaced, -⟩ := (sound.ready j).1 (first ▸ List.mem_cons_self)
  have listed : i ∈ Sorting.dependents layers.toArray j := by simp [dependents]
  have missed := (mem_dependents_iff_mem_missing unplaced).1 listed
  have nodup := dependents ▸ nodup_dependents layers.toArray j
  obtain ⟨nodup', -, apart⟩ := List.nodup_append.1 nodup
  have untold : i ∉ told := fun before => apart i before i List.mem_cons_self rfl
  rw [(released_foldl _ nodup').waiting, if_neg untold]
  refine ⟨(missing layers (after layers steps).placed i).length - 1, ?_⟩
  rw [sound.waiting i (mem_dependents.1 listed).lt.1,
    Nat.sub_add_cancel (List.length_pos_of_mem missed)]

end Sorting

end EffectFibers
