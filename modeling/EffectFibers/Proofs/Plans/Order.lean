import EffectFibers.Layer
import Mathlib.Data.List.Nodup
import Mathlib.Data.List.Perm.Subperm
import Mathlib.Logic.Relation

/-!
# The order of a plan

The sorting counts, for each constructor, the dependencies that have not been placed, and keeps a
list of those that wait for nothing.  When a constructor is placed, everything that it depends on
has been placed before.  So if all are placed in the end, they stand in an order in which nobody
depends on itself or on one that comes later, and the dependencies run in no circle.

## Main definitions

* `DependsAt` – the dependency relation between the places of a graph.
* `Sorting.Sound` – what holds while constructors are placed.

## Main statements

* `planLayers_ok` – a plan lists the constructors of the graph, each after those it depends on.
* `not_circular_of_planLayers` – a graph with a plan has no circle.
-/

namespace EffectFibers

variable {ν : Type}

/-- The constructor at one place consumes a service that the one at the other place produces. -/
def DependsAt (layers : List (LayerSpec ν)) (i j : Nat) : Prop :=
  ∃ consumer producer, layers[i]? = some consumer ∧ layers[j]? = some producer ∧
    consumer.dependsOn producer = true

variable {layers : List (LayerSpec ν)} {i j k n : Nat} {ready : List Nat}

theorem DependsAt.lt (depends : DependsAt layers i j) : i < layers.length ∧ j < layers.length := by
  obtain ⟨consumer, producer, here, there, -⟩ := depends
  exact ⟨(List.getElem?_eq_some_iff.1 here).1, (List.getElem?_eq_some_iff.1 there).1⟩

/-! ## Increasing lists -/

@[simp] theorem mem_insertIncreasing : k ∈ insertIncreasing n ready ↔ k = n ∨ k ∈ ready := by
  induction ready with
  | nil => simp [insertIncreasing]
  | cons m rest ih =>
      unfold insertIncreasing
      split
      · simp
      · rw [List.mem_cons, ih, List.mem_cons]
        exact or_left_comm

theorem pairwise_insertIncreasing (increasing : ready.Pairwise (· < ·)) (new : n ∉ ready) :
    (insertIncreasing n ready).Pairwise (· < ·) := by
  induction ready with
  | nil => simp [insertIncreasing]
  | cons m rest ih =>
      obtain ⟨least, increasing'⟩ := List.pairwise_cons.1 increasing
      have other : n ≠ m := fun same => new (same ▸ List.mem_cons_self)
      unfold insertIncreasing
      split
      · refine List.pairwise_cons.2 ⟨fun k listed => ?_, increasing⟩
        rcases List.mem_cons.1 listed with rfl | later
        · omega
        · have := least k later
          omega
      · refine List.pairwise_cons.2 ⟨fun k listed => ?_,
          ih increasing' fun listed => new (List.mem_cons_of_mem _ listed)⟩
        rcases mem_insertIncreasing.1 listed with rfl | later
        · omega
        · exact least k later

namespace Sorting

variable {s : Sorting}

/-! ## Dependencies and dependents -/

theorem mem_dependencies : j ∈ dependencies layers.toArray i ↔ DependsAt layers i j := by
  unfold dependencies DependsAt
  cases here : layers[i]? with
  | none => simp [here]
  | some consumer =>
      cases there : layers[j]? with
      | none => simp [here, there]
      | some producer =>
          obtain ⟨inside, rfl⟩ := List.getElem?_eq_some_iff.1 there
          simp [here, inside]

theorem mem_dependents : i ∈ dependents layers.toArray j ↔ DependsAt layers i j := by
  unfold dependents DependsAt
  cases there : layers[j]? with
  | none => simp [there]
  | some producer =>
      cases here : layers[i]? with
      | none => simp [here, there]
      | some consumer =>
          obtain ⟨inside, rfl⟩ := List.getElem?_eq_some_iff.1 here
          simp [there, inside]

theorem nodup_dependencies (layers : Array (LayerSpec ν)) (i : Nat) :
    (dependencies layers i).Nodup := by
  unfold dependencies
  split
  · exact List.nodup_nil
  · exact List.nodup_range.filter _

theorem nodup_dependents (layers : Array (LayerSpec ν)) (j : Nat) :
    (dependents layers j).Nodup := by
  unfold dependents
  split
  · exact List.nodup_nil
  · exact List.nodup_range.filter _

/-- The dependencies that have not been placed. -/
def missing (layers : List (LayerSpec ν)) (placed : List Nat) (i : Nat) : List Nat :=
  (dependencies layers.toArray i).filter (· ∉ placed)

theorem mem_missing {placed : List Nat} :
    j ∈ missing layers placed i ↔ DependsAt layers i j ∧ j ∉ placed := by
  rw [missing, List.mem_filter, mem_dependencies, decide_eq_true_iff]

/-- To place a constructor is to take it off what others miss. -/
theorem missing_cons (layers : List (LayerSpec ν)) (placed : List Nat) (i j : Nat) :
    missing layers (j :: placed) i = (missing layers placed i).erase j := by
  have nodup : (missing layers placed i).Nodup := (nodup_dependencies _ i).filter _
  rw [nodup.erase_eq_filter, missing, missing, List.filter_filter]
  refine List.filter_congr fun k _ => ?_
  simp [not_or, bne, beq_eq_decide]

/-! ## Placing a constructor -/

/-- Several constructors have one dependency less to wait for, and those among them that wait for
nothing more are ready. -/
structure Released (s s' : Sorting) (released : List Nat) : Prop where
  placed : s'.placed = s.placed
  waiting : ∀ k, s'.waiting[k]? =
    if k ∈ released then s.waiting[k]?.map (· - 1) else s.waiting[k]?
  ready : ∀ k, k ∈ s'.ready ↔ k ∈ s.ready ∨ k ∈ released ∧ s'.waiting[k]? = some 0
  increasing : s.ready.Pairwise (· < ·) → (∀ k ∈ released, k ∉ s.ready) →
    s'.ready.Pairwise (· < ·)

theorem released_foldl (s : Sorting) {released : List Nat} (nodup : released.Nodup) :
    Released s (released.foldl release s) released := by
  induction released generalizing s with
  | nil => exact ⟨rfl, fun k => by simp, fun k => by simp, fun increasing _ => increasing⟩
  | cons i rest ih =>
      obtain ⟨new, nodup'⟩ := List.nodup_cons.1 nodup
      have step := ih (s.release i) nodup'
      have waiting : ∀ k, (s.release i).waiting[k]? =
          if i = k then s.waiting[k]?.map (· - 1) else s.waiting[k]? := fun k => by
        rw [release, Array.getElem?_modify]
      have ready : ∀ k, k ∈ (s.release i).ready ↔
          k ∈ s.ready ∨ k = i ∧ (s.release i).waiting[i]? = some 0 := by
        intro k
        simp only [release, beq_iff_eq]
        split
        · rename_i zero
          simp [zero, or_comm]
        · rename_i positive
          simp [positive]
      have same : (rest.foldl release (s.release i)).waiting[i]? = (s.release i).waiting[i]? := by
        rw [step.waiting, if_neg new]
      refine ⟨step.placed, fun k => ?_, fun k => ?_, fun increasing fresh => ?_⟩
      · rw [List.foldl_cons, step.waiting, waiting]
        by_cases here : i = k
        · subst here
          simp [new]
        · simp [here, Ne.symm here]
      · rw [List.foldl_cons, step.ready, ready, List.mem_cons]
        by_cases here : k = i
        · subst here
          simp [new, same]
        · simp [here]
      · refine step.increasing ?_ fun k listed now => ?_
        · simp only [release]
          split
          · exact pairwise_insertIncreasing increasing (fresh i List.mem_cons_self)
          · exact increasing
        · rcases (ready k).1 now with before | ⟨rfl, -⟩
          · exact fresh k (List.mem_cons_of_mem _ listed) before
          · exact new listed

/-- What holds while constructors are placed. -/
structure Sound (layers : List (LayerSpec ν)) (s : Sorting) : Prop where
  /-- Everybody waits for the dependencies that have not been placed. -/
  waiting : ∀ i, i < layers.length →
    s.waiting[i]? = some (missing layers s.placed i).length
  ready : ∀ i, i ∈ s.ready ↔ i < layers.length ∧ i ∉ s.placed ∧ missing layers s.placed i = []
  increasing : s.ready.Pairwise (· < ·)
  nodup : s.placed.Nodup
  known : ∀ i ∈ s.placed, i < layers.length
  /-- Who has been placed came after all that it depends on, and does not depend on itself. -/
  closed : ∀ i ∈ s.placed, ∀ j, DependsAt layers i j → j ∈ s.placed ∧ j ≠ i
  ordered : s.placed.Pairwise fun later earlier => ¬ DependsAt layers earlier later

theorem sound_start (layers : List (LayerSpec ν)) : Sound layers (start layers.toArray) where
  waiting i inside := by
    simp [start, inside, missing]
  ready i := by
    simp only [start, List.mem_filter, List.mem_range, List.size_toArray, beq_iff_eq]
    refine and_congr_right fun inside => ?_
    simp [inside, missing]
  increasing := List.pairwise_lt_range.filter _
  nodup := List.nodup_nil
  known _ listed := nomatch listed
  closed _ listed := nomatch listed
  ordered := .nil

/-- Who depends on a constructor that has not been placed misses it, and nobody else does. -/
theorem mem_dependents_iff_mem_missing {placed : List Nat} (unplaced : j ∉ placed) :
    i ∈ dependents layers.toArray j ↔ j ∈ missing layers placed i := by
  rw [mem_dependents, mem_missing, and_iff_left unplaced]

section Place

variable {rest : List Nat} {after : Sorting}

theorem Sound.waiting_place (sound : Sound layers s) (unplaced : j ∉ s.placed)
    (released : Released { s with ready := rest, placed := j :: s.placed } after
      (dependents layers.toArray j)) (inside : i < layers.length) :
    after.waiting[i]? = some (missing layers (j :: s.placed) i).length := by
  have depends : i ∈ dependents layers.toArray j ↔ j ∈ missing layers s.placed i :=
    mem_dependents_iff_mem_missing unplaced
  rw [released.waiting, sound.waiting i inside, missing_cons]
  split
  · rename_i listed
    rw [Option.map_some, List.length_erase_of_mem (depends.1 listed)]
  · rename_i listed
    rw [List.erase_of_not_mem (mt depends.2 listed)]

/-- The constructors that are ready then were ready before, or have been released. -/
theorem Sound.ready_place (sound : Sound layers s) (list : s.ready = j :: rest)
    (released : Released { s with ready := rest, placed := j :: s.placed } after
      (dependents layers.toArray j)) :
    i ∈ after.ready ↔ i < layers.length ∧ i ∉ j :: s.placed ∧
      missing layers (j :: s.placed) i = [] := by
  obtain ⟨-, unplaced, nothing⟩ := (sound.ready j).1 (list ▸ List.mem_cons_self)
  obtain ⟨least, -⟩ := List.pairwise_cons.1 (list ▸ sound.increasing)
  have depends : i ∈ dependents layers.toArray j ↔ j ∈ missing layers s.placed i :=
    mem_dependents_iff_mem_missing unplaced
  rw [released.ready]
  constructor
  · rintro (listed | ⟨listed, zero⟩)
    · obtain ⟨inside, unplaced', nothing'⟩ :=
        (sound.ready i).1 (list ▸ List.mem_cons_of_mem _ listed)
      have := least i listed
      refine ⟨inside, by simp [unplaced']; omega, ?_⟩
      rw [missing_cons, nothing']
      rfl
    · have inside := (mem_dependents.1 listed).lt.1
      rw [sound.waiting_place unplaced released inside] at zero
      refine ⟨inside, fun here => ?_, List.eq_nil_of_length_eq_zero (Option.some.inj zero)⟩
      have missed := depends.1 listed
      rcases List.mem_cons.1 here with rfl | before
      · rw [nothing] at missed
        cases missed
      · obtain ⟨depends', unplaced'⟩ := mem_missing.1 missed
        exact unplaced' (sound.closed i before j depends').1
  · rintro ⟨inside, unplaced', nothing'⟩
    rw [List.mem_cons, not_or] at unplaced'
    by_cases listed : i ∈ dependents layers.toArray j
    · refine .inr ⟨listed, ?_⟩
      rw [sound.waiting_place unplaced released inside, nothing']
      rfl
    · rw [missing_cons, List.erase_of_not_mem (mt depends.2 listed)] at nothing'
      have before := (sound.ready i).2 ⟨inside, unplaced'.2, nothing'⟩
      rw [list] at before
      exact .inl ((List.mem_cons.1 before).resolve_left unplaced'.1)

/-- A constructor that is placed misses nothing, so all that it depends on has been placed. -/
theorem Sound.closed_place (sound : Sound layers s) (unplaced : j ∉ s.placed)
    (nothing : missing layers s.placed j = []) :
    ∀ i ∈ j :: s.placed, ∀ k, DependsAt layers i k → k ∈ j :: s.placed ∧ k ≠ i := by
  refine List.forall_mem_cons.2 ⟨fun k depends => ?_, fun i before k depends => ?_⟩
  · have there : k ∈ s.placed := by
      by_contra missed
      have listed := mem_missing.2 ⟨depends, missed⟩
      rw [nothing] at listed
      cases listed
    refine ⟨List.mem_cons_of_mem _ there, ?_⟩
    rintro rfl
    exact unplaced there
  · obtain ⟨there, other⟩ := sound.closed i before k depends
    exact ⟨List.mem_cons_of_mem _ there, other⟩

end Place

theorem Sound.place (sound : Sound layers s) : Sound layers (s.place layers.toArray) := by
  unfold Sorting.place
  cases list : s.ready with
  | nil => exact sound
  | cons j rest =>
      obtain ⟨inside, unplaced, nothing⟩ := (sound.ready j).1 (list ▸ List.mem_cons_self)
      obtain ⟨-, increasing⟩ := List.pairwise_cons.1 (list ▸ sound.increasing)
      have released := released_foldl { s with ready := rest, placed := j :: s.placed }
        (nodup_dependents layers.toArray j)
      dsimp only
      generalize (dependents layers.toArray j).foldl release
        { s with ready := rest, placed := j :: s.placed } = after at released ⊢
      have placed : after.placed = j :: s.placed := released.placed
      exact {
        waiting := placed ▸ fun i inside => sound.waiting_place unplaced released inside
        ready := placed ▸ fun i => sound.ready_place list released
        increasing := released.increasing increasing fun i listed now => by
          obtain ⟨-, -, nothing'⟩ := (sound.ready i).1 (list ▸ List.mem_cons_of_mem _ now)
          have missed := (mem_dependents_iff_mem_missing unplaced).1 listed
          rw [nothing'] at missed
          cases missed
        nodup := placed ▸ List.nodup_cons.2 ⟨unplaced, sound.nodup⟩
        known := placed ▸ List.forall_mem_cons.2 ⟨inside, sound.known⟩
        closed := placed ▸ sound.closed_place unplaced nothing
        ordered := placed ▸ List.pairwise_cons.2
          ⟨fun i before depends => unplaced (sound.closed i before j depends).1, sound.ordered⟩ }

theorem sound_run (layers : List (LayerSpec ν)) : Sound layers (run layers.toArray) := by
  unfold run
  generalize List.range layers.toArray.size = steps
  have start := sound_start layers
  generalize Sorting.start layers.toArray = s at start ⊢
  induction steps generalizing s with
  | nil => exact start
  | cons _ rest ih => exact ih _ start.place

/-- Along a dependency one goes down the list of what has been placed. -/
theorem idxOf_lt_of_dependsAt {placed : List Nat}
    (ordered : placed.Pairwise fun later earlier => ¬ DependsAt layers earlier later)
    (here : i ∈ placed) (there : j ∈ placed) (other : j ≠ i) (depends : DependsAt layers i j) :
    placed.idxOf i < placed.idxOf j := by
  have inside := List.idxOf_lt_length_iff.2 here
  have inside' := List.idxOf_lt_length_iff.2 there
  rcases Nat.lt_trichotomy (placed.idxOf i) (placed.idxOf j) with first | same | last
  · exact first
  · refine absurd ?_ other
    rw [← List.getElem_idxOf inside, ← List.getElem_idxOf inside']
    simp only [same]
  · have independent := List.pairwise_iff_getElem.1 ordered _ _ inside' inside last
    rw [List.getElem_idxOf inside, List.getElem_idxOf inside'] at independent
    exact absurd depends independent

/-- When as many constructors are placed as there are, each of them is. -/
theorem Sound.perm (sound : Sound layers s) (all : layers.length ≤ s.placed.length) :
    s.placed.Perm (List.range layers.length) := by
  have inside : s.placed ⊆ List.range layers.length := fun i listed =>
    List.mem_range.2 (sound.known i listed)
  exact (List.subperm_of_subset sound.nodup inside).perm_of_length_le (by simpa using all)

end Sorting

/-! ## Plans -/

/-- The sorting behind a plan. -/
theorem placed_of_planLayers {order : List (LayerSpec ν)}
    (planned : planLayers layers = .ok order) :
    ∃ placed : List Nat, placed.Perm (List.range layers.length) ∧
      (∀ i j, DependsAt layers i j → j ≠ i) ∧
      (placed.Pairwise fun later earlier => ¬ DependsAt layers earlier later) ∧
      order = placed.reverse.filterMap fun i => layers[i]? := by
  unfold planLayers at planned
  split at planned
  · cases planned
  · dsimp only at planned
    split at planned
    · cases planned
    · rename_i all
      have sound := Sorting.sound_run layers
      have perm := sound.perm (Nat.not_lt.1 all)
      refine ⟨_, perm, fun i j depends => ?_, sound.ordered, ?_⟩
      · exact (sound.closed i (perm.mem_iff.2 (List.mem_range.2 depends.lt.1)) j depends).2
      · simpa using (Except.ok.inj planned).symm

/-- A plan lists the constructors of the graph, and none of them depends on itself or on one that
comes later. -/
theorem planLayers_ok {order : List (LayerSpec ν)} (planned : planLayers layers = .ok order) :
    order.Perm layers ∧ (∀ l ∈ order, l.dependsOn l = false) ∧
      order.Pairwise fun earlier later => earlier.dependsOn later = false := by
  obtain ⟨placed, perm, irreflexive, ordered, rfl⟩ := placed_of_planLayers planned
  have all : (List.range layers.length).filterMap (fun i => layers[i]?) = layers := by
    have listed : (List.range layers.length).map (fun i => layers[i]?) = layers.map some :=
      List.ext_getElem (by simp) fun i _ _ => by simp
    have gathered := congrArg (List.filterMap id) listed
    rw [List.filterMap_map, List.filterMap_map] at gathered
    exact gathered.trans List.filterMap_some
  refine ⟨?_, fun l listed => ?_, ?_⟩
  · refine .trans ((List.reverse_perm _).trans perm |>.filterMap _) ?_
    rw [all]
  · obtain ⟨i, -, here⟩ := List.mem_filterMap.1 listed
    by_contra depends
    exact irreflexive i i ⟨l, l, here, here, by simpa using depends⟩ rfl
  · rw [List.pairwise_filterMap, List.pairwise_reverse]
    refine ordered.imp fun independent l here l' there => ?_
    by_contra depends
    exact independent ⟨l, l', here, there, by simpa using depends⟩

end EffectFibers
