import EffectFibers.Proofs.PlansExact

/-!
# Graphs that are alike

The planning does not look at the identity of a constructor, nor at the tree that builds it.  So two
graphs that look the same place by place have the same plan, place by place, or are refused with the
same error.

Two graphs with the same constructors in different orders may have different plans, and an error may
name other constructors.  But whether there is a plan, and what kind of error there is otherwise, is
a matter of what the constructors produce and consume.

## Main definitions

* `LayerSpec.face` – what the planning sees of a constructor.
* `PlansAlike` – the same constructors in some order, or errors of one kind.

## Main statements

* `planLayers_of_faces` – graphs that look the same place by place.
* `plansAlike_of_twins` – graphs with the same constructors.
-/

namespace EffectFibers

variable {ν ν' : Type} {layers : List (LayerSpec ν)} {layers' : List (LayerSpec ν')}

/-! ## Place by place -/

/-- What the planning sees of a constructor: its name, its outputs and its inputs. -/
def LayerSpec.face (l : LayerSpec ν) : LayerSpec Unit :=
  { id := .none, name := l.name, outputs := l.outputs, inputs := l.inputs, build := () }

theorem clashWith_map_face (earlier : List (LayerSpec ν)) (l : LayerSpec ν) :
    clashWith (earlier.map (·.face)) l.face = clashWith earlier l := by
  unfold clashWith
  simp only [List.find?_map, Option.map_map]
  rfl

theorem clashAfter_map_face (seen layers : List (LayerSpec ν)) :
    clashAfter (seen.map (·.face)) (layers.map (·.face)) = clashAfter seen layers := by
  induction layers generalizing seen with
  | nil => rfl
  | cons l rest ih =>
      have later := ih (seen ++ [l])
      rw [List.map_append, List.map_singleton] at later
      rw [List.map_cons, clashAfter, clashAfter, clashWith_map_face, later]

namespace Sorting

theorem dependencies_map_face (layers : List (LayerSpec ν)) :
    dependencies (layers.map (·.face)).toArray = dependencies layers.toArray := by
  funext i
  unfold dependencies
  simp only [List.getElem?_toArray, List.getElem?_map, List.size_toArray, List.length_map]
  cases layers[i]? with
  | none => rfl
  | some consumer =>
      simp only [Option.map_some, Option.any_map]
      rfl

theorem dependents_map_face (layers : List (LayerSpec ν)) :
    dependents (layers.map (·.face)).toArray = dependents layers.toArray := by
  funext j
  unfold dependents
  simp only [List.getElem?_toArray, List.getElem?_map, List.size_toArray, List.length_map]
  cases layers[j]? with
  | none => rfl
  | some producer =>
      simp only [Option.map_some, Option.any_map]
      rfl

/-- The sorting goes by places. -/
theorem run_map_face (layers : List (LayerSpec ν)) :
    run (layers.map (·.face)).toArray = run layers.toArray := by
  have same : place (layers.map (·.face)).toArray = place layers.toArray := by
    funext s
    unfold place
    rw [dependents_map_face]
  unfold run start
  rw [same, dependencies_map_face]
  simp only [List.size_toArray, List.length_map]

end Sorting

/-- Two graphs that look the same place by place are refused with the same error, or have the same
plan by places. -/
theorem planLayers_of_faces (same : layers.map (·.face) = layers'.map (·.face)) :
    (∃ error, planLayers layers = .error error ∧ planLayers layers' = .error error) ∨
      ∃ order order', ∃ places : List Nat, planLayers layers = .ok order ∧
        planLayers layers' = .ok order' ∧ places.Perm (List.range layers.length) ∧
        order.map some = places.map (layers[·]?) ∧
        order'.map some = places.map (layers'[·]?) := by
  have length : layers.length = layers'.length := by simpa using congrArg List.length same
  have clash : firstClash layers = firstClash layers' := by
    have seen := clashAfter_map_face [] layers
    rw [same] at seen
    exact seen.symm.trans (clashAfter_map_face [] layers')
  have sorted : Sorting.run layers.toArray = Sorting.run layers'.toArray := by
    rw [← Sorting.run_map_face, same, Sorting.run_map_face]
  have names : ∀ i : Nat, (layers[i]?).map (·.name) = (layers'[i]?).map (·.name) := by
    intro i
    have look := congrArg (fun faces : List (LayerSpec Unit) => (faces[i]?).map (·.name)) same
    simpa [Function.comp_def, LayerSpec.face] using look
  cases first : firstClash layers with
  | some error =>
      exact .inl ⟨error, planLayers_of_clash first, planLayers_of_clash (clash ▸ first)⟩
  | none =>
      have clean := firstClash_eq_none_iff.1 first
      have clean' := firstClash_eq_none_iff.1 (clash ▸ first)
      rw [planLayers_of_clashFree clean, planLayers_of_clashFree clean', ← sorted, ← length]
      split
      · refine .inl ⟨_, rfl, ?_⟩
        simp only [names]
      · rename_i all
        have perm := (Sorting.sound_run layers).perm (Nat.not_lt.1 all)
        have inside : ∀ i ∈ (Sorting.run layers.toArray).placed.reverse, i < layers.length :=
          fun i listed => List.mem_range.1 (perm.mem_iff.1 (List.mem_reverse.1 listed))
        refine .inr ⟨_, _, (Sorting.run layers.toArray).placed.reverse, rfl, rfl,
          (List.reverse_perm _).trans perm, map_some_filterMap fun i listed => ?_,
          map_some_filterMap fun i listed => ?_⟩
        · simp [inside i listed]
        · simp [← length, inside i listed]

/-! ## In any order -/

/-- Two plans list the same constructors, or two graphs are refused for reasons of one kind. -/
def PlansAlike : Except LayerError (List (LayerSpec ν)) → Except LayerError (List (LayerSpec ν)) →
    Prop
  | .error error, .error error' => error.name = error'.name
  | .ok order, .ok order' => (order.map (·.id)).Perm (order'.map (·.id))
  | _, _ => False

/-- Every constructor of a graph has a twin in another graph: one of the same identity that consumes
and produces the same. -/
def HasTwins (layers layers' : List (LayerSpec ν)) : Prop :=
  ∀ l ∈ layers, ∃ l' ∈ layers', l'.id = l.id ∧ l'.inputs = l.inputs ∧ l'.outputs = l.outputs

section Twins

variable {layers layers' : List (LayerSpec ν)}

instance : Std.Symm fun l l' : LayerSpec ν => ¬ l.Clashes l' where
  symm _ _ apart := fun ⟨t, here, there⟩ => apart ⟨t, there, here⟩

/-- A clash is one of the twins, too. -/
theorem HasTwins.clashFree (twins : HasTwins layers layers') (nodup : (layers.map (·.id)).Nodup)
    (clean : ClashFree layers') : ClashFree layers := by
  refine (List.pairwise_map.1 nodup).imp_of_mem fun {l k} listed listed' other clashes => ?_
  obtain ⟨l', there, same, -, outputs⟩ := twins l listed
  obtain ⟨k', there', same', -, outputs'⟩ := twins k listed'
  have distinct : l' ≠ k' := by
    rintro rfl
    exact other (same.symm.trans same')
  have apart : ¬ l'.Clashes k' := List.Pairwise.forall clean there there' distinct
  unfold LayerSpec.Clashes at apart
  rw [outputs, outputs'] at apart
  exact apart clashes

/-- A circle is one of the twins, too. -/
theorem HasTwins.circle (twins : HasTwins layers layers')
    (circle : ∃ i, Relation.TransGen (DependsAt layers) i i) :
    ∃ i, Relation.TransGen (DependsAt layers') i i := by
  have placed : ∀ i : Nat, ∃ i' : Nat, ∀ l, layers[i]? = some l → ∃ l', layers'[i']? = some l' ∧
      l'.inputs = l.inputs ∧ l'.outputs = l.outputs := by
    intro i
    cases here : layers[i]? with
    | none => exact ⟨0, nofun⟩
    | some l =>
        obtain ⟨l', listed, -, same⟩ := twins l (List.mem_of_getElem? here)
        obtain ⟨i', there⟩ := List.getElem?_of_mem listed
        exact ⟨i', fun k found => ⟨l', there, Option.some.inj found ▸ same⟩⟩
  choose place there using placed
  obtain ⟨i, circle⟩ := circle
  refine ⟨place i, circle.lift place fun j k depends => ?_⟩
  obtain ⟨consumer, producer, here, here', depends⟩ := depends
  obtain ⟨consumer', found, inputs, -⟩ := there j consumer here
  obtain ⟨producer', found', -, outputs⟩ := there k producer here'
  refine ⟨consumer', producer', found, found', ?_⟩
  rw [LayerSpec.dependsOn, inputs, outputs]
  exact depends

/-- Two graphs with the same constructors have plans that are alike. -/
theorem plansAlike_of_twins (nodup : (layers.map (·.id)).Nodup)
    (nodup' : (layers'.map (·.id)).Nodup) (twins : HasTwins layers layers')
    (twins' : HasTwins layers' layers) : PlansAlike (planLayers layers) (planLayers layers') := by
  by_cases clean : ClashFree layers
  · have clean' := twins'.clashFree nodup' clean
    by_cases circle : ∃ i, Relation.TransGen (DependsAt layers) i i
    · obtain ⟨names, refused⟩ := (planLayers_eq_cycle_iff clean).2 circle
      obtain ⟨names', refused'⟩ := (planLayers_eq_cycle_iff clean').2 (twins.circle circle)
      rw [refused, refused']
      rfl
    · obtain ⟨order, -, planned, -⟩ := planLayers_of_acyclic clean circle
      obtain ⟨order', -, planned', -⟩ := planLayers_of_acyclic clean' (mt twins'.circle circle)
      have ids : (layers.map (·.id)).Perm (layers'.map (·.id)) := by
        refine (List.perm_ext_iff_of_nodup nodup nodup').2 fun id => ?_
        simp only [List.mem_map]
        constructor
        · rintro ⟨l, listed, rfl⟩
          obtain ⟨l', there, same, -⟩ := twins l listed
          exact ⟨l', there, same⟩
        · rintro ⟨l', listed, rfl⟩
          obtain ⟨l, there, same, -⟩ := twins' l' listed
          exact ⟨l, there, same⟩
      rw [planned, planned']
      exact ((planLayers_ok planned).1.map _).trans
        (ids.trans ((planLayers_ok planned').1.map _).symm)
  · have clean' : ¬ ClashFree layers' := mt (twins.clashFree nodup) clean
    rw [← firstClash_eq_none_iff] at clean clean'
    obtain ⟨error, clash⟩ := Option.ne_none_iff_exists'.1 clean
    obtain ⟨error', clash'⟩ := Option.ne_none_iff_exists'.1 clean'
    obtain ⟨_, _, _, rfl, -⟩ := firstClash_eq_some clash
    obtain ⟨_, _, _, rfl, -⟩ := firstClash_eq_some clash'
    rw [planLayers_of_clash clash, planLayers_of_clash clash']
    rfl

end Twins

end EffectFibers
