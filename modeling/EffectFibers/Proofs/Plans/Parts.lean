import EffectFibers.Preflight
import Mathlib.Algebra.GroupWithZero.Nat
import Mathlib.Algebra.Order.BigOperators.Group.List
import Mathlib.Algebra.Order.Group.Nat

/-!
# What is visible of a tree

Two kinds of parts of a node are visible before it runs: its children, and the constructors of the
layers that it provides, if these have a plan.  From part to part one comes to every node that can
be looked over in advance.  All of them are smaller than the tree, so there is an end to it.

## Main definitions

* `Node.parts` – the children of a node and the constructors that it provides.
* `Node.Reaches` – the nodes that one comes to.
* `Node.firstFailure?` – the first planning error on the way, the last parts first.

## Main statements

* `Node.firstFailure?_eq_none_iff` – there is none exactly if every graph on the way has a plan.
-/

namespace EffectFibers.Node

variable {σ : Type}

/-- The constructors of the layers that a node provides, if they have a plan. -/
def constructors : Node σ → List (Node σ)
  | .provide _ (.ok layers) _ => layers.map (·.build)
  | _ => []

/-- What is visible of a node. -/
def parts (n : Node σ) : List (Node σ) := n.constructors ++ n.children

/-- Why the layers that a node provides have no plan, if they have none. -/
def planFailure? : Node σ → Option LayerError
  | .provide _ (.error e) _ => some e
  | _ => none

/-- The nodes that one comes to from a root, through children and through the constructors of
planned layers. -/
inductive Reaches (root : Node σ) : Node σ → Prop
  | root : Reaches root root
  | child {n m} (reached : Reaches root n) (visible : m ∈ n.children) : Reaches root m
  | constructor {body layers exports layer}
    (reached : Reaches root (.provide body (.ok layers) exports)) (planned : layer ∈ layers) :
    Reaches root layer.build

variable {n m k root : Node σ} {e : LayerError}

theorem planFailure?_eq_some_iff :
    n.planFailure? = some e ↔ ∃ body exports, n = .provide body (.error e) exports := by
  constructor
  · intro failed
    unfold planFailure? at failed
    split at failed
    · obtain rfl := Option.some.inj failed
      exact ⟨_, _, rfl⟩
    · cases failed
  · rintro ⟨body, exports, rfl⟩
    rfl

/-! ## Parts -/

theorem mem_constructors_iff : m ∈ n.constructors ↔ ∃ body layers exports layer,
    n = .provide body (.ok layers) exports ∧ layer ∈ layers ∧ layer.build = m := by
  constructor
  · intro built
    unfold constructors at built
    split at built
    · obtain ⟨layer, planned, same⟩ := List.mem_map.1 built
      exact ⟨_, _, _, layer, rfl, planned, same⟩
    · cases built
  · rintro ⟨body, layers, exports, layer, rfl, planned, rfl⟩
    exact List.mem_map_of_mem planned

theorem Reaches.part (reached : root.Reaches n) (part : m ∈ n.parts) : root.Reaches m := by
  rcases List.mem_append.1 part with built | visible
  · obtain ⟨body, layers, exports, layer, rfl, planned, rfl⟩ := mem_constructors_iff.1 built
    exact .constructor reached planned
  · exact .child reached visible

/-- One comes to a node by way of parts. -/
theorem Reaches.induction {motive : Node σ → Prop} (first : motive root)
    (part : ∀ {n m}, root.Reaches n → motive n → m ∈ n.parts → motive m)
    (reached : root.Reaches n) : motive n := by
  induction reached with
  | root => exact first
  | child reached visible ih => exact part reached ih (List.mem_append_right _ visible)
  | constructor reached planned ih =>
      exact part reached ih (List.mem_append_left _ (List.mem_map_of_mem planned))

theorem Reaches.trans (first : root.Reaches n) (second : n.Reaches m) : root.Reaches m :=
  second.induction first fun _ reached part => reached.part part

private theorem sum_sizeOf_lt (nodes : List (Node σ)) : (nodes.map sizeOf).sum < sizeOf nodes := by
  induction nodes with
  | nil => simp
  | cons n rest ih =>
      simp only [List.map_cons, List.sum_cons, List.cons.sizeOf_spec]
      omega

private theorem sum_sizeOf_build_lt (layers : List (LayerSpec (Node σ))) :
    ((layers.map (·.build)).map sizeOf).sum < sizeOf layers := by
  induction layers with
  | nil => simp
  | cons layer rest ih =>
      obtain ⟨id, name, outputs, inputs, build⟩ := layer
      simp only [List.map_cons, List.sum_cons, List.cons.sizeOf_spec, LayerSpec.mk.sizeOf_spec]
      omega

/-- The parts of a node are smaller than the node, even all of them together. -/
theorem sum_sizeOf_parts_lt (n : Node σ) : (n.parts.map sizeOf).sum < sizeOf n := by
  rw [parts, List.map_append, List.sum_append]
  cases n with
  | provide body plan exports =>
      cases plan with
      | error e => simp [constructors, children]; omega
      | ok layers =>
          have small := sum_sizeOf_build_lt layers
          rw [Node.provide.sizeOf_spec, Except.ok.sizeOf_spec]
          show ((layers.map (·.build)).map sizeOf).sum + (sizeOf body + 0) < _
          omega
  | race nodes | all nodes =>
      have small := sum_sizeOf_lt nodes
      simp only [constructors, children, List.map_nil, List.sum_nil, Node.race.sizeOf_spec,
        Node.all.sizeOf_spec]
      omega
  | _ => simp [constructors, children]; try omega

theorem sizeOf_lt_of_mem_parts (part : m ∈ n.parts) : sizeOf m < sizeOf n := by
  have one : sizeOf m ≤ (n.parts.map sizeOf).sum :=
    List.le_sum_of_mem (List.mem_map_of_mem part)
  exact Nat.lt_of_le_of_lt one n.sum_sizeOf_parts_lt

/-! ## The first planning error -/

/-- The first planning error on the way through a tree that takes the last parts first. -/
def firstFailure? (n : Node σ) : Option LayerError :=
  n.planFailure?.or (n.parts.reverse.attach.findSome? fun m => m.1.firstFailure?)
termination_by sizeOf n
decreasing_by exact sizeOf_lt_of_mem_parts (List.mem_reverse.1 m.2)

theorem firstFailure?_eq (n : Node σ) :
    n.firstFailure? = n.planFailure?.or (n.parts.reverse.findSome? firstFailure?) := by
  rw [firstFailure?]
  congr 1
  calc n.parts.reverse.attach.findSome? (fun m => m.1.firstFailure?)
      = (n.parts.reverse.attach.map (·.1)).findSome? firstFailure? := (List.findSome?_map ..).symm
    _ = n.parts.reverse.findSome? firstFailure? := by rw [List.attach_map_subtype_val]

/-- One comes to the first error. -/
theorem reaches_of_firstFailure? (failed : n.firstFailure? = some e) :
    ∃ m, n.Reaches m ∧ m.planFailure? = some e := by
  induction size : sizeOf n using Nat.strongRecOn generalizing n with
  | ind s ih =>
      rw [firstFailure?_eq, Option.or_eq_some_iff] at failed
      rcases failed with here | ⟨-, below⟩
      · exact ⟨n, .root, here⟩
      · obtain ⟨m, part, failed⟩ := List.exists_of_findSome?_eq_some below
        have part := List.mem_reverse.1 part
        obtain ⟨k, reached, here⟩ := ih _ (size ▸ sizeOf_lt_of_mem_parts part) failed rfl
        exact ⟨k, (Reaches.part .root part).trans reached, here⟩

/-- There is no error exactly if every graph that one comes to has a plan. -/
theorem firstFailure?_eq_none_iff :
    n.firstFailure? = none ↔ ∀ m, n.Reaches m → m.planFailure? = none := by
  constructor
  · intro planned m reached
    refine And.left (b := m.firstFailure? = none) ?_
    have below : ∀ {k : Node σ}, k.firstFailure? = none →
        k.planFailure? = none ∧ ∀ m ∈ k.parts, m.firstFailure? = none := by
      intro k planned
      rw [firstFailure?_eq, Option.or_eq_none_iff, List.findSome?_eq_none_iff] at planned
      exact ⟨planned.1, fun m part => planned.2 m (List.mem_reverse.2 part)⟩
    exact reached.induction (motive := fun m => m.planFailure? = none ∧ m.firstFailure? = none)
      ⟨(below planned).1, planned⟩
      fun _ clean part => have clean := (below clean.2).2 _ part
        ⟨(below clean).1, clean⟩
  · intro planned
    cases failed : n.firstFailure? with
    | none => rfl
    | some e =>
        obtain ⟨m, reached, here⟩ := reaches_of_firstFailure? failed
        cases (planned m reached).symm.trans here

end EffectFibers.Node
