import EffectFibers.Node

/-!
# Planning a layer graph

The constructors of a layer form a graph: one constructor depends on another that produces one of
its inputs.  A plan lists the constructors so that each comes after those it depends on, and of
all such orders it is the one that always takes the earliest constructor that is ready.  Inputs
that nobody in the graph produces come from outside and do not count.

There are two reasons why a graph has no plan.  Two constructors may produce the same service;
that is looked at first.  Or the dependencies may run in a circle, and then the constructors on
it, or behind it, are never ready.

## Main definitions

* `LayerSpec.dependsOn` – the dependency relation.
* `Sorting` – the state of the sorting: how many dependencies each constructor still waits for.
* `planLayers` – the plan, or the reason why there is none.
-/

namespace EffectFibers

variable {ν : Type}

/-- Whether a constructor consumes a service that the other one produces. -/
def LayerSpec.dependsOn (consumer producer : LayerSpec ν) : Bool :=
  consumer.inputs.ids.any producer.outputs.contains

/-! ## Services with two producers -/

/-- The first service of a constructor that one of the earlier ones produces as well. -/
def clashWith (earlier : List (LayerSpec ν)) (l : LayerSpec ν) : Option LayerError :=
  l.outputs.tags.entries.findSome? fun output =>
    (earlier.find? fun producer => producer.outputs.contains output.1).map fun producer =>
      .duplicateService output.2 producer.name l.name

/-- The first clash in composition order, after the constructors already seen. -/
def clashAfter (seen : List (LayerSpec ν)) : List (LayerSpec ν) → Option LayerError
  | [] => none
  | l :: rest =>
    match clashWith seen l with
    | some clash => some clash
    | none => clashAfter (seen ++ [l]) rest

/-- The first clash in composition order. -/
def firstClash (layers : List (LayerSpec ν)) : Option LayerError := clashAfter [] layers

/-! ## Sorting by dependency -/

/-- Put a number into an increasing list. -/
def insertIncreasing (n : Nat) : List Nat → List Nat
  | [] => [n]
  | m :: rest => if n ≤ m then n :: m :: rest else m :: insertIncreasing n rest

/-- A sorting under way.  Constructors go by their index in composition order. -/
structure Sorting where
  /-- For each constructor, how many of its dependencies have not been placed. -/
  waiting : Array Nat
  /-- The constructors that wait for nothing and have not been placed, in increasing order. -/
  ready : List Nat
  /-- The constructors placed so far, the latest one first. -/
  placed : List Nat

namespace Sorting

/-- The constructors that one depends on, by index. -/
def dependencies (layers : Array (LayerSpec ν)) (i : Nat) : List Nat :=
  match layers[i]? with
  | none => []
  | some consumer =>
    (List.range layers.size).filter fun j => (layers[j]?).any fun p => consumer.dependsOn p

/-- The constructors that depend on one, by index. -/
def dependents (layers : Array (LayerSpec ν)) (j : Nat) : List Nat :=
  match layers[j]? with
  | none => []
  | some producer =>
    (List.range layers.size).filter fun i => (layers[i]?).any fun c => c.dependsOn producer

/-- Nothing is placed yet. -/
def start (layers : Array (LayerSpec ν)) : Sorting :=
  let waiting := ((List.range layers.size).map fun i => (dependencies layers i).length).toArray
  { waiting
    ready := (List.range layers.size).filter fun i => waiting[i]? == some 0
    placed := [] }

/-- One dependency of a constructor has been placed. -/
def release (s : Sorting) (i : Nat) : Sorting :=
  let waiting := s.waiting.modify i (· - 1)
  { s with
    waiting
    ready := if waiting[i]? == some 0 then insertIncreasing i s.ready else s.ready }

/-- Place the earliest constructor that is ready. -/
def place (layers : Array (LayerSpec ν)) (s : Sorting) : Sorting :=
  match s.ready with
  | [] => s
  | j :: ready => (dependents layers j).foldl release { s with ready, placed := j :: s.placed }

/-- Place constructors until none is ready.  Each is placed once, so as many steps as there are
constructors are enough. -/
def run (layers : Array (LayerSpec ν)) : Sorting :=
  (List.range layers.size).foldl (fun s _ => s.place layers) (start layers)

end Sorting

/-- The plan of a layer graph, given in composition order. -/
def planLayers (layers : List (LayerSpec ν)) : Except LayerError (List (LayerSpec ν)) :=
  match firstClash layers with
  | some clash => .error clash
  | none =>
    let nodes := layers.toArray
    let sorted := Sorting.run nodes
    if sorted.placed.length < layers.length then
      .error (.cycle ((List.range nodes.size).filterMap fun i =>
        if (sorted.waiting[i]?).any (0 < ·) then (nodes[i]?).map (·.name) else none))
    else .ok (sorted.placed.reverse.filterMap fun i => nodes[i]?)

end EffectFibers
