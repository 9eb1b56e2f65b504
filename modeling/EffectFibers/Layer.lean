import EffectFibers.Layer.Plan

/-!
# Layers

A layer is a recipe for services: a graph of constructors, and the services that the graph lets
out.  Composing layers puts their constructors side by side and never builds anything.  Every
constructor has an identity, which copies and compositions keep; in one run a constructor is built
once, however many layers share it.

## Main definitions

* `Layer σ` – constructors in composition order, each identity once, and the exports.
* `Layer.merge`, `Layer.provide`, `Layer.provideMerge` – the three compositions.
* `Layer.requirements` – what the graph needs from outside.
-/

namespace EffectFibers

/-- A recipe for services. -/
structure Layer (σ : Type) where
  nodes : List (LayerNode σ)
  exports : Requirements

/-- Constructors in order, without those whose identity came before. -/
def unionNodes {σ : Type} (first second : List (LayerNode σ)) : List (LayerNode σ) :=
  (first ++ second).foldl
    (fun kept node => if kept.any (·.id == node.id) then kept else kept ++ [node]) []

namespace Layer

variable {σ : Type}

/-- The name of a layer that nobody has named. -/
def defaultName (t : Tag) : String := "Layer(" ++ t.name ++ ")"

/-- A layer of one constructor, with an identity of its own. -/
def atomic (t : Tag) (inputs : Requirements) (build : Node σ) : Action σ (Layer σ) := do
  let id ← Action.freshLayer
  return {
    nodes := [{ id, name := defaultName t, outputs := .of t, inputs, build }]
    exports := .of t }

/-- The context that holds one service. -/
def single (t : Tag) (service : Value) : Value := .context (Context.empty.insert t service)

/-- A layer for a service that exists already. -/
def succeed (t : Tag) (service : Value) : Action σ (Layer σ) :=
  atomic t .none (.succeed (single t service))

/-- A layer whose service is the value of a tree with the given requirements. -/
def ofNode (t : Tag) (source : Node σ) (requires : Requirements) : Action σ (Layer σ) :=
  atomic t requires
    (.flatMap source fun v => (match v with
      | .alien => pure (Node.die .typeMismatch)
      | service => Node.given (.ok (single t service)) : Action σ (Node σ)))

/-- Rename a layer of one constructor; any other layer stays as it is. -/
def named (l : Layer σ) (name : String) : Layer σ :=
  match l.nodes with
  | [node] => { l with nodes := [{ node with name }] }
  | _ => l

/-- Both layers side by side. -/
def merge (l m : Layer σ) : Layer σ :=
  { nodes := unionNodes l.nodes m.nodes, exports := l.exports.union m.exports }

/-- Feed one layer into another, and let out what the other one exports. -/
def provide (l dependency : Layer σ) : Layer σ :=
  { nodes := unionNodes dependency.nodes l.nodes, exports := l.exports }

/-- Feed one layer into another, and let out the exports of both. -/
def provideMerge (l dependency : Layer σ) : Layer σ :=
  { nodes := unionNodes dependency.nodes l.nodes
    exports := l.exports.union dependency.exports }

/-- A constructor under a new identity, with its failure changed. -/
def mapNodeError (f : Failure → Action σ Failure) (node : LayerNode σ) :
    Action σ (LayerNode σ) := do
  let id ← Action.freshLayer
  let handler : Failure → Action σ (Node σ) := fun failure =>
    match failure with
    | .alien => pure (Node.die .typeMismatch)
    | failure => do Node.given (.error (.fail (← f failure)))
  return { node with id, build := .recover node.build handler }

/-- Change the failures of every constructor.  The constructors are new ones. -/
def mapError (l : Layer σ) (f : Failure → Action σ Failure) : Action σ (Layer σ) := do
  return { l with nodes := ← l.nodes.mapM (mapNodeError f) }

/-- What the constructors need and none of them produces. -/
def requirements (l : Layer σ) : Requirements :=
  (Requirements.unionAll (l.nodes.map (·.inputs))).without
    (l.nodes.flatMap fun node => node.outputs.ids)

/-- The order in which the constructors are built. -/
def plan (l : Layer σ) : LayerPlan σ := planLayers l.nodes

def debug (l : Layer σ) : String :=
  Text.record "Layer"
    [("nodes", Text.bracketed (l.nodes.map fun node => Text.quoted node.name)),
     ("exports", l.exports.debug)]

end Layer

end EffectFibers
