import EffectFibers.Node

/-!
# Looking over a program before it starts

Before a program runs, every visible layer graph has to have a plan: those that the tree provides,
and those that the constructors of planned layers provide in turn.  The walk goes on with the last
child first, and with the constructors after the body; the first graph without a plan that it
meets is reported.  The constructors of one layer identity are looked over once.

## Main definitions

* `Node.preflight` – the walk, with the layer identities that were looked over.
* `Node.planError?` – the first planning error of a tree.
-/

namespace EffectFibers

mutual

/-- Walk a tree, given the layers that were looked over before. -/
def Node.preflight {σ : Type} :
    Node σ → List LayerId → Except LayerError (List LayerId)
  | .flatMap source _, seen | .recover source _, seen | .uninterruptible source, seen
  | .retry source _, seen | .repeated source _ _, seen | .fork source, seen
  | .span _ source, seen => source.preflight seen
  | .ensuring source finalizer, seen =>
    match finalizer.preflight seen with
    | .error e => .error e
    | .ok seen => source.preflight seen
  | .race children, seen | .all children _, seen => Node.preflightAll children seen
  | .provide body plan _, seen =>
    match plan with
    | .error e => .error e
    | .ok layers =>
      match body.preflight seen with
      | .error e => .error e
      | .ok seen => Node.preflightLayers layers seen
  | _, seen => .ok seen

/-- Walk trees, the last one first. -/
def Node.preflightAll {σ : Type} :
    List (Node σ) → List LayerId → Except LayerError (List LayerId)
  | [], seen => .ok seen
  | n :: rest, seen =>
    match Node.preflightAll rest seen with
    | .error e => .error e
    | .ok seen => n.preflight seen

/-- Walk the constructors of layers, the last one first, but none a second time. -/
def Node.preflightLayers {σ : Type} :
    List (LayerSpec (Node σ)) → List LayerId → Except LayerError (List LayerId)
  | [], seen => .ok seen
  | ⟨id, _, _, _, build⟩ :: rest, seen =>
    match Node.preflightLayers rest seen with
    | .error e => .error e
    | .ok seen => if id ∈ seen then .ok seen else build.preflight (id :: seen)

end

/-- The first planning error that the walk over a tree meets. -/
def Node.planError? {σ : Type} (n : Node σ) : Option LayerError :=
  match n.preflight [] with
  | .error e => some e
  | .ok _ => none

end EffectFibers
