import EffectFibers.Machine.Blocking
import EffectFibers.Proofs.Plans.Preflight
import EffectFibers.Proofs.Plans.Walk
import EffectFibers.Proofs.Progress.Strides

/-!
# Plans are checked before a run

A machine rejects a program exactly if one of the layer graphs that are visible in its tree has no
plan, and the error that it reports is the error of such a graph.  Whatever nodes of the tree are
shared, a walk that goes over each node once finds the same error.  Nothing has happened when a
program is rejected.  When it is accepted, no node of the tree that provides layers ever ends with a
layer defect of its own: there is one only below trees that user code answers with.

## Main definitions

* `Node.Walked` – what a walk over shared nodes finds.
* `Machine.PlansChecked` – what is known about a program when it was looked over.

## Main statements

* `Machine.plans_are_checked` – it holds for every program without requirements.
-/

namespace EffectFibers

variable {σ : Type}

/-! ## Looking over -/

namespace Node

variable {n root : Node σ} {error : LayerError}

/-- What a walk finds that goes over the nodes of a tree, given which places share a node: the error
that is reported, if there is one, and then it ends.  No node is visited twice, and without an error
all are visited. -/
structure Walked {ι : Type} [DecidableEq ι] (root : Node σ) (name : Place → ι) : Prop where
  error : (root.walkOver name).2 = root.planError?
  once : (root.walkOver name).1.Nodup
  inside : ∀ i ∈ (root.walkOver name).1, ∃ p n, root.get? p = some n ∧ name p = i
  everywhere : root.planError? = none → ∀ p n, root.get? p = some n →
    name p ∈ (root.walkOver name).1

theorem walked {ι : Type} [DecidableEq ι] {name : Place → ι} (identified : root.Identified)
    (shares : root.Shares name) : root.Walked name := by
  have found : (root.walkOver name).2 = root.planError? :=
    (walk_eq_firstFailure? shares).trans (planError?_eq_firstFailure? identified).symm
  refine ⟨found, nodup_walk List.nodup_nil, ?_, fun clean p n here => ?_⟩
  · refine exists_place_of_mem_walk (fun entry listed => ?_) (fun _ listed => nomatch listed)
    obtain rfl := List.mem_singleton.1 listed
    rfl
  · exact mem_walk shares (found.trans clean) here

/-- There is an error to report exactly if one comes to a graph without a plan. -/
theorem planError?_isSome_iff (identified : n.Identified) :
    (∃ error, n.planError? = some error) ↔
      ∃ body error exports, n.Reaches (.provide body (.error error) exports) := by
  rw [planError?_eq_firstFailure? identified]
  constructor
  · rintro ⟨error, failed⟩
    obtain ⟨m, reached, here⟩ := reaches_of_firstFailure? failed
    obtain ⟨body, exports, rfl⟩ := planFailure?_eq_some_iff.1 here
    exact ⟨body, error, exports, reached⟩
  · rintro ⟨body, error, exports, reached⟩
    cases clean : n.firstFailure? with
    | some first => exact ⟨first, rfl⟩
    | none => cases firstFailure?_eq_none_iff.1 clean _ reached

theorem reaches_of_planError? (identified : n.Identified) (failed : n.planError? = some error) :
    ∃ body exports, n.Reaches (.provide body (.error error) exports) := by
  rw [planError?_eq_firstFailure? identified] at failed
  obtain ⟨m, reached, here⟩ := reaches_of_firstFailure? failed
  obtain ⟨body, exports, rfl⟩ := planFailure?_eq_some_iff.1 here
  exact ⟨body, exports, reached⟩

end Node

/-! ## Layer defects in a run -/

namespace Machine

variable {m : Machine σ} {f : FiberId} {s : ScopeId} {e : Effect σ} {run : RunState σ}
  {build : LayerBuild σ} {text : String}

/-- Going on with a plan leads to a tree. -/
theorem advanceLayers_evaluates (f : FiberId) (s : ScopeId) (run : RunState σ) (m : Machine σ)
    (build : LayerBuild σ) (todo : List (LayerNode σ)) :
    ∃ node, (m.advanceLayers f s run build todo).control = .eval node := by
  induction todo generalizing m build with
  | nil => exact ⟨_, rfl⟩
  | cons layer rest ih =>
      unfold advanceLayers
      split
      · exact ih _ _
      · exact ⟨_, rfl⟩
      · exact ⟨_, rfl⟩

/-- What arrives with a layer defect at a layer frame has brought it along. -/
theorem layer_defect_of_resumeLayers {x : Exit}
    (dies : (m.resumeLayers f s run build x).control = .die (.layer text)) :
    x = Exit.died (.layer text) := by
  have evaluates : ∀ {m : Machine σ} {run : RunState σ} {build : LayerBuild σ}
      {todo : List (LayerNode σ)},
      (m.advanceLayers f s run build todo).control ≠ .die (.layer text) := by
    intro m run build todo dies
    obtain ⟨node, goes⟩ := advanceLayers_evaluates f s run m build todo
    cases goes.symm.trans dies
  unfold resumeLayers at dies
  split at dies
  · split at dies
    · cases dies
    · unfold endBuild at dies
      split at dies
      · exact absurd dies evaluates
      · cases dies
      · cases dies
      · cases dies
        rfl
  · split at dies
    · exact absurd dies evaluates
    · cases dies
      rfl

theorem vet_eq (running : m.stopping = false) (satisfied : e.requires.isEmpty = true) :
    m.vet e = match e.node.planError? with
      | some error => .error (.layer error)
      | none => .ok () := by
  rw [vet, running, satisfied]
  rfl

theorem launch_eq_error_iff (running : m.stopping = false) (satisfied : e.requires.isEmpty = true)
    {error : LayerError} :
    m.launch e = .error (.layer error) ↔ e.node.planError? = some error := by
  rw [launch, vet_eq running satisfied]
  cases e.node.planError? with
  | none => simp [bind, Except.bind, pure, Except.pure]
  | some first => simp [bind, Except.bind]

theorem planError?_of_launch {started : FiberId × Machine σ} (launched : m.launch e = .ok started) :
    e.node.planError? = none := by
  rw [launch, vet] at launched
  split at launched
  · cases launched
  · split at launched
    · cases launched
    · split at launched
      · cases launched
      · assumption

/-- What is known about a program when a machine has looked it over. -/
structure PlansChecked (m : Machine σ) (e : Effect σ) : Prop where
  /-- It is rejected exactly if one comes to a graph without a plan. -/
  rejected_iff : (∃ error, m.launch e = .error (.layer error)) ↔
    ∃ body error exports, e.node.Reaches (.provide body (.error error) exports)
  /-- The error is the error of such a graph. -/
  reported : ∀ error, m.launch e = .error (.layer error) →
    ∃ body exports, e.node.Reaches (.provide body (.error error) exports)
  /-- Otherwise it is accepted. -/
  accepted : (¬ ∃ error, m.launch e = .error (.layer error)) → ∃ started, m.launch e = .ok started
  /-- Each node is visited once, whatever is shared. -/
  walked : ∀ {ι : Type} [DecidableEq ι] (name : Node.Place → ι), e.node.Shares name →
    e.node.Walked name
  /-- The constructors of one layer identity are looked over once. -/
  identities : ∀ seen, e.node.preflight [] = .ok seen → seen.Nodup
  /-- Nothing has happened when it is rejected. -/
  unstarted : ∀ config error, config.validate = .ok () → m.launch e = .error (.layer error) →
    m.runBlocking config e = (.error (.layer error), m)
  /-- When it was accepted, then in no run a node that one comes to ends with a layer defect when it
  begins to provide its layers. -/
  planned : ∀ f m', m.launch e = .ok (f, m') → ∀ events g event s body plan exports,
    (Moment.run { machine := m' } events).strideAt g event = some s →
    e.node.Reaches (.provide body plan exports) →
    s.slice.run.next = .eval (.provide body plan exports) →
    ∀ text, s.result.control ≠ .die (.layer text)
  /-- And when the build of a layer, or the wait for one, comes to an end, there is a layer defect
  only if the exit brings it along. -/
  passed : ∀ (s : Stride σ) build below x text, s.Hands (.layers build :: below) x →
    s.result.control = .die (.layer text) → x = Exit.died (.layer text)

/-- Looking over a program is exact.  A program without requirements is rejected with a layer error
exactly if a graph that is visible in its tree has no plan; then nothing has happened, and
otherwise no visible graph causes a layer defect. -/
theorem plans_are_checked (running : m.stopping = false) (satisfied : e.requires.isEmpty = true)
    (identified : e.node.Identified) : m.PlansChecked e where
  rejected_iff := by
    simp only [launch_eq_error_iff running satisfied]
    exact Node.planError?_isSome_iff identified
  reported error rejected :=
    Node.reaches_of_planError? identified ((launch_eq_error_iff running satisfied).1 rejected)
  accepted clean := by
    simp only [launch_eq_error_iff running satisfied] at clean
    rw [launch, vet_eq running satisfied]
    cases failed : e.node.planError? with
    | some error => exact absurd ⟨error, failed⟩ clean
    | none => exact ⟨_, rfl⟩
  walked name shares := Node.walked identified shares
  identities seen clean := Node.nodup_of_preflight identified clean
  unstarted config error valid rejected := by rw [runBlocking, valid, rejected]
  planned f m' launched events g event s body plan exports stride reached evaluates text dies := by
    cases plan with
    | error error =>
        obtain ⟨first, failed⟩ := (Node.planError?_isSome_iff identified).2
          ⟨body, error, exports, reached⟩
        cases (planError?_of_launch launched).symm.trans failed
    | ok layers =>
        obtain ⟨node, goes⟩ := advanceLayers_evaluates s.slice.fiber s.scope
          (s.slice.run.push (.restore s.slice.run.context)) s.machine
          { body, exports, todo := layers, outer := s.slice.run.context, built := .empty
            owning := false } layers
        rw [Stride.result, stepRun, evaluates] at dies
        cases goes.symm.trans dies
  passed s build below x text hands dies := by
    rw [Stride.result, stepRun, hands.1, hands.2] at dies
    exact layer_defect_of_resumeLayers dies

/-! ## A graph without a plan in the constructor of a layer -/

/-- A tree that provides layers which depend on each other. -/
def circular : Node Unit := .provide (.succeed .null) (.error (.cycle ["first", "second"])) []

/-- A layer whose constructor has a finalizer with such layers. -/
def circularLayer : LayerNode Unit where
  id := ⟨1⟩
  name := "outer"
  outputs := .none
  inputs := .none
  build := .ensuring (.succeed (.context .empty)) circular

/-- A race, and one of the racers provides the layer. -/
def circularRace : Effect Unit where
  node := .race [.yield, .provide .yield (.ok [circularLayer]) []]

/-- What is visible of the race. -/
def circularNodes : List (Node Unit) :=
  [circularRace.node, .yield, .provide .yield (.ok [circularLayer]) [], circularLayer.build,
    .succeed (.context .empty), circular, .succeed .null]

theorem mem_circularNodes {n : Node Unit} (reached : circularRace.node.Reaches n) :
    n ∈ circularNodes := by
  have closed : ∀ n ∈ circularNodes, ∀ m ∈ n.parts, m ∈ circularNodes := by
    simp [circularNodes, Node.parts, Node.constructors, Node.children, circularRace, circularLayer,
      circular]
  exact reached.induction List.mem_cons_self fun _ known part => closed _ known _ part

theorem planned_circularRace {layer : LayerNode Unit} (planned : circularRace.node.Plans layer) :
    layer = circularLayer := by
  obtain ⟨body, layers, exports, reached, listed⟩ := planned
  have known := mem_circularNodes reached
  simp only [circularNodes, circularRace, circularLayer, circular, List.mem_cons, reduceCtorEq,
    Node.provide.injEq, Except.ok.injEq, false_or, or_false, List.not_mem_nil, false_and,
    and_false] at known
  obtain ⟨-, rfl, -⟩ := known
  exact List.mem_singleton.1 listed

/-- The race is rejected for the error in the constructor, and nothing has happened. -/
theorem circular_layer_is_rejected :
    ∃ error, Machine.runBlocking (.standard 4) (.start { host := () }) circularRace =
      (.error (.layer error), .start { host := () }) := by
  have checked := plans_are_checked (m := .start { host := () }) (e := circularRace) rfl rfl
    fun first second _ => by rw [planned_circularRace first, planned_circularRace second]
  have reached : circularRace.node.Reaches circular :=
    .child (.constructor (.child .root (List.mem_cons_of_mem _ List.mem_cons_self))
      List.mem_cons_self) (List.mem_cons_of_mem _ List.mem_cons_self)
  obtain ⟨error, rejected⟩ := checked.rejected_iff.2 ⟨_, _, _, reached⟩
  exact ⟨error, checked.unstarted (.standard 4) error rfl rejected⟩

end Machine

end EffectFibers
