import EffectFibers.Effect.Concurrent
import EffectFibers.Proofs.Moment
import EffectFibers.Proofs.PlansChecked
import EffectFibers.Proofs.Services.Contexts
import Mathlib.Logic.Relation

/-!
# Which operands are looked over

A program that is put together without continuations is known before it runs: every operand is at
hand when the combinator is applied.  What it needs is gathered from all of them.  The plans of its
layers are looked over in the tree only, and one combinator does not keep its operands in the tree:
the second operand of a sequence goes into the continuation of the node.  Waiting before an effect
is such a sequence.  So the operands that are in sight are all but those, and a program is rejected
exactly for the layers that are provided in sight.

## Main definitions

* `Assembly σ` – how a program is put together.
* `Assembly.operands`, `Assembly.shown` – the operands of a combinator, and those in its tree.
* `Assembly.Contains`, `Assembly.Shows` – what is somewhere in a program, and what is in sight.
* `Layer.Fails` – a layer has no plan, or is built by a tree that provides one.

## Main statements

* `Assembly.finds_iff` – looking over a program finds the layers that are in sight.
* `Machine.shown_operands_are_checked` – a program is rejected exactly for these.
-/

namespace EffectFibers

variable {σ : Type}

/-! ## Programs without continuations -/

/-- How a program is put together from effects, without user code that answers with an effect. -/
inductive Assembly (σ : Type) : Type
  /-- An effect without operands. -/
  | leaf (e : Effect σ) (plain : e.node.children = [])
  | map (source : Assembly σ) (f : Value → Action σ Value)
  | mapError (source : Assembly σ) (f : Failure → Action σ Failure)
  | zipRight (source next : Assembly σ)
  | delay (source : Assembly σ) (d : Duration)
  | ensuring (source finalizer : Assembly σ)
  | uninterruptible (source : Assembly σ)
  | provide (body : Assembly σ) (l : Layer σ)
  | retry (source : Assembly σ) (s : Schedule Failure)
  | repeating (source : Assembly σ) (s : Schedule Value)
  | raceAll (racers : List (Assembly σ))
  | timeout (source : Assembly σ) (limit : Duration)
  | allWith (children : List (Assembly σ)) (options : AllOptions)
  | allSettled (children : List (Assembly σ)) (concurrency : Concurrency)
  | fork (source : Assembly σ)
  | withLogSpan (source : Assembly σ) (label : String)

namespace Assembly

mutual

/-- The program. -/
def effect : Assembly σ → Effect σ
  | .leaf e _ => e
  | .map source f => source.effect.map f
  | .mapError source f => source.effect.mapError f
  | .zipRight source next => source.effect.zipRight next.effect
  | .delay source d => source.effect.delay d
  | .ensuring source finalizer => source.effect.ensuring finalizer.effect
  | .uninterruptible source => source.effect.uninterruptible
  | .provide body l => body.effect.provide l
  | .retry source s => source.effect.retry s
  | .repeating source s => source.effect.repeating s
  | .raceAll racers => .raceAll (effects racers)
  | .timeout source limit => source.effect.timeout limit
  | .allWith children options => .allWith (effects children) options
  | .allSettled children concurrency => .allSettled (effects children) concurrency
  | .fork source => source.effect.fork
  | .withLogSpan source label => source.effect.withLogSpan label

def effects : List (Assembly σ) → List (Effect σ)
  | [] => []
  | a :: rest => a.effect :: effects rest

end

theorem effects_eq_map (as : List (Assembly σ)) : effects as = as.map effect := by
  induction as with
  | nil => rfl
  | cons a rest ih => rw [effects, ih, List.map_cons]

/-- The operands of the last combinator. -/
def operands : Assembly σ → List (Assembly σ)
  | .leaf .. => []
  | .map source _ | .mapError source _ | .delay source _ | .uninterruptible source
  | .provide source _ | .retry source _ | .repeating source _ | .timeout source _ | .fork source
  | .withLogSpan source _ => [source]
  | .zipRight source other | .ensuring source other => [source, other]
  | .raceAll children | .allWith children _ | .allSettled children _ => children

/-- The operands that are in its tree: what is evaluated after a first effect is not. -/
def shown : Assembly σ → List (Assembly σ)
  | .zipRight source _ => [source]
  | .delay .. => []
  | a => a.operands

/-- A part that is put together somewhere in a program. -/
def Contains : Assembly σ → Assembly σ → Prop := Relation.ReflTransGen fun a b => b ∈ a.operands

/-- A part of a program that is in sight. -/
def Shows : Assembly σ → Assembly σ → Prop := Relation.ReflTransGen fun a b => b ∈ a.shown

variable {a b c body : Assembly σ} {l : Layer σ} {error : LayerError} {t : TagId}

/-- What is in sight is in the program. -/
theorem mem_operands_of_shown (shown : b ∈ a.shown) : b ∈ a.operands := by
  cases a with
  | zipRight source next => exact List.mem_cons.2 (.inl (List.mem_singleton.1 shown))
  | delay source d => cases shown
  | _ => exact shown

/-- What an operand needs, the program needs, unless it is provided right there.  It does not matter
whether the operand is in sight. -/
theorem needs_of_operand (operand : b ∈ a.operands) (needs : b.effect.requires.contains t = true) :
    a.effect.requires.contains t = true ∨ ∃ l, a = .provide b l ∧ t ∈ l.exports.ids := by
  have gathered : ∀ {as : List (Assembly σ)}, b ∈ as →
      (Requirements.unionAll ((effects as).map (·.requires))).contains t = true := by
    intro as listed
    rw [effects_eq_map, Requirements.contains_unionAll]
    exact ⟨_, List.mem_map_of_mem (List.mem_map_of_mem listed), needs⟩
  cases a with
  | leaf e plain => cases operand
  | zipRight source next =>
      left
      rcases List.mem_pair.1 operand with rfl | rfl <;>
        simp [effect, Effect.zipRight, needs]
  | ensuring source finalizer =>
      left
      rcases List.mem_pair.1 operand with rfl | rfl <;>
        simp [effect, Effect.ensuring, needs]
  | provide body l =>
      obtain rfl := List.mem_singleton.1 operand
      by_cases exported : t ∈ l.exports.ids
      · exact .inr ⟨l, rfl, exported⟩
      · exact .inl (Requirements.contains_union.2
          (.inl (Requirements.contains_without.2 ⟨needs, exported⟩)))
  | raceAll children => exact .inl (gathered operand)
  | allWith children options => exact .inl (gathered operand)
  | allSettled children concurrency => exact .inl (gathered operand)
  | timeout source limit =>
      obtain rfl := List.mem_singleton.1 operand
      left
      simp [effect, Effect.timeout, Effect.race, Effect.raceAll, needs]
  | delay source d =>
      obtain rfl := List.mem_singleton.1 operand
      left
      simp [effect, Effect.delay, Effect.zipRight, needs]
  | _ =>
      obtain rfl := List.mem_singleton.1 operand
      exact .inl needs

end Assembly

/-! ## Looking over -/

/-- A planning error comes to light when a tree is looked over. -/
def Node.Finds (n : Node σ) (error : LayerError) : Prop :=
  ∃ body exports, n.Reaches (.provide body (.error error) exports)

/-- A layer has no plan, or one of its constructors shows a layer that has none. -/
def Layer.Fails (l : Layer σ) (error : LayerError) : Prop :=
  l.plan = .error error ∨
    ∃ layers layer, l.plan = .ok layers ∧ layer ∈ layers ∧ layer.build.Finds error

namespace Node

variable {n m body : Node σ} {error : LayerError} {plan : LayerPlan σ} {exports : List TagId}

/-- One comes to the root, or to something by way of one of its parts. -/
theorem Reaches.eq_or_part (reached : n.Reaches m) : m = n ∨ ∃ k ∈ n.parts, k.Reaches m := by
  refine reached.induction (motive := fun m => m = n ∨ ∃ k ∈ n.parts, k.Reaches m) (.inl rfl) ?_
  rintro k m - (rfl | ⟨first, listed, before⟩) part
  · exact .inr ⟨m, part, .root⟩
  · exact .inr ⟨first, listed, before.part part⟩

theorem finds_iff : n.Finds error ↔ n.planFailure? = some error ∨ ∃ m ∈ n.parts, m.Finds error := by
  constructor
  · rintro ⟨body, exports, reached⟩
    rcases reached.eq_or_part with rfl | ⟨k, part, later⟩
    · exact .inl rfl
    · exact .inr ⟨k, part, body, exports, later⟩
  · rintro (here | ⟨k, part, body, exports, later⟩)
    · obtain ⟨body, exports, rfl⟩ := planFailure?_eq_some_iff.1 here
      exact ⟨body, exports, .root⟩
    · exact ⟨body, exports, (Reaches.root.part part).trans later⟩

/-- Only the children of a node are looked over that provides no layers. -/
theorem finds_iff_of_plain (clean : n.planFailure? = none) (bare : n.constructors = []) :
    n.Finds error ↔ ∃ m ∈ n.children, m.Finds error := by
  rw [finds_iff, parts, clean, bare]
  simp

theorem plain_of_children (bare : n.children = []) :
    n.planFailure? = none ∧ n.constructors = [] := by
  cases n with
  | provide body plan exports => cases bare
  | _ => exact ⟨rfl, rfl⟩

theorem finds_provide_iff (l : Layer σ) :
    (Node.provide body l.plan exports).Finds error ↔ l.Fails error ∨ body.Finds error := by
  rw [finds_iff, Layer.Fails]
  cases plan : l.plan with
  | error e => simp [planFailure?, parts, constructors, children]
  | ok layers => simp [planFailure?, parts, constructors, children]

/-- What a continuation answers with is not looked over. -/
theorem finds_flatMap_iff {source : Node σ} {next : Value → Action σ (Node σ)} :
    (Node.flatMap source next).Finds error ↔ source.Finds error := by
  rw [finds_iff_of_plain rfl rfl]
  simp [children]

theorem not_finds_sleep {d : Duration} : ¬ (Node.sleep d : Node σ).Finds error := by
  rw [finds_iff_of_plain rfl rfl]
  simp [children]

end Node

namespace Assembly

variable {a b body : Assembly σ} {l : Layer σ} {error : LayerError}

theorem finds_iff_of_children {n : Node σ} (clean : n.planFailure? = none)
    (bare : n.constructors = []) (same : n.children = a.shown.map (·.effect.node)) :
    n.Finds error ↔ ∃ b ∈ a.shown, b.effect.node.Finds error := by
  rw [Node.finds_iff_of_plain clean bare, same]
  simp

/-- A combinator that provides nothing lets one see the operands in its tree. -/
theorem finds_iff_of_shown (plain : ∀ body l, a ≠ .provide body l) :
    a.effect.node.Finds error ↔ ∃ b ∈ a.shown, b.effect.node.Finds error := by
  cases a with
  | leaf e bare =>
      obtain ⟨clean, alone⟩ := Node.plain_of_children bare
      exact finds_iff_of_children clean alone bare
  | provide body l => exact absurd rfl (plain body l)
  | raceAll racers =>
      refine finds_iff_of_children rfl rfl ?_
      simp [effect, effects_eq_map, Effect.raceAll, Node.children, shown, operands]
  -- the operands of these three are below a node that goes on with their results
  | allWith children options =>
      refine Node.finds_flatMap_iff.trans (finds_iff_of_children rfl rfl ?_)
      simp [effects_eq_map, Effect.allNode, Node.children, shown, operands]
  | allSettled children concurrency =>
      refine Node.finds_flatMap_iff.trans (finds_iff_of_children rfl rfl ?_)
      simp [effects_eq_map, Effect.allNode, Node.children, shown, operands]
  | fork source => exact Node.finds_flatMap_iff.trans (finds_iff_of_children rfl rfl rfl)
  -- and here the clock is a first effect
  | timeout source limit =>
      have clock : ¬ ((Effect.sleep limit).zipRight (.die (.timeout limit)) : Effect σ).node.Finds
          error := fun found => Node.not_finds_sleep (Node.finds_flatMap_iff.1 found)
      have racers : (Assembly.timeout source limit).effect.node.Finds error ↔
          source.effect.node.Finds error ∨
            ((Effect.sleep limit).zipRight (.die (.timeout limit)) : Effect σ).node.Finds error := by
        refine (Node.finds_iff_of_plain rfl rfl).trans ?_
        simp [effect, Effect.timeout, Effect.race, Effect.raceAll, Node.children]
      simpa [shown, operands, clock] using racers
  | delay source d =>
      refine iff_of_false (fun found => Node.not_finds_sleep (Node.finds_flatMap_iff.1 found)) ?_
      rintro ⟨b, listed, -⟩
      cases listed
  | _ => exact finds_iff_of_children rfl rfl rfl

theorem sizeOf_lt_of_shown (shown : b ∈ a.shown) : sizeOf b < sizeOf a := by
  have operand := mem_operands_of_shown shown
  cases a with
  | leaf e plain => cases operand
  | raceAll children | allWith children _ | allSettled children _ =>
      have smaller : sizeOf b < sizeOf children := List.sizeOf_lt_of_mem operand
      simp
      omega
  | zipRight source other | ensuring source other =>
      rcases List.mem_pair.1 operand with rfl | rfl <;> simp +arith
  | _ =>
      obtain rfl := List.mem_singleton.1 operand
      simp +arith

/-- What is found belongs to a layer that is provided in sight. -/
theorem shows_of_finds (a : Assembly σ) (found : a.effect.node.Finds error) :
    ∃ body l, a.Shows (.provide body l) ∧ l.Fails error := by
  by_cases provides : ∃ body l, a = .provide body l
  · obtain ⟨body, l, rfl⟩ := provides
    rcases (Node.finds_provide_iff l).1 found with fails | below
    · exact ⟨body, l, .refl, fails⟩
    · obtain ⟨body', l', shows, fails⟩ := shows_of_finds body below
      exact ⟨body', l', .head List.mem_cons_self shows, fails⟩
  · obtain ⟨b, shown, below⟩ :=
      (finds_iff_of_shown fun body l same => provides ⟨body, l, same⟩).1 found
    have smaller := sizeOf_lt_of_shown shown
    obtain ⟨body, l, shows, fails⟩ := shows_of_finds b below
    exact ⟨body, l, .head shown shows, fails⟩
termination_by sizeOf a

/-- Looking over a program finds what is wrong with the layers that are provided in sight. -/
theorem finds_iff : a.effect.node.Finds error ↔
    ∃ body l, a.Shows (.provide body l) ∧ l.Fails error := by
  constructor
  · intro found
    obtain ⟨body, l, shows, fails⟩ := shows_of_finds a found
    exact ⟨body, l, shows, fails⟩
  · rintro ⟨body, l, shows, fails⟩
    induction shows using Relation.ReflTransGen.head_induction_on with
    | refl => exact (Node.finds_provide_iff l).2 (.inl fails)
    | @head a b shown _ ih =>
        by_cases provides : ∃ body l, a = .provide body l
        · obtain ⟨body, l, rfl⟩ := provides
          obtain rfl := List.mem_singleton.1 shown
          exact (Node.finds_provide_iff l).2 (.inr ih)
        · exact (finds_iff_of_shown fun body l same => provides ⟨body, l, same⟩).2 ⟨b, shown, ih⟩

end Assembly

/-! ## Before a run -/

namespace Machine

variable {m : Machine σ} {a : Assembly σ}

/-- What is known about a program without continuations when a machine has looked it over. -/
structure ShownChecked (m : Machine σ) (a : Assembly σ) : Prop where
  /-- It is rejected exactly if a layer that is provided in sight fails. -/
  rejected_iff : (∃ error, m.launch a.effect = .error (.layer error)) ↔
    ∃ body l error, a.Shows (.provide body l) ∧ l.Fails error
  /-- The error is the error of such a layer. -/
  reported : ∀ error, m.launch a.effect = .error (.layer error) →
    ∃ body l, a.Shows (.provide body l) ∧ l.Fails error
  /-- Nothing has happened when it is rejected. -/
  unstarted : ∀ config error, config.validate = .ok () →
    m.launch a.effect = .error (.layer error) →
    m.runBlocking config a.effect = (.error (.layer error), m)
  /-- Otherwise it is accepted, whatever is provided out of sight. -/
  accepted : (∀ body l error, a.Shows (.provide body l) → ¬ l.Fails error) →
    ∃ started, m.launch a.effect = .ok started
  /-- What is needed is gathered from all operands, in sight or not. -/
  gathered : ∀ b c t, a.Contains b → c ∈ b.operands → c.effect.requires.contains t = true →
    b.effect.requires.contains t = true ∨ ∃ l, b = .provide c l ∧ t ∈ l.exports.ids

/-- Of a program without continuations, exactly the operands in sight are looked over before it
runs. -/
theorem shown_operands_are_checked (running : m.stopping = false)
    (satisfied : a.effect.requires.isEmpty = true) (identified : a.effect.node.Identified) :
    m.ShownChecked a where
  rejected_iff := by
    simp only [launch_eq_error_iff running satisfied]
    rw [Node.planError?_isSome_iff identified]
    constructor
    · rintro ⟨body, error, exports, reached⟩
      obtain ⟨b, l, shows, fails⟩ := Assembly.finds_iff.1 ⟨body, exports, reached⟩
      exact ⟨b, l, error, shows, fails⟩
    · rintro ⟨b, l, error, shows, fails⟩
      obtain ⟨body, exports, reached⟩ := Assembly.finds_iff.2 ⟨b, l, shows, fails⟩
      exact ⟨body, error, exports, reached⟩
  reported error rejected := Assembly.finds_iff.1
    (Node.reaches_of_planError? identified ((launch_eq_error_iff running satisfied).1 rejected))
  unstarted config error valid rejected := by rw [runBlocking, valid, rejected]
  accepted clean := by
    rw [launch, vet_eq running satisfied]
    cases failed : a.effect.node.planError? with
    | none => exact ⟨_, rfl⟩
    | some error =>
        obtain ⟨body, l, shows, fails⟩ :=
          Assembly.finds_iff.1 (Node.reaches_of_planError? identified failed)
        exact absurd fails (clean body l error shows)
  gathered b c t _ operand needs := Assembly.needs_of_operand operand needs

/-! ## One service with two producers -/

/-- A service that two layers produce. -/
def database : Tag := { id := ⟨1⟩, name := "Database" }

def producer (id : LayerId) (name : String) : LayerNode Nat where
  id := id
  name := name
  outputs := .of database
  inputs := .none
  build := .succeed (Layer.single database .null)

def twoProducers : Layer Nat where
  nodes := [producer ⟨1⟩ "first", producer ⟨2⟩ "second"]
  exports := .of database

/-- User code that counts its calls. -/
def counts : Assembly Nat :=
  .leaf (.sync do
    Action.modify (· + 1)
    return .null) rfl

def looksUp : Assembly Nat := .provide (.leaf (.service database) rfl) twoProducers

theorem looksUp_fails : twoProducers.Fails (.duplicateService "Database" "first" "second") :=
  .inl rfl

theorem identified_looksUp_zipRight : (Assembly.zipRight looksUp counts).effect.node.Identified := by
  rintro layer other ⟨body, layers, exports, reached, -⟩ - -
  rcases reached.eq_or_part with same | ⟨n, listed, reached⟩
  · cases same
  obtain rfl := List.mem_singleton.1 listed
  rcases reached.eq_or_part with same | ⟨n, listed, reached⟩
  · cases same
  obtain rfl := List.mem_singleton.1 listed
  rcases reached.eq_or_part with same | ⟨n, listed, -⟩
  · cases same
  · cases listed

/-- As the first operand of a sequence it is in sight, and the program is rejected. -/
theorem first_operand_is_checked : ∃ error, Machine.runBlocking (.standard 4) (.start { host := 0 })
    (Assembly.zipRight looksUp counts).effect = (.error (.layer error), .start { host := 0 }) := by
  have checked := shown_operands_are_checked (m := .start { host := 0 })
    (a := .zipRight looksUp counts) rfl rfl identified_looksUp_zipRight
  obtain ⟨error, rejected⟩ := checked.rejected_iff.2
    ⟨_, _, _, .single List.mem_cons_self, looksUp_fails⟩
  exact ⟨error, checked.unstarted (.standard 4) error rfl rejected⟩

/-- As the second operand it is not: the program is accepted, the code before it runs, and then the
fiber dies. -/
theorem second_operand_is_not_checked :
    (Assembly.zipRight counts looksUp).Contains looksUp ∧
    (∃ error, twoProducers.plan = .error error) ∧
    (Assembly.zipRight counts looksUp).effect.requires.isEmpty = true ∧
    ∃ started, Machine.launch (.start { host := 0 }) (Assembly.zipRight counts looksUp).effect =
        .ok (⟨1⟩, started) ∧
      let events : List (Event Nat) := List.replicate 12 .work
      (Moment.run { machine := started } events).machine.world.host = 1 ∧
      (Moment.run { machine := started } events).machine.status ⟨1⟩ = .died := by
  refine ⟨.single (List.mem_cons_of_mem _ List.mem_cons_self), ⟨_, rfl⟩, rfl, _, rfl, ?_, ?_⟩
  · rfl
  · rfl

end Machine

end EffectFibers
