import EffectFibers.Proofs.Plans.Parts

/-!
# What looking over a program finds

The walk over a program does not go over the constructors of a layer identity a second time.  An
identity is handed out for one constructor, and copies of a layer keep both, so nothing is missed:
the walk reports the first graph without a plan that there is in the whole tree.

A constructor may provide layers in turn.  While the walk is busy with it, its identity counts as
seen, although there may be errors further on; but the layer cannot be met there again, as a
constructor is larger than everything that is visible of it.

## Main definitions

* `Node.Plans` – the planned layers that one comes to.
* `Node.Identified` – one identity, one constructor.

## Main statements

* `Node.planError?_eq_firstFailure?` – the walk finds the first error.
* `Node.nodup_of_preflight` – it looks over every identity once.
-/

namespace EffectFibers.Node

variable {σ : Type}

/-- The planned layers that one comes to from a root. -/
def Plans (root : Node σ) (layer : LayerNode σ) : Prop :=
  ∃ body layers exports, root.Reaches (.provide body (.ok layers) exports) ∧ layer ∈ layers

/-- The layers of a tree are told apart by their identities: an identity has one constructor. -/
def Identified (root : Node σ) : Prop :=
  ∀ {layer other}, root.Plans layer → root.Plans other → layer.id = other.id →
    layer.build = other.build

/-- An identity of a planned layer, with an answer about its constructor. -/
def Marks (root : Node σ) (answer : Node σ → Prop) (id : LayerId) : Prop :=
  ∃ layer, root.Plans layer ∧ layer.id = id ∧ answer layer.build

/-- What the walk knows of the identities that were seen: there are no errors below the
constructor, or the walk is busy with it, and then it is not smaller than a bound. -/
def Known (root : Node σ) (b : Nat) (seen : List LayerId) : Prop :=
  ∀ id ∈ seen, root.Marks (fun build => build.firstFailure? = none ∨ b ≤ sizeOf build) id

/-- What the walk over a part of a tree answers: the first error, or what it has seen, nothing of it
for the second time, and without errors below. -/
def Answers (root : Node σ) (seen : List LayerId) :
    Except LayerError (List LayerId) → Option LayerError → Prop
  | .error e, failure => failure = some e
  | .ok seen', failure => failure = none ∧ ∃ new, seen' = new ++ seen ∧
      (∀ id ∈ new, root.Marks (·.firstFailure? = none) id) ∧ (seen.Nodup → seen'.Nodup)

variable {root n : Node σ} {seen : List LayerId} {b : Nat} {failure : Option LayerError}

theorem Known.append {new : List LayerId} (known : root.Known b seen)
    (clean : ∀ id ∈ new, root.Marks (·.firstFailure? = none) id) : root.Known b (new ++ seen) := by
  intro id listed
  rcases List.mem_append.1 listed with now | before
  · obtain ⟨layer, planned, same, clean⟩ := clean id now
    exact ⟨layer, planned, same, .inl clean⟩
  · exact known id before

theorem Known.weaken {c : Nat} (known : root.Known b seen) (less : c ≤ b) : root.Known c seen := by
  intro id listed
  obtain ⟨layer, planned, same, clean⟩ := known id listed
  exact ⟨layer, planned, same, clean.imp_right less.trans⟩

theorem Answers.nothing : Answers root seen (.ok seen) none :=
  ⟨rfl, [], rfl, fun _ listed => (nomatch listed), id⟩

/-- One part after another. -/
theorem Answers.bind {answer : Except LayerError (List LayerId)}
    {next : List LayerId → Except LayerError (List LayerId)} {more : Option LayerError}
    (known : root.Known b seen)
    (second : ∀ seen, root.Known b seen → Answers root seen (next seen) more) :
    Answers root seen answer failure →
      Answers root seen (match answer with | .error e => .error e | .ok seen => next seen)
        (failure.or more) := by
  intro first
  cases answer with
  | error e =>
      obtain rfl : failure = some e := first
      rfl
  | ok seen' =>
      obtain ⟨rfl, new, rfl, clean, nodup⟩ := first
      have later := second _ (known.append clean)
      show Answers root seen (next (new ++ seen)) more
      generalize next (new ++ seen) = answer at later
      cases answer with
      | error e => exact later
      | ok seen' =>
          obtain ⟨planned, newer, rfl, clean', nodup'⟩ := later
          refine ⟨planned, newer ++ new, (List.append_assoc ..).symm, fun id listed => ?_,
            nodup' ∘ nodup⟩
          exact (List.mem_append.1 listed).elim (clean' id) (clean id)

/-- The walk over several trees, given how it goes over each of them. -/
theorem answers_preflightAll (nodes : List (Node σ))
    (each : ∀ n ∈ nodes, ∀ seen, root.Known b seen →
      Answers root seen (n.preflight seen) n.firstFailure?) (known : root.Known b seen) :
    Answers root seen (preflightAll nodes seen) (nodes.reverse.findSome? firstFailure?) := by
  induction nodes with
  | nil => exact .nothing
  | cons n rest ih =>
      rw [List.reverse_cons, List.findSome?_append, List.findSome?_singleton, preflightAll]
      exact .bind known (each n List.mem_cons_self)
        (ih fun n listed => each n (List.mem_cons_of_mem _ listed))

/-- The walk over constructors. -/
theorem answers_preflightLayers (identified : root.Identified) (layers : List (LayerNode σ))
    (each : ∀ layer ∈ layers, root.Plans layer ∧ sizeOf layer.build < b ∧
      ∀ seen, root.Known (sizeOf layer.build) seen →
        Answers root seen (layer.build.preflight seen) layer.build.firstFailure?)
    (known : root.Known b seen) :
    Answers root seen (preflightLayers layers seen)
      ((layers.map (·.build)).reverse.findSome? firstFailure?) := by
  induction layers with
  | nil => exact .nothing
  | cons layer rest ih =>
      obtain ⟨planned, small, goes⟩ := each layer List.mem_cons_self
      rw [List.map_cons, List.reverse_cons, List.findSome?_append, List.findSome?_singleton,
        preflightLayers]
      refine .bind known (fun seen known => ?_)
        (ih fun layer listed => each layer (List.mem_cons_of_mem _ listed))
      split
      · -- the walk is not busy with an identity that is met, for the constructor would hold itself
        rename_i met
        obtain ⟨other, planned', same, clean⟩ := known _ met
        rw [identified planned' planned same] at clean
        rw [clean.resolve_right (by omega)]
        exact .nothing
      · rename_i unmet
        have busy : root.Known (sizeOf layer.build) (layer.id :: seen) := by
          intro id listed
          rcases List.mem_cons.1 listed with rfl | before
          · exact ⟨layer, planned, rfl, .inr (Nat.le_refl _)⟩
          · exact known.weaken small.le id before
        have answers := goes _ busy
        generalize layer.build.preflight (layer.id :: seen) = answer at answers
        cases answer with
        | error e => exact answers
        | ok seen' =>
            obtain ⟨clean, new, rfl, marks, nodup⟩ := answers
            refine ⟨clean, new ++ [layer.id], by simp, fun id listed => ?_,
              fun before => nodup (List.nodup_cons.2 ⟨unmet, before⟩)⟩
            rcases List.mem_append.1 listed with now | first
            · exact marks id now
            · exact ⟨layer, planned, (List.mem_singleton.1 first).symm, clean⟩

/-- Over a node that provides nothing the walk goes as over its children. -/
theorem preflight_eq_preflightAll (plain : ∀ body plan exports, n ≠ .provide body plan exports) :
    n.preflight seen = preflightAll n.children seen := by
  cases n with
  | provide body plan exports => exact absurd rfl (plain body plan exports)
  | _ => simp [preflight, preflightAll, children]

/-- The walk over a node. -/
theorem answers_preflight (identified : root.Identified) (reached : root.Reaches n)
    (small : sizeOf n ≤ b) (known : root.Known b seen) :
    Answers root seen (n.preflight seen) n.firstFailure? := by
  induction size : sizeOf n using Nat.strongRecOn generalizing n b seen with
  | ind s ih =>
      have part : ∀ m ∈ n.parts, ∀ seen, root.Known (sizeOf m) seen →
          Answers root seen (m.preflight seen) m.firstFailure? := fun m part seen known =>
        ih _ (size ▸ sizeOf_lt_of_mem_parts part) (reached.part part) (Nat.le_refl _) known rfl
      have child : ∀ m ∈ n.children, ∀ seen, root.Known b seen →
          Answers root seen (m.preflight seen) m.firstFailure? := fun m listed seen known =>
        have listed := List.mem_append_right _ listed
        part m listed seen (known.weaken ((sizeOf_lt_of_mem_parts listed).le.trans small))
      rw [firstFailure?_eq]
      by_cases plain : ∀ body plan exports, n ≠ .provide body plan exports
      · have nothing : n.planFailure? = none ∧ n.constructors = [] := by
          cases n with
          | provide body plan exports => exact absurd rfl (plain body plan exports)
          | _ => exact ⟨rfl, rfl⟩
        rw [preflight_eq_preflightAll plain, nothing.1, parts, nothing.2]
        exact answers_preflightAll _ child known
      · push Not at plain
        obtain ⟨body, plan, exports, rfl⟩ := plain
        cases plan with
        | error e => exact rfl
        | ok layers =>
            have goes : ∀ layer ∈ layers, root.Plans layer ∧ sizeOf layer.build < b ∧
                ∀ seen, root.Known (sizeOf layer.build) seen →
                  Answers root seen (layer.build.preflight seen) layer.build.firstFailure? := by
              intro layer planned
              have listed : layer.build ∈ parts (.provide body (.ok layers) exports) :=
                List.mem_append_left _ (List.mem_map_of_mem planned)
              exact ⟨⟨body, layers, exports, reached, planned⟩,
                (sizeOf_lt_of_mem_parts listed).trans_le small, part _ listed⟩
            have order : (parts (.provide body (.ok layers) exports)).reverse.findSome?
                firstFailure? = body.firstFailure?.or
                  ((layers.map (·.build)).reverse.findSome? firstFailure?) := by
              rw [parts, constructors, children, List.reverse_append, List.findSome?_append]
              simp
            rw [order, preflight]
            show Answers root seen _ (body.firstFailure?.or _)
            exact .bind known (fun seen known => answers_preflightLayers identified layers goes known)
              (child body List.mem_cons_self _ known)

theorem answers_preflight_nil (identified : n.Identified) :
    Answers n [] (n.preflight []) n.firstFailure? :=
  answers_preflight identified .root (Nat.le_refl _) fun _ listed => nomatch listed

/-- Looking over a program finds the first error that there is. -/
theorem planError?_eq_firstFailure? (identified : n.Identified) :
    n.planError? = n.firstFailure? := by
  have answers := answers_preflight_nil identified
  unfold planError?
  generalize n.preflight [] = answer at answers
  cases answer with
  | error e => exact answers.symm
  | ok seen => exact answers.1.symm

/-- No identity is looked over twice. -/
theorem nodup_of_preflight (identified : n.Identified) (clean : n.preflight [] = .ok seen) :
    seen.Nodup := by
  have answers := answers_preflight_nil identified
  rw [clean] at answers
  obtain ⟨-, -, -, -, nodup⟩ := answers
  exact nodup List.nodup_nil

end EffectFibers.Node
