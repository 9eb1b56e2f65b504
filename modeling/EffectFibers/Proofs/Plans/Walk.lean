import EffectFibers.Proofs.Plans.Parts

/-!
# Walking over a tree whose parts are shared

One node may be a part of a tree in many places.  A walk that knows which places hold one node goes
over each node once: it keeps the places that are still to be looked at on a stack, and what it has
seen it does not look at again.  It does not matter what is shared.  The walk finds the first error
that there is in the whole tree, and if there is none it has seen every node.

Names for the places say what is shared: two places with one name hold one node.

## Main definitions

* `Node.get?` – the node in a place.
* `Node.Shares` – names under which places may share nodes.
* `Node.walk` – the walk, with the names that were seen and the error that was found.

## Main statements

* `Node.walk_eq_firstFailure?` – the error that a walk finds.
* `Node.nodup_walk`, `Node.mem_walk` – a walk without an error has seen every node, once.
-/

namespace EffectFibers.Node

variable {σ ι : Type}

/-- A place in a tree: which part to take at each step from the root on, the last step first. -/
abbrev Place := List Nat

/-- The node in a place. -/
def get? (root : Node σ) : Place → Option (Node σ)
  | [] => some root
  | i :: p => (root.get? p).bind fun n => n.parts[i]?

/-- Places with one name hold one node, with parts of the same names. -/
structure Shares (root : Node σ) (name : Place → ι) : Prop where
  node : ∀ {p q n m}, root.get? p = some n → root.get? q = some m → name p = name q → n = m
  parts : ∀ {p q n i}, root.get? p = some n → root.get? q = some n → name p = name q →
    i < n.parts.length → name (i :: p) = name (i :: q)

/-- The parts of a node with their places, the last part first. -/
def entries (p : Place) (n : Node σ) : List (Place × Node σ) :=
  (n.parts.mapIdx fun i m => (i :: p, m)).reverse

theorem map_snd_entries (p : Place) (n : Node σ) : (n.entries p).map (·.2) = n.parts.reverse := by
  rw [entries, List.map_reverse]
  congr 1
  exact List.ext_getElem (by simp) (by simp)

theorem sum_sizeOf_entries_lt (p : Place) (n : Node σ) :
    ((n.entries p).map fun entry => sizeOf entry.2).sum < sizeOf n := by
  have same : (n.entries p).map (fun entry => sizeOf entry.2) = (n.parts.map sizeOf).reverse := by
    rw [← List.map_reverse, ← map_snd_entries p, List.map_map]
    rfl
  rw [same, List.sum_reverse]
  exact n.sum_sizeOf_parts_lt

/-- Walk over what is on a stack, given the names that were seen before, the latest one first. -/
def walk [DecidableEq ι] (name : Place → ι) :
    List (Place × Node σ) → List ι → List ι × Option LayerError
  | [], seen => (seen, none)
  | (p, n) :: stack, seen =>
    if name p ∈ seen then walk name stack seen
    else
      match n.planFailure? with
      | some e => (name p :: seen, some e)
      | none => walk name (n.entries p ++ stack) (name p :: seen)
termination_by stack => (stack.map fun entry => sizeOf entry.2).sum
decreasing_by
  · have positive := Nat.lt_of_le_of_lt (Nat.zero_le _) (n.sum_sizeOf_entries_lt p)
    simpa using positive
  · simpa using n.sum_sizeOf_entries_lt p

variable {root n m : Node σ} {name : Place → ι} {p q : Place} {seen new : List ι}
  {stack : List (Place × Node σ)} {b : Nat}

/-! ## Places -/

theorem get?_entry (here : root.get? p = some n) (entry : (q, m) ∈ n.entries p) :
    root.get? q = some m ∧ m ∈ n.parts := by
  obtain ⟨j, inside, same⟩ := List.mem_mapIdx.1 (List.mem_reverse.1 entry)
  obtain ⟨rfl, rfl⟩ := Prod.mk.inj same
  exact ⟨by simp [get?, here, inside], List.getElem_mem inside⟩

theorem mem_entries {j : Nat} (inside : j < n.parts.length) :
    (j :: p, n.parts[j]) ∈ n.entries p :=
  List.mem_reverse.2 (List.mem_mapIdx.2 ⟨j, inside, rfl⟩)

/-! ## What is seen on the way -/

/-- What was seen is without errors, or the walk is still busy with it: then it is not smaller than
a bound. -/
def Behind (root : Node σ) (name : Place → ι) (b : Nat) (seen : List ι) : Prop :=
  ∀ i ∈ seen, ∃ p n, root.get? p = some n ∧ name p = i ∧ (n.firstFailure? = none ∨ b ≤ sizeOf n)

/-- What a walk has seen since, with all parts of it, and without errors. -/
def Adds (root : Node σ) (name : Place → ι) (new seen : List ι) : Prop :=
  ∀ i ∈ new, ∃ p n, root.get? p = some n ∧ name p = i ∧ n.firstFailure? = none ∧
    ∀ j, j < n.parts.length → name (j :: p) ∈ new ++ seen

/-- A walk that goes on with the parts of a node is busy with this node. -/
theorem Behind.busy (behind : Behind root name b seen) (here : root.get? p = some n)
    (small : sizeOf n < b) : Behind root name (sizeOf n) (name p :: seen) := by
  intro i listed
  rcases List.mem_cons.1 listed with rfl | before
  · exact ⟨p, n, here, rfl, .inr (Nat.le_refl _)⟩
  · obtain ⟨q, m, there, same, clean⟩ := behind i before
    exact ⟨q, m, there, same, clean.imp_right fun big => by omega⟩

theorem Behind.append (behind : Behind root name b seen) (adds : Adds root name new seen) :
    Behind root name b (new ++ seen) := by
  intro i listed
  rcases List.mem_append.1 listed with now | before
  · obtain ⟨p, n, there, same, clean, -⟩ := adds i now
    exact ⟨p, n, there, same, .inl clean⟩
  · exact behind i before

theorem Adds.append {newer : List ι} (first : Adds root name new seen)
    (second : Adds root name newer (new ++ seen)) : Adds root name (newer ++ new) seen := by
  intro i listed
  rcases List.mem_append.1 listed with late | early
  · obtain ⟨p, n, there, same, clean, parts⟩ := second i late
    exact ⟨p, n, there, same, clean, fun j inside => by
      rw [List.append_assoc]
      exact parts j inside⟩
  · obtain ⟨p, n, there, same, clean, parts⟩ := first i early
    exact ⟨p, n, there, same, clean, fun j inside => by
      rw [List.append_assoc]
      exact List.mem_append_right _ (parts j inside)⟩

variable [DecidableEq ι]

/-! ## What a walk has seen -/

/-- A walk sees nothing twice. -/
theorem nodup_walk (nodup : seen.Nodup) : (walk name stack seen).1.Nodup := by
  fun_induction walk name stack seen with
  | case1 => exact nodup
  | case2 seen p n stack known ih => exact ih nodup
  | case3 seen p n stack unknown e failed => exact List.nodup_cons.2 ⟨unknown, nodup⟩
  | case4 seen p n stack unknown planned ih => exact ih (List.nodup_cons.2 ⟨unknown, nodup⟩)

/-- A walk sees only what is in some place. -/
theorem exists_place_of_mem_walk (there : ∀ entry ∈ stack, root.get? entry.1 = some entry.2)
    (known : ∀ i ∈ seen, ∃ p n, root.get? p = some n ∧ name p = i) :
    ∀ i ∈ (walk name stack seen).1, ∃ p n, root.get? p = some n ∧ name p = i := by
  have more : ∀ {p n} {rest : List (Place × Node σ)} {seen : List ι},
      (∀ entry ∈ (p, n) :: rest, root.get? entry.1 = some entry.2) →
      (∀ i ∈ seen, ∃ p n, root.get? p = some n ∧ name p = i) →
      ∀ i ∈ name p :: seen, ∃ p n, root.get? p = some n ∧ name p = i := by
    intro p n rest seen there known i listed
    rcases List.mem_cons.1 listed with rfl | before
    · exact ⟨p, n, there (p, n) List.mem_cons_self, rfl⟩
    · exact known i before
  fun_induction walk name stack seen with
  | case1 => exact known
  | case2 seen p n stack _ ih =>
      exact ih (fun entry listed => there entry (List.mem_cons_of_mem _ listed)) known
  | case3 seen p n stack _ e _ => exact more there known
  | case4 seen p n stack _ _ ih =>
      refine ih (fun entry listed => ?_) (more there known)
      rcases List.mem_append.1 listed with part | later
      · exact (get?_entry (there _ List.mem_cons_self) part).1
      · exact there entry (List.mem_cons_of_mem _ later)

/-- What a walk comes to with some places on top of the stack: the first error, or the rest of the
stack when the places and all below them are seen. -/
def Passes (root : Node σ) (name : Place → ι) (seen : List ι) (stack : List (Place × Node σ))
    (places : List Place) (result : List ι × Option LayerError) : Option LayerError → Prop
  | some e => result.2 = some e
  | none => ∃ new, result = walk name stack (new ++ seen) ∧ Adds root name new seen ∧
    ∀ p ∈ places, name p ∈ new ++ seen

/-- The walk over several places, given how it goes over each of them. -/
theorem passes_places (places : List (Place × Node σ))
    (each : ∀ entry ∈ places, ∀ seen stack, Behind root name b seen → Passes root name seen stack
      [entry.1] (walk name (entry :: stack) seen) entry.2.firstFailure?)
    (behind : Behind root name b seen) :
    Passes root name seen stack (places.map (·.1)) (walk name (places ++ stack) seen)
      (places.findSome? (·.2.firstFailure?)) := by
  induction places generalizing seen with
  | nil => exact ⟨[], rfl, fun i listed => (nomatch listed), fun p listed => (nomatch listed)⟩
  | cons entry rest ih =>
      have first := each entry List.mem_cons_self seen (rest ++ stack) behind
      rw [List.findSome?_cons]
      cases failed : entry.2.firstFailure? with
      | some e => rwa [failed] at first
      | none =>
          rw [failed] at first
          obtain ⟨new, goes, adds, listed⟩ := first
          have later := ih (fun entry listed => each entry (List.mem_cons_of_mem _ listed))
            (behind.append adds)
          rw [List.cons_append, goes]
          generalize rest.findSome? (·.2.firstFailure?) = failure at later
          cases failure with
          | some e => exact later
          | none =>
              obtain ⟨newer, goes', adds', listed'⟩ := later
              refine ⟨newer ++ new, ?_, adds.append adds', fun p place => ?_⟩
              · rw [goes', List.append_assoc]
              · rw [List.append_assoc]
                rcases List.mem_cons.1 place with rfl | below
                · exact List.mem_append_right _ (listed _ List.mem_cons_self)
                · exact listed' p below

theorem findSome?_entries (p : Place) (n : Node σ) :
    (n.entries p).findSome? (·.2.firstFailure?) = n.parts.reverse.findSome? firstFailure? := by
  rw [← map_snd_entries p, List.findSome?_map]
  rfl

/-- The walk over one place. -/
theorem passes_place (shares : root.Shares name) (here : root.get? p = some n)
    (small : sizeOf n < b) (behind : Behind root name b seen) :
    Passes root name seen stack [p] (walk name ((p, n) :: stack) seen) n.firstFailure? := by
  induction size : sizeOf n using Nat.strongRecOn generalizing n p b seen stack with
  | ind s ih =>
      rw [walk]
      split
      · -- a node that was seen is not one that the walk is busy with, for it would hold itself
        rename_i known
        obtain ⟨q, m, there, same, clean⟩ := behind _ known
        obtain rfl := shares.node there here same
        rw [clean.resolve_right (by omega)]
        exact ⟨[], rfl, fun i listed => (nomatch listed), fun p' place => by simpa using
          (List.mem_singleton.1 place) ▸ known⟩
      · rename_i unknown
        cases failed : n.planFailure? with
        | some e =>
            rw [firstFailure?_eq, failed]
            rfl
        | none =>
            have each : ∀ entry ∈ n.entries p, ∀ seen stack, Behind root name (sizeOf n) seen →
                Passes root name seen stack [entry.1] (walk name (entry :: stack) seen)
                  entry.2.firstFailure? := by
              intro entry listed seen stack behind
              obtain ⟨there, part⟩ := get?_entry (m := entry.2) here listed
              exact ih _ (size ▸ sizeOf_lt_of_mem_parts part) there
                (sizeOf_lt_of_mem_parts part) behind rfl
            have parts : Passes root name (name p :: seen) stack _ _ _ :=
              passes_places (n.entries p) each (behind.busy here small)
            rw [findSome?_entries] at parts
            rw [firstFailure?_eq, failed, Option.none_or]
            generalize clean : n.parts.reverse.findSome? firstFailure? = failure at parts
            cases failure with
            | some e => exact parts
            | none =>
                obtain ⟨new, goes, adds, listed⟩ := parts
                have planned : n.firstFailure? = none := by
                  rw [firstFailure?_eq, failed, Option.none_or, clean]
                refine ⟨new ++ [name p], ?_, ?_, fun p' place => ?_⟩
                · rw [goes, List.append_assoc]
                  rfl
                · intro i added
                  rw [List.append_assoc]
                  rcases List.mem_append.1 added with now | first
                  · exact adds i now
                  · have same := (List.mem_singleton.1 first).symm
                    refine ⟨p, n, here, same, planned, fun j inside => ?_⟩
                    exact listed _ (List.mem_map_of_mem (mem_entries inside))
                · obtain rfl := List.mem_singleton.1 place
                  simp

/-! ## The whole walk -/

variable (root) in
/-- The walk over a whole tree. -/
def walkOver (name : Place → ι) : List ι × Option LayerError := walk name [([], root)] []

theorem passes_walkOver (shares : root.Shares name) :
    Passes root name [] [] [[]] (root.walkOver name) root.firstFailure? :=
  passes_place shares rfl (Nat.lt_succ_self _) fun _ listed => (nomatch listed)

/-- A walk finds the first error that there is. -/
theorem walk_eq_firstFailure? (shares : root.Shares name) :
    (root.walkOver name).2 = root.firstFailure? := by
  have passes := passes_walkOver shares
  cases failed : root.firstFailure? with
  | some e => rwa [failed] at passes
  | none =>
      rw [failed] at passes
      obtain ⟨new, goes, -⟩ := passes
      rw [goes, walk]

/-- A walk without an error has seen every node. -/
theorem mem_walk (shares : root.Shares name) (clean : (root.walkOver name).2 = none)
    (here : root.get? p = some n) : name p ∈ (root.walkOver name).1 := by
  have passes := passes_walkOver shares
  rw [← walk_eq_firstFailure? shares, clean] at passes
  obtain ⟨new, goes, adds, listed⟩ := passes
  rw [goes, walk]
  simp only [List.append_nil] at adds listed ⊢
  induction p generalizing n with
  | nil => exact listed [] List.mem_cons_self
  | cons j p ih =>
      obtain ⟨above, found, part⟩ := Option.bind_eq_some_iff.1 here
      obtain ⟨q, m, there, same, -, parts⟩ := adds _ (ih found)
      obtain rfl := shares.node there found same
      have inside : j < m.parts.length := (List.getElem?_eq_some_iff.1 part).1
      have seen := parts j inside
      rwa [shares.parts there found same inside, List.append_nil] at seen

end EffectFibers.Node
