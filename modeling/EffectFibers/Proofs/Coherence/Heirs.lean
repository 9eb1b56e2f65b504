import EffectFibers.Proofs.Coherence.Family

/-!
# Marks reach down

An interrupt marks a fiber and everything below it, and a new child inherits the mark of its
parent.  So a marked fiber never has a child without a mark, except while its children are being
marked one after the other.

## Main definitions

* `Heirs` – the children of a marked fiber are marked.
-/

namespace EffectFibers

/-- The children of a marked fiber are marked, but for the fibers whose children are being marked
just now. -/
def Heirs (kin : FiberId → Option Kin) (marked : FiberId → Option Bool)
    (visiting : List FiberId) : Prop :=
  ∀ ⦃p k c⦄, kin p = some k → marked p = some true → p ∉ visiting → c ∈ k.children →
    marked c = some true

namespace Heirs

variable {kin kin' : FiberId → Option Kin} {marked : FiberId → Option Bool}
  {visiting : List FiberId} {f p : FiberId} {k : Kin} {b : Bool}

/-- Fewer children are marked all the more. -/
theorem mono (heirs : Heirs kin marked visiting)
    (fewer : ∀ p k', kin' p = some k' → ∃ k, kin p = some k ∧ k'.children ⊆ k.children) :
    Heirs kin' marked visiting := by
  intro p k' c row mark away listed
  obtain ⟨k, row', sub⟩ := fewer p k' row
  exact heirs row' mark away (sub listed)

/-- A change that gives a fiber no new child. -/
theorem update {k' : Kin} (heirs : Heirs kin marked visiting) (row : kin f = some k)
    (fewer : k'.children ⊆ k.children) :
    Heirs (Function.update kin f (some k')) marked visiting := by
  refine heirs.mono fun p k'' row' => ?_
  by_cases same : p = f
  · subst same
    rw [Function.update_self] at row'
    obtain rfl := Option.some.inj row'
    exact ⟨k, row, fewer⟩
  · rw [Function.update_of_ne same] at row'
    exact ⟨k'', row', List.Subset.refl _⟩

/-- A new fiber has no children, and nobody has known it. -/
theorem push (heirs : Heirs kin marked visiting) (fresh : marked f = none)
    (childless : k.children = []) :
    Heirs (Function.update kin f (some k)) (Function.update marked f (some b)) visiting := by
  intro p k' c row mark away listed
  by_cases same : p = f
  · subst same
    rw [Function.update_self] at row
    obtain rfl := Option.some.inj row
    simp [childless] at listed
  · rw [Function.update_of_ne same] at row mark
    have inherited := heirs row mark away listed
    rwa [Function.update_of_ne (by rintro rfl; simp [fresh] at inherited)]

/-- A new child that is marked if its parent is. -/
theorem child (heirs : Heirs kin marked visiting) (row : kin p = some k)
    (inherits : marked p = some true → marked f = some true) :
    Heirs (Function.update kin p (some { k with children := k.children ++ [f] })) marked
      visiting := by
  intro q k' c rowQ mark away listed
  by_cases same : q = p
  · subst same
    rw [Function.update_self] at rowQ
    obtain rfl := Option.some.inj rowQ
    rcases List.mem_append.1 listed with old | new
    · exact heirs row mark away old
    · obtain rfl := List.mem_singleton.1 new
      exact inherits mark
  · rw [Function.update_of_ne same] at rowQ
    exact heirs rowQ mark away listed

/-- A fiber is marked, and its children are to follow. -/
theorem mark (heirs : Heirs kin marked visiting) (f : FiberId) :
    Heirs kin (Function.update marked f (some true)) (f :: visiting) := by
  intro p k c row mark away listed
  rw [List.mem_cons, not_or] at away
  rw [Function.update_of_ne away.1] at mark
  have inherited := heirs row mark away.2 listed
  by_cases same : c = f
  · rw [same, Function.update_self]
  · rwa [Function.update_of_ne same]

/-- The children of one more fiber may be without a mark. -/
theorem await (heirs : Heirs kin marked visiting) (f : FiberId) :
    Heirs kin marked (f :: visiting) :=
  fun _ _ _ row mark away listed => heirs row mark (List.not_mem_of_not_mem_cons away) listed

/-- The children of a fiber have all been marked. -/
theorem leave (heirs : Heirs kin marked (f :: visiting))
    (all : ∀ k c, kin f = some k → c ∈ k.children → marked c = some true) :
    Heirs kin marked visiting := by
  intro p k c row mark away listed
  by_cases same : p = f
  · subst same
    exact all k c row listed
  · exact heirs row mark (by simp [same, away]) listed

end Heirs

end EffectFibers
