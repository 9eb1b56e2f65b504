import EffectFibers.Machine.State
import Mathlib.Logic.Function.Basic
import Mathlib.Data.List.Nodup
import Mathlib.Data.List.Count

/-!
# Families of fibers

A fiber knows its parent and lists its live children.  When its program has ended it counts the
children that are still to end, and each of them holds one request to report its end.

While a fiber ends, its family is for a moment not in order: the fiber that leaves has no children
any more, and its parent is late to hear of it; children of a fiber whose program has just ended
are asked for their report one after the other.  These exceptions are parameters of the
invariant.

## Main definitions

* `Kin` – what the family of a fiber consists of.
* `Family` – families are in order.
-/

namespace EffectFibers

variable {σ : Type}

/-- The ending fiber that has asked for a report. -/
def Observer.asker? : Observer → Option FiberId
  | .closing parent => some parent
  | .watcher .. => none

/-- The part of a fiber that concerns its family. -/
structure Kin where
  parent : Option FiberId
  children : List FiberId
  /-- The terminal status, once the fiber has ended. -/
  verdict : Option FiberStatus
  closing : Option Closing
  /-- The ending fibers that have asked for a report. -/
  askers : List FiberId

/-- The terminal status of a fiber that has ended. -/
def Fiber.verdict (fiber : Fiber σ) : Option FiberStatus :=
  if fiber.status.isTerminal then some fiber.status else none

def Fiber.kin (fiber : Fiber σ) : Kin where
  parent := fiber.parent
  children := fiber.children
  verdict := fiber.verdict
  closing := fiber.closing
  askers := fiber.observers.filterMap Observer.asker?

/-- The exits that a log holds for a fiber. -/
def exitsOf (exits : List (FiberId × Exit)) (f : FiberId) : List Exit :=
  (exits.filter (·.1 = f)).map (·.2)

theorem exitsOf_append_self (exits : List (FiberId × Exit)) (f : FiberId) (exit : Exit) :
    exitsOf (exits ++ [(f, exit)]) f = exitsOf exits f ++ [exit] := by
  simp [exitsOf]

theorem exitsOf_append_of_ne {f g : FiberId} (exits : List (FiberId × Exit)) (exit : Exit)
    (unequal : f ≠ g) : exitsOf (exits ++ [(f, exit)]) g = exitsOf exits g := by
  simp [exitsOf, unequal]

/-- Families are in order, but for the fiber that is `leaving`, the one that is `late` to hear of
the end of a child, and the children that are still `unasked`.  The log holds every birth and, for
each fiber that has ended, its one exit.  A `promise` is the exit of a program that has ended. -/
structure Family (kin : FiberId → Option Kin) (births : List (FiberId × FiberId))
    (exits : List (FiberId × Exit)) (leaving late : Option FiberId) (unasked : List FiberId)
    (promise : Option (FiberId × Exit)) : Prop where
  parent_older : ∀ {f k p}, kin f = some k → k.parent = some p →
    p.raw < f.raw ∧ (kin p).isSome
  mem_children : ∀ {p k c}, kin p = some k →
    (c ∈ k.children ↔ ∃ kc, kin c = some kc ∧ kc.parent = some p ∧ kc.verdict = none)
  nodup_children : ∀ {p k}, kin p = some k → k.children.Nodup
  ended_alone : ∀ {f k}, kin f = some k → k.verdict ≠ none → k.children = [] ∧ k.closing = none
  leaving_alone : ∀ {f}, leaving = some f →
    ∃ k, kin f = some k ∧ k.verdict = none ∧ k.children = []
  closing_count : ∀ {p k c}, kin p = some k → k.closing = some c → leaving ≠ some p →
    c.remaining = k.children.length + (if late = some p then 1 else 0) ∧ 0 < c.remaining
  nodup_askers : ∀ {c kc}, kin c = some kc → kc.verdict = none → kc.askers.Nodup
  mem_askers : ∀ {c kc q}, kin c = some kc → kc.verdict = none →
    (q ∈ kc.askers ↔
      kc.parent = some q ∧ c ∉ unasked ∧ ∃ kq, kin q = some kq ∧ kq.closing.isSome)
  birth : ∀ {c p}, (c, p) ∈ births → ∃ k, kin c = some k ∧ k.parent = some p
  born : ∀ {c k p}, kin c = some k → k.parent = some p → (c, p) ∈ births
  exits_none : ∀ {f}, (∀ k, kin f = some k → k.verdict = none) → exitsOf exits f = []
  exits_one : ∀ {f k s}, kin f = some k → k.verdict = some s →
    ∃ x, exitsOf exits f = [x] ∧ Exit.status x = s
  promised : ∀ {f x}, promise = some (f, x) →
    ∃ k, kin f = some k ∧ ((k.verdict = none ∧ ∃ c, k.closing = some c ∧ c.exit = x) ∨
      exitsOf exits f = [x])

namespace Family

variable {kin : FiberId → Option Kin} {births : List (FiberId × FiberId)}
  {exits : List (FiberId × Exit)} {leaving late : Option FiberId} {unasked : List FiberId}
  {promise : Option (FiberId × Exit)}

/-- At most the parent of a live fiber has asked for a report. -/
theorem askers_eq (family : Family kin births exits leaving late unasked promise) {f : FiberId}
    {k : Kin} (row : kin f = some k) (live : k.verdict = none) :
    k.askers = [] ∨ ∃ p, k.parent = some p ∧ k.askers = [p] := by
  have nodup := family.nodup_askers row live
  have parents : ∀ q ∈ k.askers, k.parent = some q := fun q mem =>
    ((family.mem_askers row live).1 mem).1
  match askers : k.askers with
  | [] => exact .inl rfl
  | [p] => exact .inr ⟨p, parents p (by simp [askers]), rfl⟩
  | p :: q :: rest =>
      have same := (parents p (by simp [askers])).symm.trans (parents q (by simp [askers]))
      rw [askers] at nodup
      simp [Option.some.inj same] at nodup

/-- The exit that was promised for a live fiber is the one that it keeps. -/
theorem promised_eq (family : Family kin births exits leaving late unasked promise) {f : FiberId}
    {k : Kin} {x : Exit} (row : kin f = some k) (live : k.verdict = none)
    (promise_eq : promise = some (f, x)) : ∃ c, k.closing = some c ∧ c.exit = x := by
  obtain ⟨k', row', h⟩ := family.promised promise_eq
  obtain rfl := Option.some.inj (row.symm.trans row')
  rcases h with ⟨-, h⟩ | h
  · exact h
  · have none := family.exits_none (f := f) fun k' row' => by
      obtain rfl := Option.some.inj (row.symm.trans row')
      exact live
    simp [none] at h

/-- An ending fiber that is not late to hear of anything has a live child. -/
theorem exists_child_of_closing (family : Family kin births exits leaving late unasked promise)
    {p : FiberId} {k : Kin} {c : Closing} (row : kin p = some k) (closing : k.closing = some c)
    (stays : leaving ≠ some p) (onTime : late ≠ some p) :
    ∃ f kf, kin f = some kf ∧ kf.parent = some p ∧ kf.verdict = none := by
  obtain ⟨count, some⟩ := family.closing_count row closing stays
  rw [if_neg onTime, Nat.add_zero] at count
  obtain ⟨f, listed⟩ := List.exists_mem_of_length_pos (count ▸ some)
  obtain ⟨kf, rowF, parent, live⟩ := (family.mem_children row).1 listed
  exact ⟨f, kf, rowF, parent, live⟩

/-- Nothing is to be heard by a fiber whose program has not ended. -/
theorem unhear (family : Family kin births exits leaving (some p) unasked promise)
    (running : ∀ k, kin p = some k → k.closing = none) :
    Family kin births exits leaving none unasked promise := by
  cases family
  constructor <;> grind

/-- A fresh fiber without a parent. -/
theorem root (family : Family kin births exits leaving late unasked promise) {f : FiberId}
    (fresh : kin f = none) :
    Family (Function.update kin f (some ⟨none, [], none, none, []⟩)) births exits leaving late
      unasked promise := by
  cases family
  constructor <;> simp only [Function.update_apply] <;> grind

/-- A fresh child of a live fiber that runs its program. -/
theorem child (family : Family kin births exits leaving late unasked promise) {f p : FiberId}
    {kp : Kin} (fresh : kin f = none) (older : p.raw < f.raw) (parent : kin p = some kp)
    (live : kp.verdict = none) (running : kp.closing = none) (stays : leaving ≠ some p)
    (asked : f ∉ unasked) :
    Family (Function.update (Function.update kin f (some ⟨some p, [], none, none, []⟩)) p
      (some { kp with children := kp.children ++ [f] })) (births ++ [(f, p)]) exits leaving late
      unasked promise := by
  have unequal : p ≠ f := by
    rintro rfl
    simp [fresh] at parent
  cases family
  constructor <;> simp only [Function.update_apply] <;> grind

/-- A fiber without children is about to end. -/
theorem leave (family : Family kin births exits none late unasked promise) {f : FiberId} {k : Kin}
    (row : kin f = some k) (live : k.verdict = none) (alone : k.children = []) :
    Family kin births exits (some f) late unasked promise := by
  cases family
  constructor <;> grind

/-- The program of a fiber has ended, and its children are still to be asked. -/
theorem close (family : Family kin births exits leaving none [] promise) {f : FiberId} {k : Kin}
    {exit : Exit} (row : kin f = some k) (live : k.verdict = none) (running : k.closing = none)
    (parents : k.children ≠ []) {promise' : Option (FiberId × Exit)}
    (next : promise' = promise ∨ promise' = some (f, exit)) :
    Family (Function.update kin f (some { k with closing := some ⟨k.children.length, exit⟩ }))
      births exits leaving none k.children promise' := by
  cases family
  constructor <;> simp only [Function.update_apply] <;> grind

/-- A child is asked to report its end. -/
theorem ask (family : Family kin births exits leaving late (c :: unasked) promise) {p : FiberId}
    {kc kp : Kin} (row : kin c = some kc) (child : kc.parent = some p) (live : kc.verdict = none)
    (parent : kin p = some kp) (closing : kp.closing.isSome) (distinct : c ∉ unasked) :
    Family (Function.update kin c (some { kc with askers := kc.askers ++ [p] })) births exits
      leaving late unasked promise := by
  cases family
  constructor <;> simp only [Function.update_apply] <;> grind

/-- A root fiber ends. -/
theorem retireRoot (family : Family kin births exits (some f) none [] promise) {k : Kin}
    {exit : Exit} (row : kin f = some k) (root : k.parent = none)
    (kept : ∀ x, promise = some (f, x) → x = exit) {promise' : Option (FiberId × Exit)}
    (next : promise' = promise ∨ promise' = some (f, exit)) :
    Family (Function.update kin f (some ⟨none, [], some (Exit.status exit), none, []⟩))
      births (exits ++ [(f, exit)]) none none [] promise' := by
  cases family
  constructor <;> simp only [Function.update_apply] <;>
    grind [exitsOf_append_self, exitsOf_append_of_ne]

/-- A child ends; if its parent has asked for it, the parent has yet to hear of it. -/
theorem retireChild (family : Family kin births exits (some f) none [] promise) {p : FiberId}
    {k kp : Kin} {exit : Exit} (row : kin f = some k) (child : k.parent = some p)
    (parent : kin p = some kp) (kept : ∀ x, promise = some (f, x) → x = exit)
    {promise' : Option (FiberId × Exit)}
    (next : promise' = promise ∨ promise' = some (f, exit)) :
    Family (Function.update
        (Function.update kin f (some ⟨some p, [], some (Exit.status exit), none, []⟩)) p
        (some { kp with children := kp.children.filter (· != f) }))
      births (exits ++ [(f, exit)]) none (if p ∈ k.askers then some p else none) [] promise' := by
  obtain ⟨k', row', live, -⟩ := family.leaving_alone rfl
  obtain rfl : k' = k := by
    rw [row] at row'
    exact (Option.some.inj row').symm
  have unequal : f ≠ p := by
    rintro rfl
    exact absurd (family.parent_older row child).1 (Nat.lt_irrefl _)
  have listed : f ∈ kp.children := (family.mem_children parent).2 ⟨k', row, child, live⟩
  have shorter : (kp.children.filter (· != f)).length + 1 = kp.children.length := by
    rw [← (family.nodup_children parent).erase_eq_filter f, List.length_erase_add_one listed]
  constructor <;> simp only [Function.update_apply]
  case closing_count =>
    intro q kq c rowq closing _
    by_cases same : q = p
    · subst same
      simp only [if_true, Option.some.injEq] at rowq
      subst rowq
      obtain ⟨count, -⟩ := family.closing_count parent closing (by simpa using unequal)
      have asked : q ∈ k'.askers := (family.mem_askers row live).2 ⟨child, by simp, kp, parent, by simp_all⟩
      simp only [asked, if_true]
      simp only [reduceCtorEq, if_false] at count
      omega
    · have onTime : (if p ∈ k'.askers then some p else none) ≠ some q := by
        split <;> simp [Ne.symm same]
      by_cases self : q = f
      · subst self
        simp only [same, if_false, if_true, Option.some.injEq] at rowq
        subst rowq
        simp at closing
      · simp only [same, self, if_false] at rowq
        simpa [onTime] using family.closing_count rowq closing (by simpa using Ne.symm self)
  all_goals
    cases family
    grind [exitsOf_append_self, exitsOf_append_of_ne]

/-- An ending fiber hears of the end of a child that is not the last one. -/
theorem hear (family : Family kin births exits leaving (some p) unasked promise) {k : Kin}
    {c : Closing} (row : kin p = some k) (closing : k.closing = some c)
    (more : c.remaining - 1 ≠ 0) (stays : leaving ≠ some p) :
    Family (Function.update kin p
        (some { k with closing := some { c with remaining := c.remaining - 1 } }))
      births exits leaving none unasked promise := by
  cases family
  constructor <;> simp only [Function.update_apply] <;> grind

/-- An ending fiber hears of the end of its last child. -/
theorem hearLast (family : Family kin births exits none (some p) unasked promise) {k : Kin}
    {c : Closing} (row : kin p = some k) (closing : k.closing = some c)
    (last : c.remaining - 1 = 0) :
    Family (Function.update kin p
        (some { k with closing := some { c with remaining := c.remaining - 1 } }))
      births exits (some p) none unasked promise := by
  cases family
  constructor <;> simp only [Function.update_apply] <;> grind

end Family
end EffectFibers
