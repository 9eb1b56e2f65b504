import EffectFibers.Context
import Mathlib.Tactic.Tauto

/-!
# Which tags a map has

Contexts are merged and restricted, and requirement sets are united and made smaller.  What a later
proof needs of the result is which tags it has, and for each of these operations that is a matter of
which tags the operands have.

## Main definitions

* `Context.Covers` – a context has the services under some tags.

## Main statements

* `TagMap.contains_union`, `TagMap.contains_without`, `TagMap.contains_restrict` – the tags of what
  the operations produce.
* `Context.exists_service` – a lookup under a tag that is there.
-/

namespace EffectFibers

namespace TagMap

variable {α : Type} {m n : TagMap α} {t u : TagId} {a : α}

@[simp] theorem contains_empty : (empty : TagMap α).contains t = false := rfl

@[simp] theorem contains_insert :
    (m.insert t a).contains u = true ↔ t = u ∨ m.contains u = true := by
  rw [contains, find?_insert]
  by_cases same : t = u <;> simp [same, contains]

@[simp] theorem contains_erase :
    (m.erase t).contains u = true ↔ t ≠ u ∧ m.contains u = true := by
  rw [contains, find?_erase]
  by_cases same : t = u <;> simp [same, contains]

theorem contains_iff_mem : m.contains t = true ↔ ∃ entry ∈ m.entries, entry.1 = t := by
  simp [contains, find?]

@[simp] theorem mem_tags : t ∈ m.tags ↔ m.contains t = true := by
  simp [tags, contains_iff_mem]

@[simp] theorem contains_union :
    (m.union n).contains t = true ↔ m.contains t = true ∨ n.contains t = true := by
  have joined : (m.union n).contains t = true ↔
      m.contains t = true ∨ ∃ entry ∈ n.entries, entry.1 = t := by
    unfold union
    induction n.entries generalizing m with
    | nil => simp
    | cons entry entries ih =>
        simp only [List.foldl_cons, ih, contains_insert, List.mem_cons, exists_eq_or_imp]
        tauto
  rw [joined, contains_iff_mem (m := n)]

@[simp] theorem contains_without {tags : List TagId} :
    (m.without tags).contains t = true ↔ m.contains t = true ∧ t ∉ tags := by
  unfold without
  induction tags generalizing m with
  | nil => simp
  | cons u tags ih =>
      rw [List.foldl_cons, ih, contains_erase, List.mem_cons, not_or]
      tauto

@[simp] theorem contains_restrict {tags : List TagId} :
    (m.restrict tags).contains t = true ↔ t ∈ tags ∧ m.contains t = true := by
  have picked : (m.restrict tags).contains t = true ↔
      (empty : TagMap α).contains t = true ∨ t ∈ tags ∧ m.contains t = true := by
    unfold restrict
    generalize empty = acc
    induction tags generalizing acc with
    | nil => simp
    | cons u tags ih =>
        rw [List.foldl_cons, ih, List.mem_cons]
        have there : t = u → m.contains t = (m.find? u).isSome := fun same => by rw [same, contains]
        cases found : m.find? u with
        | some a =>
            rw [contains_insert]
            grind
        | none => grind
  simpa using picked

end TagMap

namespace Context

variable {α : Type} {c d : Context α} {t : TagId}

@[simp] theorem contains_empty : (empty : Context α).contains t = false := rfl

@[simp] theorem contains_insert {s : Tag} {value : α} :
    (c.insert s value).contains t = true ↔ s.id = t ∨ c.contains t = true :=
  TagMap.contains_insert

@[simp] theorem contains_merge :
    (c.merge d).contains t = true ↔ c.contains t = true ∨ d.contains t = true :=
  TagMap.contains_union

@[simp] theorem contains_restrict {tags : List TagId} :
    (c.restrict tags).contains t = true ↔ t ∈ tags ∧ c.contains t = true :=
  TagMap.contains_restrict

/-- A service is found under a tag that the context has. -/
theorem exists_service {s : Tag} (there : c.contains s.id = true) :
    ∃ value, c.get? s = some value := by
  obtain ⟨service, found⟩ := Option.isSome_iff_exists.1 there
  exact ⟨service.value, by rw [get?, found]; rfl⟩

/-- A context has the services under some tags. -/
def Covers (c : Context α) (tags : TagId → Prop) : Prop := ∀ t, tags t → c.contains t = true

end Context

namespace Requirements

variable {r s : Requirements} {t : TagId}

@[simp] theorem contains_none : none.contains t = false := rfl

@[simp] theorem contains_of {u : Tag} : (of u).contains t = true ↔ u.id = t := by
  simp [of, contains, insert, none]

@[simp] theorem contains_insert {u : TagId} {name : String} :
    (r.insert u name).contains t = true ↔ u = t ∨ r.contains t = true :=
  TagMap.contains_insert

@[simp] theorem contains_union :
    (r.union s).contains t = true ↔ r.contains t = true ∨ s.contains t = true :=
  TagMap.contains_union

@[simp] theorem contains_without {tags : List TagId} :
    (r.without tags).contains t = true ↔ r.contains t = true ∧ t ∉ tags :=
  TagMap.contains_without

@[simp] theorem mem_ids : t ∈ r.ids ↔ r.contains t = true := TagMap.mem_tags

@[simp] theorem contains_unionAll {rs : List Requirements} :
    (unionAll rs).contains t = true ↔ ∃ r ∈ rs, r.contains t = true := by
  have joined : (unionAll rs).contains t = true ↔
      none.contains t = true ∨ ∃ r ∈ rs, r.contains t = true := by
    unfold unionAll
    generalize none = acc
    induction rs generalizing acc with
    | nil => simp
    | cons r rs ih =>
        simp only [List.foldl_cons, ih, contains_union, List.mem_cons, exists_eq_or_imp]
        tauto
  simpa using joined

/-- All that is needed is among some services. -/
def Among (r : Requirements) (tags : TagId → Prop) : Prop := ∀ t, r.contains t = true → tags t

theorem Among.mono {tags more : TagId → Prop} (among : r.Among tags)
    (inside : ∀ t, tags t → more t) : r.Among more :=
  fun t needed => inside t (among t needed)

theorem among_none {tags : TagId → Prop} : none.Among tags := fun _ needed => by cases needed

theorem among_union {tags : TagId → Prop} :
    (r.union s).Among tags ↔ r.Among tags ∧ s.Among tags := by
  simp only [Among, contains_union, or_imp, forall_and]

theorem among_without {ids : List TagId} {tags : TagId → Prop} :
    (r.without ids).Among tags ↔ r.Among fun t => tags t ∨ t ∈ ids := by
  refine forall_congr' fun t => ?_
  rw [contains_without]
  tauto

theorem among_unionAll {rs : List Requirements} {tags : TagId → Prop} :
    (unionAll rs).Among tags ↔ ∀ r ∈ rs, r.Among tags := by
  simp only [Among, contains_unionAll]
  grind

/-- Nothing is needed by an effect whose set is empty. -/
theorem not_contains_of_isEmpty (empty : r.isEmpty = true) : r.contains t ≠ true := by
  intro needed
  obtain ⟨entry, listed, -⟩ := TagMap.contains_iff_mem.1 needed
  rw [isEmpty, TagMap.isEmpty, List.isEmpty_iff] at empty
  rw [empty] at listed
  cases listed

end Requirements

end EffectFibers
