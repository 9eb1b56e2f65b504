import EffectFibers.Proofs.Layers.Provides
import EffectFibers.Proofs.Services.Contexts
import Mathlib.Data.List.Induction
import Mathlib.Data.List.Sort

/-!
# What is found in contexts that are put together

When contexts are merged, a lookup finds what the last of them has under the tag, and a context that
was restricted has the same services under fewer tags.  A merge goes through the entries of its
second operand, so for this operand it matters that no tag occurs twice; maps that are made by
insertions have their entries in order.

## Main definitions

* `TagMap.Ordered` – the entries are in the order of their tags.

## Main statements

* `TagMap.find?_union`, `TagMap.find?_restrict` – lookups after the operations.
* `Context.find?_mergeAll` – what is found in many contexts that share no tag.
-/

namespace EffectFibers

namespace TagMap

variable {α : Type} {m n : TagMap α} {t u : TagId} {a : α} {entries : List (TagId × α)}

/-- The entries are in the order of their tags, and no tag occurs twice. -/
def Ordered (m : TagMap α) : Prop := m.entries.Pairwise fun a b => a.1.raw < b.1.raw

theorem ordered_empty : (empty : TagMap α).Ordered := .nil

theorem mem_insertEntry {entry : TagId × α} (listed : entry ∈ insertEntry t a entries) :
    entry = (t, a) ∨ entry ∈ entries := by
  induction entries with
  | nil => simpa [insertEntry] using listed
  | cons first rest ih =>
      obtain ⟨v, b⟩ := first
      unfold insertEntry at listed
      split at listed
      · exact List.mem_cons.1 listed
      · split at listed
        · exact (List.mem_cons.1 listed).imp_right (List.mem_cons_of_mem _)
        · rcases List.mem_cons.1 listed with same | later
          · exact .inr (List.mem_cons.2 (.inl same))
          · exact (ih later).imp_right (List.mem_cons_of_mem _)

theorem Ordered.insert (ordered : m.Ordered) : (m.insert t a).Ordered := by
  obtain ⟨entries⟩ := m
  unfold Ordered TagMap.insert at *
  dsimp only at *
  induction entries with
  | nil => exact List.pairwise_singleton _ _
  | cons first rest ih =>
      obtain ⟨v, b⟩ := first
      obtain ⟨before, ordered'⟩ := List.pairwise_cons.1 ordered
      unfold insertEntry
      split
      · rename_i earlier
        refine List.pairwise_cons.2 ⟨fun entry listed => ?_, ordered⟩
        rcases List.mem_cons.1 listed with rfl | later
        · exact earlier
        · exact Nat.lt_trans earlier (before entry later)
      · split
        · rename_i same
          exact List.pairwise_cons.2 ⟨same ▸ before, ordered'⟩
        · rename_i late other
          have later : v.raw < t.raw := by
            rcases Nat.lt_or_eq_of_le (Nat.le_of_not_lt late) with later | same
            · exact later
            · exact absurd (congrArg Ident.mk same.symm) other
          refine List.pairwise_cons.2 ⟨fun entry listed => ?_, ih ordered'⟩
          rcases mem_insertEntry listed with rfl | old
          · exact later
          · exact before entry old

theorem Ordered.union (ordered : m.Ordered) : (m.union n).Ordered := by
  unfold TagMap.union
  induction n.entries generalizing m with
  | nil => exact ordered
  | cons entry entries ih => exact ih ordered.insert

theorem ordered_restrict {tags : List TagId} : (m.restrict tags).Ordered := by
  have picked : (empty : TagMap α).Ordered → (m.restrict tags).Ordered := by
    unfold restrict
    generalize empty = acc
    intro ordered
    induction tags generalizing acc with
    | nil => exact ordered
    | cons t tags ih =>
        rw [List.foldl_cons]
        refine ih _ ?_
        split
        · exact ordered.insert
        · exact ordered
  exact picked ordered_empty

/-- A union finds what its second operand has, and otherwise what the first one has. -/
theorem find?_union (ordered : n.Ordered) : (m.union n).find? t = (n.find? t).or (m.find? t) := by
  obtain ⟨entries⟩ := n
  unfold Ordered TagMap.union at *
  dsimp only at *
  induction entries generalizing m with
  | nil => rfl
  | cons first rest ih =>
      obtain ⟨v, b⟩ := first
      obtain ⟨before, ordered⟩ := List.pairwise_cons.1 ordered
      rw [List.foldl_cons, ih ordered, find?_insert]
      by_cases same : v = t
      · subst same
        -- the tag does not occur again
        have gone : (⟨rest⟩ : TagMap α).find? v = none := by
          refine Option.map_eq_none_iff.2 (List.find?_eq_none.2 fun entry listed again => ?_)
          have := before entry listed
          rw [of_decide_eq_true again] at this
          exact Nat.lt_irrefl _ this
        rw [gone, if_pos rfl, Option.none_or]
        simp [find?]
      · simp [find?, same]

/-- A restriction finds what the map has under the tags that are kept. -/
theorem find?_restrict {tags : List TagId} :
    (m.restrict tags).find? t = if t ∈ tags then m.find? t else none := by
  have picked : (m.restrict tags).find? t =
      if t ∈ tags then (m.find? t).or ((empty : TagMap α).find? t)
      else (empty : TagMap α).find? t := by
    unfold restrict
    generalize empty = acc
    induction tags generalizing acc with
    | nil => rfl
    | cons u tags ih =>
        rw [List.foldl_cons, ih]
        cases found : m.find? u with
        | none =>
            by_cases same : t = u
            · subst same
              simp [found]
            · simp [same]
        | some a =>
            rw [find?_insert]
            by_cases same : t = u
            · subst same
              simp [found]
            · simp [same, Ne.symm same]
  simpa using picked

theorem contains_eq_isSome : m.contains t = (m.find? t).isSome := rfl

theorem Ordered.erase (ordered : m.Ordered) : (m.erase t).Ordered := ordered.filter _

theorem Ordered.without (ordered : m.Ordered) (tags : List TagId) : (m.without tags).Ordered := by
  unfold TagMap.without
  induction tags generalizing m with
  | nil => exact ordered
  | cons t tags ih => exact ih ordered.erase

theorem find?_without {tags : List TagId} :
    (m.without tags).find? t = if t ∈ tags then none else m.find? t := by
  unfold TagMap.without
  induction tags generalizing m with
  | nil => rfl
  | cons u tags ih =>
      rw [List.foldl_cons, ih, find?_erase]
      by_cases same : t = u <;> simp [same, Ne.symm]

/-! ## Maps are what is found in them -/

/-- One entry comes before another one. -/
def Before (a b : TagId × α) : Prop := a.1.raw < b.1.raw

instance : Std.Irrefl (Before (α := α)) where
  irrefl a := Nat.lt_irrefl a.1.raw

instance : Std.Antisymm (Before (α := α)) where
  antisymm _ _ before after := absurd (Nat.lt_trans before after) (Nat.lt_irrefl _)

theorem Ordered.find?_eq_some_iff (ordered : m.Ordered) :
    m.find? t = some a ↔ (t, a) ∈ m.entries := by
  obtain ⟨entries⟩ := m
  unfold Ordered TagMap.find? at *
  dsimp only at *
  induction entries with
  | nil => simp
  | cons first rest ih =>
      obtain ⟨v, b⟩ := first
      obtain ⟨before, ordered⟩ := List.pairwise_cons.1 ordered
      by_cases same : v = t
      · subst same
        have gone : (v, a) ∉ rest := fun listed => Nat.lt_irrefl v.raw (before (v, a) listed)
        simp [gone, eq_comm]
      · simp [same, Ne.symm same, ih ordered]

/-- Two ordered maps in which the same is found are equal. -/
theorem Ordered.ext (ordered : m.Ordered) (ordered' : n.Ordered)
    (same : ∀ t, m.find? t = n.find? t) : m = n := by
  have entries : m.entries = n.entries := by
    refine List.Pairwise.eq_of_mem_iff (r := Before) ordered ordered' fun entry => ?_
    rw [← ordered.find?_eq_some_iff, ← ordered'.find?_eq_some_iff, same]
  obtain ⟨_⟩ := m
  obtain ⟨_⟩ := n
  exact congrArg TagMap.mk entries

/-- Two ordered maps that have the same tags list them in the same order. -/
theorem Ordered.tags_eq {β : Type} {n : TagMap β} (ordered : m.Ordered) (ordered' : n.Ordered)
    (same : ∀ t, m.contains t = true ↔ n.contains t = true) : m.tags = n.tags := by
  have increasing : ∀ {γ : Type} {k : TagMap γ}, k.Ordered →
      (k.tags.map (·.raw)).Pairwise (· < ·) := by
    intro γ k ordered
    rw [tags, List.map_map]
    exact List.pairwise_map.2 ordered
  refine List.map_injective_iff.2 (fun t u same => congrArg Ident.mk same) ?_
  refine List.Pairwise.eq_of_mem_iff (increasing ordered) (increasing ordered') fun raw => ?_
  simp only [List.mem_map, mem_tags, same]

end TagMap

namespace Context

variable {c outer : Context Value} {contexts : List (Context Value)} {t : TagId}

theorem mergeAll_append (contexts : List (Context Value)) (c : Context Value) :
    mergeAll (contexts ++ [c]) = (mergeAll contexts).merge c := by
  rw [mergeAll, List.foldl_append]
  rfl

/-- Nothing is found that none of the contexts has. -/
theorem find?_mergeAll_eq_none (ordered : ∀ c ∈ contexts, c.services.Ordered)
    (nowhere : ∀ c ∈ contexts, c.contains t = false) :
    (mergeAll contexts).services.find? t = none := by
  induction contexts using List.reverseRecOn with
  | nil => rfl
  | append_singleton contexts c ih =>
      have missing : c.services.find? t = none := by
        have := nowhere c (by simp)
        rwa [contains, TagMap.contains_eq_isSome, Option.isSome_eq_false_iff,
          Option.isNone_iff_eq_none] at this
      rw [mergeAll_append, merge, TagMap.find?_union (ordered c (by simp)), missing, Option.none_or]
      exact ih (fun d listed => ordered d (by simp [listed]))
        fun d listed => nowhere d (by simp [listed])

/-- What one of the contexts has, and no other one, is found there. -/
theorem find?_mergeAll (ordered : ∀ c ∈ contexts, c.services.Ordered)
    (only : ∀ d ∈ contexts, d.contains t = true → d = c) (listed : c ∈ contexts)
    (has : c.contains t = true) : (mergeAll contexts).services.find? t = c.services.find? t := by
  induction contexts using List.reverseRecOn with
  | nil => cases listed
  | append_singleton contexts d ih =>
      rw [mergeAll_append, merge, TagMap.find?_union (ordered d (by simp))]
      cases found : d.services.find? t with
      | some service =>
          have here : d = c := only d (by simp) (by
            rw [contains, TagMap.contains_eq_isSome, found]
            rfl)
          rw [← here, found]
          rfl
      | none =>
          have other : d ≠ c := by
            rintro rfl
            rw [contains, TagMap.contains_eq_isSome, found] at has
            cases has
          rw [Option.none_or]
          refine ih (fun e listed => ordered e (by simp [listed]))
            (fun e listed => only e (by simp [listed])) ?_
          simpa [Ne.symm other] using listed

end Context

end EffectFibers
