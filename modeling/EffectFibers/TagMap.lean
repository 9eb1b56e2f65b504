import EffectFibers.Ident

/-!
# Finite maps from tags

A tag map lists its entries in the order of the tags, so that everything written from it has one
order.  Contexts and requirement sets are such maps.

## Main statements

* `TagMap.find?_insert`, `TagMap.find?_erase` – looking up after a change.
-/

namespace EffectFibers

/-- Entries in increasing order of their tags. -/
structure TagMap (α : Type) where
  entries : List (TagId × α) := []
  deriving DecidableEq

namespace TagMap

variable {α : Type}

def empty : TagMap α := ⟨[]⟩

instance : Inhabited (TagMap α) := ⟨empty⟩

/-- Put an entry in its place, instead of an entry of the same tag if there is one. -/
def insertEntry (t : TagId) (a : α) : List (TagId × α) → List (TagId × α)
  | [] => [(t, a)]
  | (u, b) :: rest =>
    if t.raw < u.raw then (t, a) :: (u, b) :: rest
    else if t = u then (t, a) :: rest
    else (u, b) :: insertEntry t a rest

def insert (m : TagMap α) (t : TagId) (a : α) : TagMap α := ⟨insertEntry t a m.entries⟩

/-- The value under a tag. -/
def find? (m : TagMap α) (t : TagId) : Option α :=
  (m.entries.find? fun entry => entry.1 = t).map (·.2)

def contains (m : TagMap α) (t : TagId) : Bool := (m.find? t).isSome

def erase (m : TagMap α) (t : TagId) : TagMap α := ⟨m.entries.filter fun entry => entry.1 ≠ t⟩

/-- Both maps; where both have a tag, the second one's value counts. -/
def union (m n : TagMap α) : TagMap α :=
  n.entries.foldl (fun acc entry => acc.insert entry.1 entry.2) m

/-- Without the given tags. -/
def without (m : TagMap α) (tags : List TagId) : TagMap α := tags.foldl erase m

/-- Only the given tags. -/
def restrict (m : TagMap α) (tags : List TagId) : TagMap α :=
  tags.foldl
    (fun acc t => match m.find? t with
      | some a => acc.insert t a
      | none => acc)
    empty

/-- The tags, in order. -/
def tags (m : TagMap α) : List TagId := m.entries.map (·.1)

/-- The values, in the order of their tags. -/
def values (m : TagMap α) : List α := m.entries.map (·.2)

def size (m : TagMap α) : Nat := m.entries.length

def isEmpty (m : TagMap α) : Bool := m.entries.isEmpty

/-! ## Looking up after a change -/

@[simp] theorem find?_empty (t : TagId) : (empty : TagMap α).find? t = none := rfl

private theorem find?_insertEntry (t u : TagId) (a : α) (entries : List (TagId × α)) :
    ((insertEntry t a entries).find? fun entry => entry.1 = u).map (·.2) =
      if t = u then some a else (entries.find? fun entry => entry.1 = u).map (·.2) := by
  induction entries with
  | nil => by_cases h : t = u <;> simp [insertEntry, h]
  | cons entry rest ih =>
    obtain ⟨v, b⟩ := entry
    unfold insertEntry
    split
    · by_cases h : t = u <;> simp [h]
    · split
      case isTrue same =>
        subst same
        by_cases h : t = u <;> simp [h]
      case isFalse other =>
        by_cases hv : v = u
        · subst hv
          simp [other]
        · simpa [List.find?_cons, hv] using ih

theorem find?_insert (m : TagMap α) (t u : TagId) (a : α) :
    (m.insert t a).find? u = if t = u then some a else m.find? u :=
  find?_insertEntry t u a m.entries

theorem find?_erase (m : TagMap α) (t u : TagId) :
    (m.erase t).find? u = if t = u then none else m.find? u := by
  obtain ⟨entries⟩ := m
  simp only [erase, find?]
  induction entries with
  | nil => simp
  | cons entry rest ih =>
    obtain ⟨v, b⟩ := entry
    by_cases hv : v = t
    · subst hv
      by_cases hu : v = u
      · simp [hu]
      · simpa [hu] using ih
    · by_cases hu : v = u
      · subst hu
        simp [hv, Ne.symm hv]
      · simpa [hv, hu] using ih

end TagMap

end EffectFibers
