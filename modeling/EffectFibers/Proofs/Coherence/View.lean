import EffectFibers.Table
import Mathlib.Logic.Function.Basic

/-!
# Looking at the rows of a table

An invariant reads only some part of each row.  A view of a table is that part as a function of
the identifier; changing a row updates the view at one place, or not at all if the part that is
read stays the same.
-/

namespace EffectFibers.Table

variable {kind : IdentKind} {α β : Type}

@[simp] theorem get?_empty (i : Ident kind) : (empty : Table kind α).get? i = none := by
  obtain ⟨raw⟩ := i
  cases raw <;> simp [get?, empty]

@[simp] theorem get?_nextId (t : Table kind α) : t.get? t.nextId = none := by
  simp [get?, nextId]

theorem raw_lt_nextId {t : Table kind α} {i : Ident kind} {a : α} (row : t.get? i = some a) :
    i.raw < t.nextId.raw := by
  obtain ⟨raw⟩ := i
  cases raw with
  | zero => simp [nextId]
  | succ n =>
      simp only [get?, Array.getElem?_eq_some_iff] at row
      obtain ⟨bound, -⟩ := row
      simpa [nextId] using bound

/-- Rows are numbered from one on. -/
theorem exists_row_iff {t : Table kind α} {i : Ident kind} :
    (∃ a, t.get? i = some a) ↔ 0 < i.raw ∧ i.raw ≤ t.size := by
  obtain ⟨raw⟩ := i
  cases raw with
  | zero => simp [get?]
  | succ n =>
      simp only [get?, size]
      constructor
      · rintro ⟨a, row⟩
        obtain ⟨inside, -⟩ := Array.getElem?_eq_some_iff.1 row
        omega
      · rintro ⟨-, inside⟩
        exact ⟨_, Array.getElem?_eq_getElem (by omega)⟩

theorem ne_nextId {t : Table kind α} {i : Ident kind} {a : α} (row : t.get? i = some a) :
    i ≠ t.nextId := by
  rintro rfl
  simp at row

theorem get?_push (t : Table kind α) (a : α) (i : Ident kind) :
    (t.push a).get? i = if i = t.nextId then some a else t.get? i := by
  by_cases fresh : i = t.nextId
  · simp [fresh]
  · cases row : t.get? i with
    | some b => simpa [fresh] using get?_push_of_some a row
    | none =>
        obtain ⟨raw⟩ := i
        cases raw with
        | zero => simp [get?, nextId]
        | succ n =>
            have unequal : n ≠ t.rows.size := by
              rintro rfl
              exact fresh rfl
            simpa [get?, push, Array.getElem?_push, unequal, fresh] using row

theorem modify_of_none {t : Table kind α} {i : Ident kind} (f : α → α) (row : t.get? i = none) :
    t.modify i f = t := by
  obtain ⟨raw⟩ := i
  cases raw with
  | zero => rfl
  | succ n =>
      obtain ⟨rows⟩ := t
      have beyond : ¬ n < rows.size := by simpa [get?] using row
      have same : rows.modify n f = rows := by
        ext i h h'
        · simp
        · rw [Array.getElem_modify, if_neg (by omega)]
      simp only [modify, same]

/-- What is seen of the rows through a projection. -/
def view (t : Table kind α) (p : α → β) (i : Ident kind) : Option β := (t.get? i).map p

theorem view_of_row {t : Table kind α} {i : Ident kind} {a : α} (p : α → β)
    (row : t.get? i = some a) : t.view p i = some (p a) := by
  simp [view, row]

theorem exists_row_of_view {t : Table kind α} {i : Ident kind} {p : α → β} {b : β}
    (seen : t.view p i = some b) : ∃ a, t.get? i = some a ∧ p a = b := by
  simpa [view] using seen

theorem view_modify (t : Table kind α) (i : Ident kind) (f : α → α) (p : α → β) {a : α}
    (row : t.get? i = some a) :
    (t.modify i f).view p = Function.update (t.view p) i (some (p (f a))) := by
  funext j
  by_cases same : j = i
  · subst same
    simp [view, get?_modify, row]
  · simp [view, get?_modify, same, Ne.symm same]

theorem view_modify_of_eq (t : Table kind α) (i : Ident kind) (f : α → α) (p : α → β)
    (unseen : ∀ a, t.get? i = some a → p (f a) = p a) : (t.modify i f).view p = t.view p := by
  funext j
  by_cases same : i = j
  · subst same
    cases row : t.get? i with
    | none => simp [view, get?_modify, row]
    | some a => simp [view, get?_modify, row, unseen a row]
  · simp [view, get?_modify, same]

theorem view_push (t : Table kind α) (a : α) (p : α → β) :
    (t.push a).view p = Function.update (t.view p) t.nextId (some (p a)) := by
  funext j
  by_cases fresh : j = t.nextId
  · simp [view, fresh]
  · simp [view, get?_push, fresh]

/-- A change to a row that shows nothing new. -/
theorem update_view {t : Table kind α} {i : Ident kind} {p : α → β} {a : α} {b : β}
    (row : t.get? i = some a) (same : b = p a) :
    Function.update (t.view p) i (some b) = t.view p := by
  rw [Function.update_eq_self_iff, view_of_row p row, same]

/-! ## Views that may be empty -/

/-- What is found in the rows by a projection that need not find anything. -/
def find (t : Table kind α) (p : α → Option β) (i : Ident kind) : Option β := (t.get? i).bind p

theorem find_of_row {t : Table kind α} {i : Ident kind} {a : α} (p : α → Option β)
    (row : t.get? i = some a) : t.find p i = p a := by
  simp [find, row]

theorem exists_row_of_find {t : Table kind α} {i : Ident kind} {p : α → Option β} {b : β}
    (found : t.find p i = some b) : ∃ a, t.get? i = some a ∧ p a = some b :=
  Option.bind_eq_some_iff.1 found

theorem find_modify (t : Table kind α) (i : Ident kind) (f : α → α) (p : α → Option β) {a : α}
    (row : t.get? i = some a) :
    (t.modify i f).find p = Function.update (t.find p) i (p (f a)) := by
  funext j
  by_cases same : j = i
  · subst same
    simp [find, get?_modify, row]
  · simp [find, get?_modify, same, Ne.symm same]

theorem find_modify_of_eq (t : Table kind α) (i : Ident kind) (f : α → α) (p : α → Option β)
    (unseen : ∀ a, t.get? i = some a → p (f a) = p a) : (t.modify i f).find p = t.find p := by
  funext j
  by_cases same : i = j
  · subst same
    cases row : t.get? i with
    | none => simp [find, get?_modify, row]
    | some a => simp [find, get?_modify, row, unseen a row]
  · simp [find, get?_modify, same]

theorem find_push (t : Table kind α) (a : α) (p : α → Option β) :
    (t.push a).find p = Function.update (t.find p) t.nextId (p a) := by
  funext j
  by_cases fresh : j = t.nextId
  · simp [find, fresh]
  · simp [find, get?_push, fresh]

/-- A change to a row in which nothing else is found. -/
theorem update_find {t : Table kind α} {i : Ident kind} {p : α → Option β} {a : α} {b : Option β}
    (row : t.get? i = some a) (same : b = p a) :
    Function.update (t.find p) i b = t.find p := by
  rw [Function.update_eq_self_iff, find_of_row p row, same]

/-- A new row in which nothing is found. -/
theorem find_push_of_none (t : Table kind α) {a : α} {p : α → Option β} (nothing : p a = none) :
    (t.push a).find p = t.find p := by
  rw [find_push, nothing, Function.update_eq_self_iff]
  simp [find]

@[simp] theorem find_nextId (t : Table kind α) (p : α → Option β) : t.find p t.nextId = none := by
  simp [find]

@[simp] theorem view_nextId (t : Table kind α) (p : α → β) : t.view p t.nextId = none := by
  simp [view]

end EffectFibers.Table
