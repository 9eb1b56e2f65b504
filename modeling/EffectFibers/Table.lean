import EffectFibers.Ident

/-!
# Tables of numbered rows

A table keeps one row per identifier and hands the identifiers out itself: the first row gets
number one, the next number two, and no row is ever removed.  The machine keeps its fibers, its
waits, its groups and its run scopes in such tables.

## Main statements

* `Table.get?_modify` – changing a row is seen at that row only.
* `Table.get?_push_self`, `Table.get?_push_of_some` – a new row is found under its identifier,
  and the earlier rows stay what they were.
-/

namespace EffectFibers

/-- Rows of type `α`, numbered from one. -/
structure Table (kind : IdentKind) (α : Type) where
  rows : Array α := #[]

namespace Table

variable {kind : IdentKind} {α : Type}

def empty : Table kind α := {}

instance : Inhabited (Table kind α) := ⟨empty⟩

def size (t : Table kind α) : Nat := t.rows.size

/-- The row of an identifier.  "No identifier" has no row. -/
def get? (t : Table kind α) (i : Ident kind) : Option α :=
  match i.raw with
  | 0 => none
  | n + 1 => t.rows[n]?

/-- Change one row; an identifier without a row changes nothing. -/
def modify (t : Table kind α) (i : Ident kind) (f : α → α) : Table kind α :=
  match i.raw with
  | 0 => t
  | n + 1 => { rows := t.rows.modify n f }

/-- The identifier that the next row will get. -/
def nextId (t : Table kind α) : Ident kind := ⟨t.rows.size + 1⟩

/-- Add a row under `nextId`. -/
def push (t : Table kind α) (a : α) : Table kind α :=
  { rows := t.rows.push a }

/-! ## What each operation does to the rows -/

@[simp] theorem size_modify (t : Table kind α) (i : Ident kind) (f : α → α) :
    (t.modify i f).size = t.size := by
  unfold modify size
  split <;> simp

@[simp] theorem size_push (t : Table kind α) (a : α) : (t.push a).size = t.size + 1 := by
  simp [push, size]

theorem get?_modify (t : Table kind α) (i j : Ident kind) (f : α → α) :
    (t.modify i f).get? j = if i = j then (t.get? j).map f else t.get? j := by
  obtain ⟨i⟩ := i
  obtain ⟨j⟩ := j
  cases i with
  | zero => cases j <;> simp [modify, get?]
  | succ i =>
    cases j with
    | zero => simp [get?]
    | succ j => simp [modify, get?, Array.getElem?_modify]

@[simp] theorem get?_push_self (t : Table kind α) (a : α) :
    (t.push a).get? t.nextId = some a := by
  simp [push, get?, nextId]

theorem get?_push_of_some {t : Table kind α} {i : Ident kind} {b : α} (a : α)
    (h : t.get? i = some b) : (t.push a).get? i = some b := by
  obtain ⟨i⟩ := i
  cases i with
  | zero => simp [get?] at h
  | succ i =>
    simp only [get?] at h ⊢
    have bound : i < t.rows.size := by
      by_cases inside : i < t.rows.size
      · exact inside
      · simp [Array.getElem?_eq_none (Nat.le_of_not_lt inside)] at h
    simpa [push, Array.getElem?_push, Nat.ne_of_lt bound] using h

end Table

end EffectFibers
