import EffectFibers.TagMap
import EffectFibers.Text.Quoted

/-!
# Tags, contexts and requirements

A tag is the key of a service: an identifier and a name that only messages show.  A context holds
services by tag; a requirement set holds the tags that an effect still needs.  Both are tag maps
and never change in place.

## Main definitions

* `Tag` – a key with its name.
* `Context α` – services of type `α` by tag.
* `Requirements` – the tags needed, with their names.
-/

namespace EffectFibers

/-- The key of a service.  Two tags are the same exactly when their identifiers are. -/
structure Tag where
  id : TagId
  name : String
  deriving DecidableEq, Repr

namespace Tag

/-- Whether two tags name the same service, whatever their names. -/
def same (s t : Tag) : Bool := s.id == t.id

def debug (t : Tag) : String := "Tag(" ++ t.name ++ t.id.display ++ ")"

end Tag

/-- A service with the name of its tag. -/
structure Service (α : Type) where
  name : String
  value : α
  deriving DecidableEq

/-- Services by tag. -/
structure Context (α : Type) where
  services : TagMap (Service α) := .empty

namespace Context

variable {α : Type}

def empty : Context α := {}

instance : Inhabited (Context α) := ⟨empty⟩

def get? (c : Context α) (t : Tag) : Option α := (c.services.find? t.id).map (·.value)

def contains (c : Context α) (t : TagId) : Bool := c.services.contains t

/-- The context with one more service, or one replaced. -/
def insert (c : Context α) (t : Tag) (value : α) : Context α :=
  ⟨c.services.insert t.id ⟨t.name, value⟩⟩

/-- Both contexts; the second one's services count where both have a tag. -/
def merge (c d : Context α) : Context α := ⟨c.services.union d.services⟩

/-- Only the services under the given tags. -/
def restrict (c : Context α) (tags : List TagId) : Context α := ⟨c.services.restrict tags⟩

def size (c : Context α) : Nat := c.services.size

def isEmpty (c : Context α) : Bool := c.services.isEmpty

/-- The names of the services in alphabetical order. -/
def names (c : Context α) : List String :=
  (c.services.values.map (·.name)).mergeSort (fun a b => a ≤ b)

def debug (c : Context α) : String :=
  Text.record "Context" [("services", Text.bracketed (c.names.map Text.quoted))]

theorem get?_insert (c : Context α) (s t : Tag) (value : α) :
    (c.insert s value).get? t = if s.id = t.id then some value else c.get? t := by
  simp only [get?, insert, TagMap.find?_insert]
  split <;> rfl

end Context

/-- The tags that an effect needs from its context, with their names. -/
structure Requirements where
  tags : TagMap String := .empty
  deriving DecidableEq

namespace Requirements

def none : Requirements := {}

instance : Inhabited Requirements := ⟨none⟩

def insert (r : Requirements) (t : TagId) (name : String) : Requirements := ⟨r.tags.insert t name⟩

/-- One tag. -/
def of (t : Tag) : Requirements := none.insert t.id t.name

def union (r s : Requirements) : Requirements := ⟨r.tags.union s.tags⟩

/-- The union of many sets. -/
def unionAll (rs : List Requirements) : Requirements := rs.foldl union none

def without (r : Requirements) (tags : List TagId) : Requirements := ⟨r.tags.without tags⟩

def contains (r : Requirements) (t : TagId) : Bool := r.tags.contains t

/-- The names of the tags that a context lacks. -/
def missingFrom {α : Type} (r : Requirements) (c : Context α) : List String :=
  (r.tags.entries.filter fun entry => !c.contains entry.1).map (·.2)

/-- The tags, in order. -/
def ids (r : Requirements) : List TagId := r.tags.tags

/-- The names, in the order of the tags. -/
def names (r : Requirements) : List String := r.tags.values

def size (r : Requirements) : Nat := r.tags.size

def isEmpty (r : Requirements) : Bool := r.tags.isEmpty

def debug (r : Requirements) : String := Text.braced (r.names.map Text.quoted)

end Requirements

end EffectFibers
