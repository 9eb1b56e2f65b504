import EffectFibers.Value.Shown

/-!
# Values with holes

A program writes values as templates: plain data in which variables stand for what they hold.  A
variable in a template is replaced by its plain form, so a value that was filled in holds no
handles.

## Main definitions

* `Template` – plain data with variables.
* `Bindings.get` – what a variable holds.
* `Template.fill` – the value of a template.
-/

namespace EffectFibers.Program

/-- Plain data with variables. -/
inductive Template
  | null
  | bool (b : Bool)
  | int (n : Int)
  | str (s : String)
  | list (items : List Template)
  | object (fields : List (String × Template))
  | var (name : String)

/-- What the variables in reach hold, the innermost one first. -/
abbrev Bindings := List (String × Value)

namespace Bindings

/-- What a variable holds. -/
def find? (b : Bindings) (name : String) : Option Value := List.lookup name b

/-- What a variable holds; to use an unknown one breaks the program off. -/
def get (b : Bindings) (name : String) : Except Panic Value :=
  match b.find? name with
  | some v => .ok v
  | none => .error (.text ("unknown variable " ++ name))

end Bindings

mutual

/-- The value of a template. -/
def Template.fill (b : Bindings) : Template → Except Panic Value
  | .null => .ok .null
  | .bool v => .ok (.bool v)
  | .int n => .ok (.int n)
  | .str s => .ok (.str s)
  | .list items => do return .list (← Template.fillItems b items)
  | .object fields => do return .object (← Template.fillFields b fields)
  | .var name => do return (← b.get name).shown

def Template.fillItems (b : Bindings) : List Template → Except Panic (List Value)
  | [] => .ok []
  | t :: rest => do
    let v ← t.fill b
    return v :: (← Template.fillItems b rest)

def Template.fillFields (b : Bindings) :
    List (String × Template) → Except Panic (List (String × Value))
  | [] => .ok []
  | (key, t) :: rest => do
    let v ← t.fill b
    return (key, v) :: (← Template.fillFields b rest)

end

end EffectFibers.Program
