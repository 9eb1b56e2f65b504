import EffectFibers.Value

/-!
# Values as plain data

Every value has a form that is plain data: handles show as fixed texts, a context shows its names
and its size, and the outcomes of effects show as objects.  Programs that copy a variable into a
new value copy this form, and records and answers hold nothing else.

## Main definitions

* `Value.shown` – the plain form of a value.
* `Exit.shown` – the plain form of an exit, with the text of its cause.
* `Value.same` – equality of plain data.
-/

namespace EffectFibers

/-- A failure as a pair of its tag and its message. -/
def Failure.shown (f : Failure) : Value := .list [.str f.tag, .str f.message]

/-- The plain form of a cause: what it is, and its text. -/
def Cause.shown (c : Cause Failure) : Value :=
  let text := Value.str (c.text Failure.text)
  match c with
  | .fail failure => .object [("fail", failure.shown), ("text", text)]
  | .die defect =>
    .object [("die", .str defect.kind.text), ("message", .str defect.message), ("text", text)]
  | .interrupt => .object [("interrupt", .bool true), ("text", text)]

mutual

/-- The plain form of a value. -/
def Value.shown : Value → Value
  | .null => .null
  | .bool b => .bool b
  | .int n => .int n
  | .str s => .str s
  | .list items => .list (Value.shownItems items)
  | .object fields => .object (Value.shownFields fields)
  | .fiber _ => .str "<fiber>"
  | .cell _ => .str "<ref>"
  | .context services =>
    .object [("context", .str services.debug), ("len", .int services.size)]
  | .result (.ok v) => .object [("ok", v.shown)]
  | .result (.error failure) => .object [("err", failure.shown)]
  | .exit (.ok v) => .object [("ok", v.shown)]
  | .exit (.error cause) => cause.shown
  | .alien => .null

def Value.shownItems : List Value → List Value
  | [] => []
  | v :: rest => v.shown :: Value.shownItems rest

def Value.shownFields : List (String × Value) → List (String × Value)
  | [] => []
  | (key, v) :: rest => (key, v.shown) :: Value.shownFields rest

end

/-- The plain form of an exit. -/
def Exit.shown (x : Exit) : Value := (Value.exit x).shown

mutual

/-- Whether two values are the same data. -/
def Value.same : Value → Value → Bool
  | .null, .null => true
  | .bool a, .bool b => a == b
  | .int a, .int b => a == b
  | .str a, .str b => a == b
  | .list as, .list bs => Value.sameItems as bs
  | .object as, .object bs => Value.sameFields as bs
  | _, _ => false

def Value.sameItems : List Value → List Value → Bool
  | [], [] => true
  | a :: as, b :: bs => a.same b && Value.sameItems as bs
  | _, _ => false

def Value.sameFields : List (String × Value) → List (String × Value) → Bool
  | [], [] => true
  | (key, a) :: as, (key', b) :: bs => key == key' && a.same b && Value.sameFields as bs
  | _, _ => false

end

end EffectFibers
