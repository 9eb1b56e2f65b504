import EffectFibers.Action
import EffectFibers.Schedule
import EffectFibers.Value.Shown

/-!
# Functions of programs

The functions that programs apply to values and failures, the predicates with which they decide,
and the schedules built from predicates.  A function may break off, and it may leave a note; a
predicate may break off.

A function on values is itself written as plain data, a list that begins with the name of the
function.  So a program can compute a function, or a part of one, before it applies it.

A function or predicate looks at the plain form of a value.  What it passes on unchanged, or takes
out of a list, is the value itself, with its handles.

## Main definitions

* `Fun` – functions on values, with `Fun.ofValue?` and `Fun.apply`.
* `FailureFun` – functions on failures.
* `Pred`, `FailurePred` – predicates on values and on failures.
* `ScheduleExpr` – schedules over one kind of predicate.
-/

namespace EffectFibers.Program

/-! ## Functions on values -/

/-- A function on values. -/
inductive Fun
  | id
  | const (v : Value)
  | add (n : Int)
  | mul (n : Int)
  | suffix (s : String)
  | push (v : Value)
  | len
  | nth (i : Nat)
  | key (k : String)
  | emit (label : Value)
  | panicIfGt (n : Int)
  | andThen (first second : Fun)
  | panic (p : Panic)

/-- The panic that a name with its arguments stands for. -/
def panicOfForm? : String → List Value → Option Panic
  | "panic", [.str message] => some (.text message)
  | "panic_static", [.str message] => some (.text message)
  | "panic_any", _ => some .payload
  | _, _ => none

/-- The function that a name with its arguments stands for, if it is not made of others. -/
def Fun.ofForm? : String → List Value → Option Fun
  | "id", _ => some .id
  | "const", [v] => some (.const v)
  | "add", [.int n] => some (.add n)
  | "mul", [.int n] => some (.mul n)
  | "suffix", [.str s] => some (.suffix s)
  | "push", [v] => some (.push v)
  | "len", _ => some .len
  | "nth", [.int (.ofNat i)] => some (.nth i)
  | "key", [.str k] => some (.key k)
  | "emit", [label] => some (.emit label)
  | "panic_if_gt", [.int n] => some (.panicIfGt n)
  | head, args => (panicOfForm? head args).map .panic

/-- The function that plain data stands for. -/
def Fun.ofValue? : Value → Option Fun
  | .list [.str "then", first, second] => do
    return .andThen (← Fun.ofValue? first) (← Fun.ofValue? second)
  | .list (.str head :: args) => Fun.ofForm? head args
  | _ => none

/-- A function was applied to a value that it is not for. -/
def misapplied {α : Type} (what : String) : Except Panic α :=
  .error (.text ("cannot apply " ++ what))

/-- Whether a number fits 64 bits with a sign.  Any other number compares with nothing. -/
def isComparable (n : Int) : Bool := decide (- (1 <<< 63 : Nat) ≤ n ∧ n < (1 <<< 63 : Nat))

/-- Whether both numbers can be compared, and the first one is smaller. -/
def isLess (m n : Int) : Bool := isComparable m && isComparable n && decide (m < n)

def asInt (what : String) : Value → Except Panic Int
  | .int n => .ok n
  | _ => misapplied what

def asText (what : String) : Value → Except Panic String
  | .str s => .ok s
  | _ => misapplied what

/-- The number of characters, items or fields. -/
def length : Value → Except Panic Nat
  | .str s => .ok s.length
  | .list items => .ok items.length
  | .object fields => .ok fields.length
  | _ => misapplied "len"

/-- The item at a place of a list. -/
def item (i : Nat) : Value → Except Panic Value
  | .list items => (items[i]?).elim (misapplied "nth") .ok
  | _ => misapplied "nth"

/-- The field of an object. -/
def field (k : String) : Value → Except Panic Value
  | .object fields => (fields.lookup k).elim (misapplied "key") .ok
  | _ => misapplied "key"

/-- A value at the end of a list. -/
def pushed (v : Value) : Value → Except Panic Value
  | .list items => .ok (.list (items ++ [v]))
  | _ => misapplied "push"

/-- A value, unless it is a number above a bound. -/
def atMost (bound : Int) (v : Value) : Except Panic Value :=
  match v with
  | .int n => if isLess bound n then .error (.text s!"{n} is too big") else .ok v
  | v => .ok v

/-- A function without notes, on a value. -/
def Fun.plain (f : Fun) (v : Value) : Except Panic Value := do
  match f with
  | .const c => return c
  | .add n => return .int ((← asInt "add" v) + n)
  | .mul n => return .int ((← asInt "mul" v) * n)
  | .suffix s => return .str ((← asText "suffix" v.shown) ++ s)
  | .push last => pushed last v
  | .len => return .int (← length v.shown)
  | .nth i => item i v
  | .key k => field k v.shown
  | .panicIfGt n => atMost n v
  | .panic p => .error p
  | _ => return v

/-- The note of a labelled value. -/
def labelled (label v : Value) : Value := .list [.str "emit", label, v.shown]

/-- A function on a value. -/
def Fun.apply {σ : Type} (f : Fun) (v : Value) : Action σ Value :=
  match f with
  | .emit label => do
    Action.request (.note (labelled label v))
    return v
  | .andThen first second => do second.apply (← first.apply v)
  | f => Action.ofExcept (f.plain v)

/-! ## Functions on failures -/

/-- A function on failures. -/
inductive FailureFun
  | id
  | tag (t : String)
  | suffix (s : String)
  | swap
  | panic (p : Panic)

/-- A function on a failure. -/
def FailureFun.apply (style : FailureStyle) (f : FailureFun) (failure : Failure) :
    Except Panic Failure :=
  match f with
  | .id => .ok failure
  | .tag t => .ok (.make style t failure.message)
  | .suffix s => .ok (.make style failure.tag (failure.message ++ s))
  | .swap => .ok (.make style failure.message failure.tag)
  | .panic p => .error p

/-! ## Predicates -/

/-- A predicate on values. -/
inductive Pred
  | always (answer : Bool)
  | lt (n : Int)
  | gt (n : Int)
  | eq (v : Value)
  | ne (v : Value)
  | not (p : Pred)
  | panic (p : Panic)

/-- Whether a value satisfies a predicate.  The comparisons with numbers hold of numbers only. -/
def Pred.holds : Pred → Value → Except Panic Bool
  | .always answer, _ => .ok answer
  | .lt n, .int v => .ok (isLess v n)
  | .gt n, .int v => .ok (isLess n v)
  | .lt _, _ | .gt _, _ => .ok false
  | .eq w, v => .ok (v.shown.same w)
  | .ne w, v => .ok (!v.shown.same w)
  | .not p, v => do return !(← p.holds v)
  | .panic p, _ => .error p

/-- A predicate on failures.  A predicate on values sees the pair of tag and message. -/
inductive FailurePred
  | tag (t : String)
  | message (m : String)
  | shown (p : Pred)

/-- Whether a failure satisfies a predicate. -/
def FailurePred.holds : FailurePred → Failure → Except Panic Bool
  | .tag t, f => .ok (f.tag == t)
  | .message m, f => .ok (f.message == m)
  | .shown p, f => p.holds f.shown

/-! ## Schedules -/

/-- A schedule over predicates of type `π`. -/
inductive ScheduleExpr (π : Type)
  | recurs (n : Nat)
  | fixed (d : Duration)
  | spaced (d : Duration)
  | forever
  | fibonacci (d : Duration)
  | exponential (d : Duration) (factor : Float)
  | whileInput (p : π)
  /-- The delay at each attempt; no entry means to stop. -/
  | table (delays : List (Option Duration))
  | intersect (first second : ScheduleExpr π)
  | union (first second : ScheduleExpr π)
  | upTo (s : ScheduleExpr π) (limit : Duration)

/-- The decision that a table makes at an attempt. -/
def tableDecision (delays : List (Option Duration)) (attempt : Nat) : Decision :=
  match delays[attempt]? with
  | some (some d) => .again d
  | _ => .stop

/-- The schedule of an expression, given what its predicates mean. -/
def ScheduleExpr.schedule {π α : Type} (holds : π → α → Except Panic Bool) :
    ScheduleExpr π → Schedule α
  | .recurs n => .recurs n
  | .fixed d => .fixed d
  | .spaced d => .spaced d
  | .forever => .forever
  | .fibonacci d => .fibonacci d
  | .exponential d factor => .exponential d factor
  | .whileInput p => .whileInput (holds p)
  | .table delays => .ofFunction fun attempt _ => .ok (tableDecision delays attempt)
  | .intersect a b => .intersect (a.schedule holds) (b.schedule holds)
  | .union a b => .union (a.schedule holds) (b.schedule holds)
  | .upTo s limit => .upToDelay (s.schedule holds) limit

end EffectFibers.Program
