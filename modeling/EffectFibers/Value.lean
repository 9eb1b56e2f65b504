import EffectFibers.Cause
import EffectFibers.Context
import EffectFibers.FiberStatus

/-!
# Values, failures and exits

The machine moves values of one dynamic type.  Most of it is plain data; besides, there are
handles of fibers and cells, contexts, and the outcomes of other effects as data.  A value of a
type that no combinator knows is `alien`: a combinator that looks at it gives up with a type
mismatch.

A declared failure carries a tag and a message.  It is kept either as such a pair or as a single
text `tag|message`; only the latter can be shown by someone who does not know its type.
-/

namespace EffectFibers

/-- How a program carries its failures. -/
inductive FailureStyle
  | tagged | plain
  deriving DecidableEq, Repr, Inhabited

/-- A declared failure. -/
inductive Failure
  | tagged (tag message : String)
  | plain (text : String)
  | alien
  deriving DecidableEq, Repr

namespace Failure

/-- The text before the first bar, and the text after it. -/
def splitBar (cs : List Char) : List Char × List Char :=
  (cs.takeWhile (· ≠ '|'), (cs.dropWhile (· ≠ '|')).drop 1)

/-- A failure with a tag and a message, in the style of the program. -/
def make (style : FailureStyle) (tag message : String) : Failure :=
  match style with
  | .tagged => .tagged tag message
  | .plain => .plain (tag ++ "|" ++ message)

def tag : Failure → String
  | .tagged tag _ => tag
  | .plain text => String.ofList (splitBar text.toList).1
  | .alien => ""

def message : Failure → String
  | .tagged _ message => message
  | .plain text => String.ofList (splitBar text.toList).2
  | .alien => ""

def text : Failure → String
  | .tagged tag message => tag ++ "|" ++ message
  | .plain text => text
  | .alien => ""

/-- The failure, if it is of a known type; only then can it be looked at or copied. -/
def known? : Failure → Option Failure
  | .alien => none
  | failure => some failure

end Failure

/-- A success value, or data that travels inside one. -/
inductive Value
  | null
  | bool (b : Bool)
  | int (n : Int)
  | str (s : String)
  | list (items : List Value)
  | object (fields : List (String × Value))
  | fiber (id : FiberId)
  | cell (index : Nat)
  | context (services : Context Value)
  | result (r : Except Failure Value)
  | exit (x : Except (Cause Failure) Value)
  | alien

instance : Inhabited Value := ⟨.null⟩

/-- The value, if it is of a known type. -/
def Value.known? : Value → Option Value
  | .alien => none
  | v => some v

/-- How an effect ends: its value, or a cause. -/
abbrev Exit := Except (Cause Failure) Value

namespace Exit

/-- Interrupted. -/
def interrupted : Exit := .error .interrupt

/-- Ended by a defect. -/
def died (d : Defect) : Exit := .error (.die d)

/-- The terminal status that goes with an exit. -/
def status : Exit → FiberStatus
  | .ok _ => .succeeded
  | .error (.fail _) => .failed
  | .error (.die _) => .died
  | .error .interrupt => .interrupted

/-- An exit as its reader gets it: a value or a failure of an alien type is a type mismatch. -/
def received : Exit → Exit
  | .ok .alien => .died .typeMismatch
  | .error (.fail .alien) => .died .typeMismatch
  | x => x

end Exit

end EffectFibers
