import EffectFibers.Duration
import EffectFibers.Text.Quoted

/-!
# Why an effect has no value

A fiber ends with an exit: its value, or a cause.  There are three causes.  A failure is declared
and can be recovered; a defect is undeclared and passes every handler; an interrupt is
cancellation from outside and passes them too.

## Main definitions

* `Defect` – what went wrong, by kind, with a message.
* `Cause ε` – a failure of type `ε`, a defect or an interrupt.
* `Panic` – what user code leaves behind when it breaks off; it becomes a defect of kind `panic`.
-/

namespace EffectFibers

/-- The payload of user code that broke off: a text, or something without a text. -/
inductive Panic
  | text (message : String)
  | payload
  deriving DecidableEq, Repr

/-- The category of a defect. -/
inductive DefectKind
  | panic | timeout | missingService | layer | internal | custom
  deriving DecidableEq, Repr

namespace DefectKind

/-- The word for a category in messages. -/
def text : DefectKind → String
  | .panic => "panic"
  | .timeout => "timeout"
  | .missingService => "missing service"
  | .layer => "layer"
  | .internal => "internal"
  | .custom => "defect"

/-- The name of a category in detailed output. -/
def debug : DefectKind → String
  | .panic => "Panic"
  | .timeout => "Timeout"
  | .missingService => "MissingService"
  | .layer => "Layer"
  | .internal => "Internal"
  | .custom => "Custom"

/-- All categories. -/
def all : List DefectKind := [.panic, .timeout, .missingService, .layer, .internal, .custom]

/-- The category that a word stands for. -/
def ofText? (word : String) : Option DefectKind := all.find? (·.text == word)

end DefectKind

/-- An undeclared failure. -/
structure Defect where
  kind : DefectKind
  message : String
  deriving DecidableEq, Repr

namespace Defect

/-- A defect that a program raises itself. -/
def custom (message : String) : Defect := ⟨.custom, message⟩

/-- A broken rule of the runtime. -/
def internal (message : String) : Defect := ⟨.internal, message⟩

/-- A time limit ran out. -/
def timeout (after : Duration) : Defect := ⟨.timeout, "timed out after " ++ after.debug⟩

/-- A service was looked up that the context does not hold. -/
def missingService (name : String) : Defect := ⟨.missingService, "service not found: " ++ name⟩

/-- A layer graph could not be planned, for the reason given. -/
def layer (reason : String) : Defect := ⟨.layer, reason⟩

/-- User code broke off. -/
def ofPanic : Panic → Defect
  | .text message => ⟨.panic, message⟩
  | .payload => ⟨.panic, "panic with non-string payload"⟩

/-- A value or failure of a type that the receiver does not expect. -/
def typeMismatch : Defect := internal "type mismatch"

def text (d : Defect) : String := d.kind.text ++ ": " ++ d.message

def debug (d : Defect) : String :=
  Text.record "Defect" [("kind", d.kind.debug), ("message", Text.quoted d.message)]

end Defect

/-- Why there is no value. -/
inductive Cause (ε : Type)
  | fail (error : ε)
  | die (defect : Defect)
  | interrupt
  deriving DecidableEq, Repr

namespace Cause

variable {ε ε' : Type}

def isFailure : Cause ε → Bool
  | .fail _ => true
  | _ => false

def isDie : Cause ε → Bool
  | .die _ => true
  | _ => false

def isInterrupt : Cause ε → Bool
  | .interrupt => true
  | _ => false

/-- The declared failure, if that is the cause. -/
def failure? : Cause ε → Option ε
  | .fail error => some error
  | _ => none

/-- The defect, if that is the cause. -/
def defect? : Cause ε → Option Defect
  | .die defect => some defect
  | _ => none

/-- Change the declared failure; defects and interrupts stay. -/
def map (f : ε → ε') : Cause ε → Cause ε'
  | .fail error => .fail (f error)
  | .die defect => .die defect
  | .interrupt => .interrupt

/-- The message, given the text of a failure. -/
def text (failure : ε → String) : Cause ε → String
  | .fail error => "failed: " ++ failure error
  | .die defect => "died: " ++ defect.text
  | .interrupt => "interrupted"

/-- The detailed form, given the detailed form of a failure. -/
def debug (failure : ε → String) : Cause ε → String
  | .fail error => "Fail(" ++ failure error ++ ")"
  | .die defect => "Die(" ++ defect.debug ++ ")"
  | .interrupt => "Interrupt"

end Cause

end EffectFibers
