import EffectFibers.Program.Function

/-!
# Outcomes as plain data

Programs write failures, exits and the results of native code as plain data: a failure is the pair
of its tag and its message, and an exit or a result is a list that begins with its kind.

## Main definitions

* `failureOfValue?` – failures.
* `exitOfValue?` – exits of effects.
* `resultOfValue?` – results of native code, which may also break off.
-/

namespace EffectFibers.Program

/-- The failure that a pair of texts stands for. -/
def failureOfValue? (style : FailureStyle) : Value → Option Failure
  | .list [.str tag, .str message] => some (.make style tag message)
  | _ => none

/-- The exit that plain data stands for. -/
def exitOfValue? (style : FailureStyle) : Value → Option Exit
  | .list [.str "ok", v] => some (.ok v)
  | .list [.str "fail", failure] => do
    return .error (.fail (← failureOfValue? style failure))
  | .list [.str "die", .str kind, .str message] => do
    return .died ⟨← DefectKind.ofText? kind, message⟩
  | .list (.str "interrupt" :: _) => some .interrupted
  | _ => none

/-- The result that plain data stands for.  An error is a text, and becomes a failure with the
given tag. -/
def resultOfValue? (style : FailureStyle) (tag : String) :
    Value → Option (Except Panic (Except Failure Value))
  | .list [.str "ok", v] => some (.ok (.ok v))
  | .list [.str "err", .str text] => some (.ok (.error (.make style tag text)))
  | .list (.str head :: args) => (panicOfForm? head args).map .error
  | _ => none

end EffectFibers.Program
