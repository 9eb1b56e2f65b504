import EffectFibers.Demo.Basic
import EffectFibers.Demo.Services

/-!
# Demonstrations

The demonstrations by their names.  Each one reads its settings from variables and prints some
lines.
-/

namespace EffectFibers

/-- What a demonstration prints, on a machine with so many processors; nothing is known under any
other name. -/
def demo? (processors : Nat) (vars : Variables) : String → Option (List String)
  | "basic" => some (Demo.Basic.output (.ofVariables processors vars))
  | "services" => some (Demo.Services.output (.ofVariables processors vars) vars)
  | _ => none

end EffectFibers
