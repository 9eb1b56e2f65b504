import EffectFibers.Text.Numeral
import EffectFibers.Duration

/-!
# Reading settings from variables

A setting is a variable that is unset, or set to bytes that may or may not be text.  Reading one
never fails loudly: a variable that is unset, not text or malformed counts as absent, and the
caller's default stands.  Numbers, words and characters are read after trimming blanks; a plain
text is taken as it is.
-/

namespace EffectFibers

/-- The bytes of a variable, if it is set. -/
abbrev Setting := Option ByteArray

namespace Setting

/-- The text of a variable that is set to text. -/
def text? (s : Setting) : Option String := s.bind fun bytes => String.fromUTF8? bytes

/-- The text without blanks at its ends. -/
def trimmed? (s : Setting) : Option String := s.text?.map Text.trim

/-- A whole number of the given number of bits. -/
def natural? (bits : Nat) (s : Setting) : Option Nat :=
  s.trimmed?.bind (Text.natural? (Text.maxOfBits bits))

/-- A signed whole number of the given number of bits. -/
def integer? (bits : Nat) (s : Setting) : Option Int :=
  s.trimmed?.bind (Text.integer? (- (1 <<< (bits - 1) : Nat)) ((1 <<< (bits - 1) : Nat) - 1))

/-- One of the two truth values, spelled out. -/
def truth? (s : Setting) : Option Bool :=
  match s.trimmed? with
  | some "true" => some true
  | some "false" => some false
  | _ => none

/-- A single character. -/
def char? (s : Setting) : Option Char :=
  match s.trimmed?.map String.toList with
  | some [c] => some c
  | _ => none

/-- A switch: several words for on and for off, in any case.  No letter outside ASCII has one of
the letters of these words as its lower case, so ASCII letters alone are lowered. -/
def switch (default : Bool) (s : Setting) : Bool :=
  match s.trimmed?.map String.toLower with
  | some word =>
    if word ∈ ["1", "true", "yes", "on"] then true
    else if word ∈ ["0", "false", "no", "off"] then false
    else default
  | none => default

/-- A number of milliseconds. -/
def millis (default : Duration) (s : Setting) : Duration :=
  match s.natural? 64 with
  | some n => .ofMillis n
  | none => default

/-- The text as it stands. -/
def plain (default : String) (s : Setting) : String := s.text?.getD default

end Setting

/-- The variables of a process, by name. -/
abbrev Variables := List (String × ByteArray)

/-- The variable of that name. -/
def Variables.find (vars : Variables) (name : String) : Setting :=
  (vars.find? fun entry => entry.1 == name).map (·.2)

end EffectFibers
