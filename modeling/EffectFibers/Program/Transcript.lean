import EffectFibers.Record
import EffectFibers.Value.Shown

/-!
# Transcripts

A transcript is a record that can be compared with another one.  Fibers are numbered by the order
in which the record first names them, the root being number one, and the times of spans are
masked, as neither depends on the program.

## Main definitions

* `maskTimes` – a text with its times masked.
* `Numbering` – the numbers that fibers have got so far.
* `transcript` – the lines of a record.
-/

namespace EffectFibers.Program

/-! ## Masking times -/

/-- A word with the time at its end masked: the digits between an equals sign and the unit. -/
def maskWord (word : List Char) : List Char :=
  match word.reverse with
  | 's' :: 'm' :: rest =>
    match rest.takeWhile Char.isDigit, rest.dropWhile Char.isDigit with
    | _ :: _, '=' :: label => label.reverse ++ ['=', '_', 'm', 's']
    | _, _ => word
  | _ => word

/-- A text with the times at the ends of its words masked. -/
def maskTimes (s : String) : String :=
  " ".intercalate ((s.splitOn " ").map fun word => String.ofList (maskWord word.toList))

/-! ## Numbering fibers -/

/-- The fibers that have numbers; the first one has number one. -/
abbrev Numbering := List FiberId

/-- The number of a fiber, which gets the next one if it has none. -/
def Numbering.number (n : Numbering) (f : FiberId) : Nat × Numbering :=
  match n.idxOf? f with
  | some i => (i + 1, n)
  | none => (n.length + 1, n ++ [f])

/-- A field of a line. -/
inductive LineField
  | number (n : Nat)
  | text (s : String)
  deriving DecidableEq, Repr

/-- A line of a transcript. -/
inductive Line
  | note (v : Value)
  | log (level message : String) (fiber : Nat) (spans : String)
  | trace (level message : String) (fields : List (String × LineField))

/-- Number the fibers among the fields of an event. -/
def numberFields (n : Numbering) :
    List (String × TraceField) → List (String × LineField) × Numbering
  | [] => ([], n)
  | (name, .fiber f) :: rest =>
    let (i, n) := n.number f
    let (fields, n) := numberFields n rest
    ((name, .number i) :: fields, n)
  | (name, .text s) :: rest =>
    let (fields, n) := numberFields n rest
    ((name, .text s) :: fields, n)

/-- The line of an entry. -/
def line (n : Numbering) : Entry → Line × Numbering
  | .note v => (.note v, n)
  | .log level message f spans =>
    let (i, n) := n.number f
    (.log level.text message i (maskTimes spans), n)
  | .trace event =>
    let (fields, n) := numberFields n event.fields
    (.trace event.level.text event.message fields, n)

/-- The lines of entries, with the numbers that are given already. -/
def lines (n : Numbering) : List Entry → List Line
  | [] => []
  | entry :: rest =>
    let (first, n) := line n entry
    first :: lines n rest

/-- Whether an entry is an event of the machine itself. -/
def isTrace : Entry → Bool
  | .trace _ => true
  | _ => false

/-- The lines of the record of a run, with or without the events of the machine. -/
def transcript (root : FiberId) (traced : Bool) (record : List Entry) : List Line :=
  lines [root] (if traced then record else record.filter fun entry => !isTrace entry)

end EffectFibers.Program
