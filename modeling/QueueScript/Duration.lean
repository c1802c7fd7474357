import QueueScript.Text.Case
import QueueScript.Number

/-!
# Durations

A duration is written as a number and a unit, `3s`, `250ms`, `20t`, or as a bare number of seconds.
It is held in whole milliseconds.
-/

namespace QueueScript.Duration

/-- The length of a tick in milliseconds. -/
def tickMillis : Float := 50.0

/-- The units and their lengths in milliseconds. -/
def unitMillis : List (String × Float) :=
  [("", 1000.0), ("t", tickMillis), ("ms", 1.0), ("s", 1000.0), ("m", 60000.0), ("h", 3600000.0),
   ("d", 86400000.0)]

/-- The duration that a text spells, blank ends and the case of the unit aside. -/
def ofText? (s : String) : Option Float := do
  let (whole, fraction, rest) ← Number.scanPlain (Text.trimChars s.toList)
  let millis ← unitMillis.lookup (String.ofList (rest.map Char.toLower))
  pure (Number.round (Number.ofPlain whole fraction * millis))

/-- The text of a duration: in seconds if it is a whole number of them. -/
def text (millis : Float) : String :=
  if Number.isMultipleOf 1000 millis then Number.text (millis / 1000.0) ++ "s"
  else Number.text millis ++ "ms"

end QueueScript.Duration
