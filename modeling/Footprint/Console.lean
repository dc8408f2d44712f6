/-!
# Messages for developers

Messages are printed while they are switched on.  A warning starts with a yellow
word and an error with a red one.
-/

namespace Footprint.Console

/-- The kinds of messages. -/
inductive Level where
  | plain
  | warning
  | error
deriving Repr, DecidableEq, Inhabited

/-- A word in a terminal colour. -/
def coloured (code word : String) : String := "\x1b[" ++ code ++ "m" ++ word ++ "\x1b[0m "

/-- What a message starts with. -/
def Level.start : Level → String
  | .plain => ""
  | .warning => coloured "33" "WARNING"
  | .error => coloured "31" "ERROR"

/-- What is printed for a message. -/
def message (enabled : Bool) (level : Level) (text : String) : String :=
  if enabled then level.start ++ text ++ "\n" else ""

end Footprint.Console
