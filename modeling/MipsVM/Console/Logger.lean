import MipsVM.Console.Level

/-!
# The console logger

A logger writes a line for each record that its filter admits.

## Main definitions

- `Logger`: a filter
- `Logger.write`: what is written for a record
- `ConsoleRequest`, `Logger.perform`: what can be done with a console whose sink is registered
-/

namespace MipsVM.Console

/-- A logger that admits records down to a severity. -/
structure Logger where
  maxLevel : LevelFilter
  deriving DecidableEq

namespace Logger

/-- Whether records of a severity are written. -/
def enabled (logger : Logger) (level : Level) : Bool :=
  logger.maxLevel.admits level

/-- What is written for a record. -/
def write (logger : Logger) (level : Level) (target text : String) : String :=
  if logger.enabled level then s!"[{level.name}] {target}: {text}\n" else ""

end Logger

/-- What can be done with a console. -/
inductive ConsoleRequest
  /-- Log a record. -/
  | log (level : Level) (target text : String)
  /-- Print a text as it is. -/
  | print (text : String)
  /-- Whether records of a severity are written. -/
  | enabled (level : Level)
  /-- The filter of the logger. -/
  | maxLevel
  /-- Wait until all is written; nothing is ever held back. -/
  | flush

/-- What a request to a console can be answered. -/
inductive ConsoleReply
  | done
  | flag (b : Bool)
  | filter (f : LevelFilter)

/-- What a request is answered, and what the sink receives. -/
def Logger.perform (logger : Logger) : ConsoleRequest → ConsoleReply × String
  | .log level target text => (.done, logger.write level target text)
  | .print text => (.done, text)
  | .enabled level => (.flag (logger.enabled level), "")
  | .maxLevel => (.filter logger.maxLevel, "")
  | .flush => (.done, "")

end MipsVM.Console
