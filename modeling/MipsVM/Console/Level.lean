/-!
# Severity levels

A log line has a severity, and a filter says from which severity on lines are let through.

## Main definitions

- `Level`: the severity of a line
- `LevelFilter`: nothing, or everything at least as severe as a level
- `LevelFilter.admits`: whether a filter lets a line of a severity through
-/

namespace MipsVM.Console

/-- The severity of a log line. -/
inductive Level
  | error
  | warn
  | info
  | debug
  | trace
  deriving DecidableEq

namespace Level

/-- The place of the severity from the most severe on. -/
def rank : Level → Nat
  | .error => 1
  | .warn => 2
  | .info => 3
  | .debug => 4
  | .trace => 5

/-- The name of the severity in a log line. -/
def name : Level → String
  | .error => "ERROR"
  | .warn => "WARN"
  | .info => "INFO"
  | .debug => "DEBUG"
  | .trace => "TRACE"

/-- All severities, the most severe first. -/
def all : List Level := [.error, .warn, .info, .debug, .trace]

/-- The severity of a name, in capitals or not. -/
def ofName? (text : String) : Option Level :=
  all.find? fun level => level.name = text.map Char.toUpper

end Level

/-- Which severities are let through. -/
inductive LevelFilter
  /-- None. -/
  | off
  /-- This severity and every graver one. -/
  | upTo (level : Level)
  deriving DecidableEq

namespace LevelFilter

/-- Whether lines of a severity pass the filter. -/
def admits : LevelFilter → Level → Bool
  | .off, _ => false
  | .upTo greatest, level => level.rank ≤ greatest.rank

/-- The name of the filter. -/
def name : LevelFilter → String
  | .off => "OFF"
  | .upTo level => level.name

/-- The filter of a name, in capitals or not. -/
def ofName? (text : String) : Option LevelFilter :=
  if text.map Char.toUpper = "OFF" then some .off else (Level.ofName? text).map .upTo

end LevelFilter

end MipsVM.Console
