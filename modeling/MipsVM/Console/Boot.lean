import MipsVM.Console.Logger
import MipsVM.Sync.OnceCell

/-!
# The console at boot

Text goes to a sink that is registered once; what is printed before that is lost. A logger is
likewise kept once, and it is installed once as the logger of all log lines.

## Main definitions

- `State`: the registered sink, what each sink received, the logger and the global filter
- `State.print`, `State.registerSink`, `State.installLogger`
- `bootReport`: what a start-up sequence that tries everything twice shows

## Main statements

- `registerSink_of_isReady`: only the first registration takes effect
-/

namespace MipsVM.Console

/-- A second logger is not installed. -/
structure AlreadyInstalled where
  deriving DecidableEq

/-- The text of the refusal. -/
def AlreadyInstalled.message (_ : AlreadyInstalled) : String :=
  "attempted to set a logger after the logging system was already initialized"

/-- The state of the console. Sinks are named by numbers. -/
structure State where
  sink : OnceCell Nat
  /-- What was written to which sink, in order. -/
  written : List (Nat × String)
  logger : OnceCell Logger
  /-- Whether a logger is installed as the logger of all log lines. -/
  installed : Bool
  /-- The filter before any logger is asked. -/
  maxLevel : LevelFilter

namespace State

/-- The console before anything was registered. -/
def new : State :=
  ⟨.empty, [], .empty, false, .off⟩

/-- What a sink received. -/
def received (c : State) (sink : Nat) : String :=
  String.join ((c.written.filter (·.1 = sink)).map (·.2))

/-- Print a text, which is lost if no sink is registered. -/
def print (c : State) (text : String) : State :=
  match c.sink.get? with
  | some sink => { c with written := c.written ++ [(sink, text)] }
  | none => c

/-- Register a sink, or get it back. -/
def registerSink (c : State) (sink : Nat) : Except Nat State :=
  match c.sink.set sink with
  | .ok cell => .ok { c with sink := cell }
  | .error rejected => .error rejected

/-- Keep a logger, unless there is one, and install the one that is kept. -/
def installLogger (c : State) (logger : Logger) : Except AlreadyInstalled Unit × State :=
  let kept := (c.logger.get?).getD logger
  let c := { c with logger := .ready kept }
  if c.installed then (.error ⟨⟩, c)
  else (.ok (), { c with installed := true, maxLevel := kept.maxLevel })

/-- Only the first registration takes effect. -/
theorem registerSink_of_isReady {c : State} {first : Nat} (h : c.sink = .ready first) (sink : Nat) :
    c.registerSink sink = .error sink := by
  unfold registerSink
  rw [h]
  rfl

end State

/-- What the start-up sequence shows. -/
structure BootReport where
  sinkBefore : Bool
  setFirst : Bool
  setSecond : Bool
  printedBeforeSink : String
  printed : String
  init : Except AlreadyInstalled Unit
  maxLevel : LevelFilter
  initAgain : Except AlreadyInstalled Unit
  maxLevelAfter : LevelFilter
  sinkAfter : Bool
  otherSink : String

/-- The console that is left, and whether the sink was registered. -/
def State.trySink (c : State) (sink : Nat) : Bool × State :=
  match c.registerSink sink with
  | .ok left => (true, left)
  | .error _ => (false, c)

/-- Print a line without a sink, register two sinks, print another line, and install two loggers. -/
def bootReport : BootReport :=
  let start := State.new.print "dropped before a sink exists\n"
  let (setFirst, c) := start.trySink 0
  let (setSecond, c) := c.trySink 1
  let before := c.received 0
  let c := c.print s!"frames: {256}\n"
  let (init, first) := c.installLogger ⟨.upTo .trace⟩
  let (initAgain, second) := first.installLogger ⟨.upTo .info⟩
  { sinkBefore := start.sink.isReady
    setFirst := setFirst
    setSecond := setSecond
    printedBeforeSink := before
    printed := (second.received 0).drop before.length |>.toString
    init := init
    maxLevel := first.maxLevel
    initAgain := initAgain
    maxLevelAfter := second.maxLevel
    sinkAfter := second.sink.isReady
    otherSink := second.received 1 }

end MipsVM.Console
