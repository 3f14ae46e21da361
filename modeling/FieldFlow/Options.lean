import FieldFlow.Duration
import FieldFlow.Flag

/-!
# Options of a run

What the user may ask of a run.

Main definitions: `Options`, `Options.flags`, `Options.ofSettings`.
-/

namespace FieldFlow

/-- What the user asks of a run. -/
structure Options where
  /-- Log details too. -/
  doLog : Bool
  /-- Write the log to this file; empty for standard error. -/
  logFile : String
  /-- Compare with the results of this model; empty for none. -/
  compare : String
  /-- Finalize objects independently of each other; the results are the same. -/
  doParallel : Bool
  /-- Print the timers after the run. -/
  doPerformance : Bool
  /-- Stop after this time in nanoseconds; never unless it is positive. -/
  timeLimit : Int
deriving DecidableEq, Repr

namespace Options

/-- The flags that set options. -/
def flags : List Flag :=
  [⟨"doLog", [], true, "Do log at debug level."⟩,
    ⟨"logFile", [], false, "Write the log to this file instead of stderr."⟩,
    ⟨"compare", [], false, "Compare the results with the ones of this model."⟩,
    ⟨"timeLimit", [], false,
      "Set time limit to ?h?m?s or ?m?s or ?s, e.g. 1h15m30.918273645s."⟩,
    ⟨"doParallel", [], true, "Finalize the objects in parallel."⟩,
    ⟨"doPerformance", [], true, "Print the timers after the run."⟩]

/-- The wording of a refused time limit. -/
def refusalText (r : Duration.Refusal) : String := "timeLimit: " ++ r.message

/-- The options that were set; an empty time limit is none. -/
def ofSettings (s : Flag.Settings) : Except Duration.Refusal Options := do
  let limit := s.text "timeLimit"
  let timeLimit ← if limit = "" then .ok 0 else Duration.read limit
  return {
    doLog := s.isOn "doLog"
    logFile := s.text "logFile"
    compare := s.text "compare"
    doParallel := s.isOn "doParallel"
    doPerformance := s.isOn "doPerformance"
    timeLimit }

end Options

end FieldFlow
