import FieldFlow.Command.Host
import FieldFlow.Model.Reader
import FieldFlow.Solver.Result
import FieldFlow.Timers

/-!
# Analyzing a model file

A model is read, built and finalized in a workspace of its own.  Whatever the workspace logs is
written as soon as a step is done, also when the step failed.

Main definition: `Command.analyze`.
-/

namespace FieldFlow.Command

variable {m : Type → Type} [Monad m]

/-- What an analysis needs. -/
structure Setting (m : Type → Type) where
  host : Host m
  target : Host.LogTarget
  /-- The time at which runs stop, if any. -/
  deadline : Option Nat

/-- Runs work in a workspace, and writes what it logged. -/
def perform {α : Type} (s : Setting m) (w : Workspace) (work : Work α) :
    m (Except Fault α × Workspace) := do
  let (outcome, after) := work.run.run { w with log := [] }
  s.host.logEntries s.target after.log.reverse
  return (outcome, after)

/-- The deadline has passed. -/
def isLate (s : Setting m) : m Bool := do
  match s.deadline with
  | none => return false
  | some deadline => return decide (deadline ≤ (← s.host.now))

/-- Finalizes the listed objects in order, and takes the time of each. -/
def visitAll (s : Setting m) (solver : Solver) (w : Workspace) (timers : Timers) (result : Result) :
    List ObjectId → m (Except Fault (Result × Timers × Workspace))
  | [] => return .ok (result, timers, w)
  | id :: rest => do
    if ← isLate s then return .error .deadlineExceeded
    else
      let begun ← s.host.now
      match ← perform s w (solver.visit id) with
      | (.error fault, _) => return .error fault
      | (.ok final, w) =>
        let elapsed := (← s.host.now) - begun
        visitAll s solver w (timers.addObject elapsed final.size) (result.put id final) rest

/-- Reads the model in a file. -/
def readModel (s : Setting m) (path : String) : m (Except Octets Model) := do
  match ← s.host.readFile path with
  | .error fault =>
    if fault.operation = "open" then
      return .error (Octets.ofString ("opening model: " ++ fault.text))
    else return .error (Octets.ofString (path ++ ": reading model: " ++ fault.text))
  | .ok text =>
    match Model.decode text with
    | .error refusal => return .error (Octets.ofString (path ++ ": ") ++ refusal.message)
    | .ok model => return .ok model

/-- Reads, builds and finalizes the model in a file. -/
def analyze (s : Setting m) (path : String) : m (Except Octets (Result × Timers)) := do
  let start ← s.host.now
  match ← readModel s path with
  | .error message => return .error message
  | .ok model =>
    let parsed ← s.host.now
    match ← perform s (Workspace.standard true) (Solver.build model) with
    | (.error fault, _) => return .error (Fault.inModel path fault).message
    | (.ok solver, w) =>
      let built ← s.host.now
      s.host.logEntry s.target
        ⟨.info, "model built", [("model", path), ("objects", Nat.repr model.objects.length)]⟩
      let timers : Timers :=
        { Timers.zero with parsing := parsed - start, composition := built - parsed }
      match ← visitAll s solver w timers .empty solver.ids with
      | .error fault => return .error (Fault.inModel path fault).message
      | .ok (result, timers, w) =>
        let done ← s.host.now
        s.host.logEntry s.target
          ⟨.info, "model finalized",
            [("model", path), ("interned", Nat.repr w.manager.pool.size)]⟩
        return .ok (result, { timers with generation := done - built })

end FieldFlow.Command
