import FieldFlow.Analysis
import FieldFlow.Log
import FieldFlow.Manager
import FieldFlow.Propagation

/-!
# What a run changes

A workspace is everything that making and finalizing values changes: the manager with its pool, the
analyses, the log, the tables of finished values, and a few counts.  A computation in it may fail;
the changes made up to the failure stay.

Main definitions: `Workspace`, `Work`.
-/

namespace FieldFlow

/-- The state of a run. -/
structure Workspace where
  manager : Manager
  analyses : Analyses
  /-- The log, the latest entry first. -/
  log : List Log.Entry
  /-- The number of solvers that were begun. -/
  solvers : Nat
  /-- For each solver, the final forms that it has found, by the serial number of the value. -/
  finals : List (Nat × List (Nat × Propagation))
  /-- How often a value was asked to be finalized. -/
  requests : Nat
  /-- The objects visited by runs so far. -/
  objects : Nat
  /-- The final path values of those objects. -/
  pathValues : Nat

/-- A computation that may change the workspace, and whose changes outlive its failure. -/
abbrev Work := ExceptT Fault (StateM Workspace)

namespace Workspace

/-- A workspace with an empty pool, without factories and analyses. -/
def create : Workspace :=
  { manager := Manager.create (Pool.empty hash)
    analyses := []
    log := []
    solvers := 0
    finals := []
    requests := 0
    objects := 0
    pathValues := 0 }

/-- The final forms that a solver has found. -/
def finalsOf (w : Workspace) (solver : Nat) : List (Nat × Propagation) :=
  (w.finals.lookup solver).getD []

/-- Keeps the final form that a solver has found for the value with the given serial number. -/
def keepFinal (w : Workspace) (solver serial : Nat) (final : Propagation) : Workspace :=
  { w with
    finals := (solver, (serial, final) :: w.finalsOf solver) ::
      w.finals.filter (fun entry => entry.1 ≠ solver) }

/-- Runs a computation of the manager. -/
def managed {α : Type} (action : Managed α) : StateM Workspace α := fun w =>
  let (result, manager) := action.run w.manager
  (result, { w with manager })

/-- Adds an entry to the log. -/
def report (level : Log.Level) (message : String) (fields : List (String × String)) :
    StateM Workspace Unit :=
  modify fun w => { w with log := ⟨level, message, fields⟩ :: w.log }

/-- Binds an action to a factory; a later binding replaces an earlier one. -/
def bindAction (action : String) (factory : Factory) : StateM Workspace Unit := do
  if ((← get).manager.factory? action).isSome then
    report .debug "overriding field transformer factory" [("action", action)]
  modify fun w => { w with manager := w.manager.bind action factory }

/-- Binds the listed actions in order. -/
def bindActions : List (String × Factory) → StateM Workspace Unit
  | [] => pure ()
  | (action, factory) :: rest => do
    bindAction action factory
    bindActions rest

/-- Binds a field type to an analysis; a later binding replaces an earlier one. -/
def bindAnalysis (type : String) (analysis : Analysis) : StateM Workspace Unit := do
  if ((← get).analyses.find? type).isSome then
    report .debug "overriding argument analysis" [("type", type)]
  modify fun w => { w with analyses := w.analyses.bind type analysis }

/-- Binds the listed field types in order. -/
def bindAnalyses : Analyses → StateM Workspace Unit
  | [] => pure ()
  | (type, analysis) :: rest => do
    bindAnalysis type analysis
    bindAnalyses rest

/-- A workspace with the default analyses, and the default factories too if wanted. -/
def standard (withFactories : Bool) : Workspace :=
  let prepare : StateM Workspace Unit := do
    if withFactories then bindActions Factory.defaults
    bindAnalyses Analyses.defaults
  (prepare.run create).2

end Workspace

namespace Work

/-- Runs a computation of the manager, which cannot fail. -/
def managed {α : Type} (action : Managed α) : Work α :=
  ExceptT.lift (Workspace.managed action)

/-- Runs a computation of the manager, which may fail. -/
def attempt {α : Type} (action : ExceptT Fault Managed α) : Work α :=
  ExceptT.mk (Workspace.managed action.run)

/-- Adds an entry to the log. -/
def report (level : Log.Level) (message : String) (fields : List (String × String)) : Work Unit :=
  ExceptT.lift (Workspace.report level message fields)

/-- Says where a failure arose. -/
def within {α : Type} (place : Fault → Fault) (action : Work α) : Work α :=
  ExceptT.adapt place action

/-- The conservative transformer for a field of the given type: it adds the element that stands for
an unknown value.  A type without an analysis is treated as texts. -/
def topTransformer (type : String) : Work Transformer := do
  let analyses := (← get).analyses
  let analysis ←
    match analyses.find? type with
    | some analysis => pure analysis
    | none => do
      report .debug "no argument analysis, using string top" [("type", type)]
      pure ((analyses.find? "string").getD .string)
  attempt (Manager.makeLiteral "add" analysis.top)

end Work

end FieldFlow
