import FieldFlow.Model.Basic
import FieldFlow.Resolution
import FieldFlow.Solver.Cycle

/-!
# Solving a model

The value of every object is built once: the operations of each field are composed in program order
and applied to an empty field.  References to other objects stay symbolic until an object is
finalized.  Objects on a reference cycle are top, so finalization follows references only from an
object to others that do not lead back to it, and it is never deeper than there are objects.

A solver keeps final values by the serial number of the value they belong to, so it finalizes a
value once.

Main definitions: `Solver.build`, `Solver.finalize`, `Solver.run`.
-/

namespace FieldFlow

/-- The values built for a model. -/
structure Solver where
  /-- Tells the solver apart from others. -/
  number : Nat
  /-- The objects in the order in which they are visited; an object that a model repeats is visited
  once for each repetition. -/
  ids : List ObjectId
  /-- The value built for each object; of several the first counts. -/
  values : List (ObjectId × Propagation)
  /-- The objects on reference cycles. -/
  tops : List ObjectId

namespace Solver

/-! ## Building -/

/-- The canonical transformers that an action makes of elements.  A replacement by several elements
clears once and adds the rest. -/
def literalTransformers (action : String) : List Element → Work (List Transformer)
  | [] => pure []
  | x :: rest => do
    let t ← Work.attempt (Manager.makeLiteral action x)
    let others ← literalTransformers (if action = "replace" then "add" else action) rest
    return t :: others

/-- The reference that an operation on the field `f` makes to its target. -/
def refOf (f : Model.Field) (target : Model.Target) : Ref :=
  { symbol := .string target.symbol
    point := .string target.point
    op := target.effectiveOp
    type := f.valueType
    field := target.field }

/-- The transformers of one operation. -/
def opTransformers (f : Model.Field) (op : Model.Op) : Work (List Transformer) :=
  match op.ref with
  | some target => do
    return [← Work.attempt (Manager.makeRef op.action (refOf f target))]
  | none => do
    match (← get).analyses.read f.valueType op.values with
    | .error fault => throw fault
    | .ok [] =>
      if op.action = "clear" then return [← Work.attempt (Manager.makeLiteral op.action .nil)]
      else throw (.withoutValues op.action)
    | .ok elements => literalTransformers op.action elements

/-- The operations of a field composed in order, from the left onto `start`. -/
def composeOps (f : Model.Field) (start : Transformer) : List Model.Op → Work Transformer
  | [] => pure start
  | op :: rest => do
    let transformers ← opTransformers f op
    let composed ← Work.managed (Manager.composeAll start transformers)
    composeOps f composed rest

/-- The value of a field: its operations applied to an empty field. -/
def buildField (f : Model.Field) : Work Value := do
  let identity := (← get).manager.identity
  let t ← composeOps f identity f.ops
  let start ← Work.managed (Manager.newConcrete [])
  Work.managed (Manager.apply t start)

/-- The path with the values of the fields added in order. -/
def buildFields (p : PathValue) : List Model.Field → Work PathValue
  | [] => pure p
  | f :: rest => do
    let v ← Work.within (.inField f.name) (buildField f)
    buildFields (p.set f.name (some v)) rest

/-- The values of the paths, in order. -/
def buildPaths : List Model.Path → Work (List PathValue)
  | [] => pure []
  | path :: rest => do
    let p ← buildFields .empty path.fields
    let others ← buildPaths rest
    return p :: others

/-- The value of an object. -/
def buildObject (o : Model.Object) : Work Propagation := do
  let paths ← buildPaths o.paths
  let serial ← Work.managed Manager.nextSerial
  return .ofPaths serial paths

/-- The values of the objects, the last object first. -/
def buildObjects (built : List (ObjectId × Propagation)) :
    List Model.Object → Work (List (ObjectId × Propagation))
  | [] => pure built
  | o :: rest => do
    let v ← Work.within (.inObject o.id.text) (buildObject o)
    buildObjects ((o.id, v) :: built) rest

/-- The objects of a model that lie on reference cycles, where `split` finds the components of a
graph. -/
def topsBy (split : Cycle.Graph → List ObjectId → List (List ObjectId)) (m : Model) :
    List ObjectId :=
  let ids := Ordered.distinctBy ObjectId.le id (m.objects.map Model.Object.id)
  let onCycle := Std.HashSet.ofList (Cycle.cyclicBy split m)
  ids.filter onCycle.contains

/-- The objects of a model that lie on reference cycles. -/
def topsOf (m : Model) : List ObjectId := topsBy Cycle.components m

/-- Adds to the log that the objects are top. -/
def reportTops : List ObjectId → Work Unit
  | [] => pure ()
  | id :: rest => do
    Work.report .info "object on a reference cycle, using top" [("object", id.text)]
    reportTops rest

/-- The number of a new solver. -/
def nextNumber : Work Nat := do
  let number := (← get).solvers
  modify fun w => { w with solvers := number + 1 }
  return number

/-- Builds the value of every object. -/
def build (m : Model) : Work Solver := do
  let number ← nextNumber
  let values ← buildObjects [] m.objects
  let tops := topsOf m
  reportTops tops
  return { number, ids := (m.objects.map Model.Object.id).mergeSort ObjectId.le, values, tops }

/-! ## Looking up -/

/-- The value built for an object, before finalization. -/
def value? (s : Solver) (id : ObjectId) : Option Propagation :=
  if id ∈ s.tops then some .top else s.values.lookup id

/-- The value at a point for a symbol; both are known by their display forms. -/
def resultAt (s : Solver) (point symbol : Element) : Option Propagation :=
  s.value? ⟨symbol.display, point.display⟩

/-! ## Finalizing -/

/-- Counts a request for the final form of a value. -/
def countRequest : Work Unit := modify fun w => { w with requests := w.requests + 1 }

/-- The resolver that finds the values of the model and finalizes them by `finalize`. -/
def resolver (s : Solver) (finalize : Propagation → Work Propagation) : Resolver where
  resultAt := s.resultAt
  finalize v := do return some (← finalize v)
  provider := some Work.topTransformer

/-- The final form of a value, in which referenced values are finalized by `finalize`.  A value that
was finalized before has its final form in the solver's table. -/
def finalizeUsing (s : Solver) (finalize : Propagation → Work Propagation) (v : Propagation) :
    Work Propagation := do
  countRequest
  match v with
  | .top => return .top
  | .paths serial _ =>
    match ((← get).finalsOf s.number).lookup serial with
    | some final => return final
    | none =>
      let final ← (s.resolver finalize).final v
      modify fun w => w.keepFinal s.number serial final
      return final

/-- The final form of a value, while references may be followed `depth` objects deep. -/
def finalizeWithin (s : Solver) : Nat → Propagation → Work Propagation
  | 0, _ => throw .tooDeep
  | depth + 1, v => s.finalizeUsing (s.finalizeWithin depth) v

/-- Chains of references between objects that are not top visit each object at most once. -/
def depth (s : Solver) : Nat := s.values.length + 1

/-- The final form of a value. -/
def finalize (s : Solver) (v : Propagation) : Work Propagation := s.finalizeWithin s.depth v

end Solver

/-- What a solver may be asked to finalize: a propagation value, or something else that is known by
the name of its type only. -/
inductive Referenced where
  | propagation (v : Propagation)
  | foreign (typeName : String)

/-- The final form of a propagation value; nothing else has one. -/
def Solver.finalizeReferenced (s : Solver) : Referenced → Work Propagation
  | .propagation v => s.finalize v
  | .foreign typeName => throw (.foreign typeName)

end FieldFlow
