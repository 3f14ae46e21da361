import FieldFlow.Workspace

/-!
# Resolving references

A deferred sequence is replayed once the values that it refers to are known.  Each reference leads
to alternative transformers, one for each content that the referenced field may have; a path of the
referenced value that does not track the field gives no transformer at all.  Different references
resolve independently, so the alternatives of a sequence, and the final branches of a path, are
cross products.

Main definitions: `Resolver.alternatives`, `Resolver.finalValues`, `Resolver.branches`,
`Resolver.final`.
-/

namespace FieldFlow

/-- What references lead to. -/
structure Resolver where
  /-- The value known for a symbol at a point, given as point and symbol. -/
  resultAt : Element → Element → Option Propagation
  /-- The final form of a value; nothing if it is not known. -/
  finalize : Propagation → Work (Option Propagation)
  /-- Provides the transformer that stands for an unknown value of a field type, if there is a
  provider. -/
  provider : Option (String → Work Transformer)

/-- Alternatives for one reference, and whether they stand for an unknown value. -/
structure Alternatives where
  isTop : Bool
  /-- No transformer stands for a path that does not track the field. -/
  outcome : Except Fault (List (Option Transformer))

namespace Resolver

/-- The rank of an alternative; a missing one comes first. -/
def rankOf (t : Option Transformer) : Rank := (t.map Transformer.rank).getD .first

/-- The distinct instances among the alternatives, in order. -/
def sortTransformers (alternatives : List (Option Transformer)) : List (Option Transformer) :=
  Ordered.distinctBy Rank.le rankOf alternatives

/-! ## One reference -/

/-- Folds elements into `start`, each by the transformer that the operation makes of it. -/
def foldElements (op : String) (start : Transformer) : List Element → Work Transformer
  | [] => pure start
  | x :: rest => do
    let next ← Work.attempt (Manager.makeLiteral op x)
    let composed ← Work.managed (Manager.compose start next)
    foldElements op composed rest

/-- The transformer for one content of the referenced field. -/
def ofContent (op : String) : Option Value → Work (Option Transformer)
  | none => pure none
  | some v => do
    let identity := (← get).manager.identity
    return some (← foldElements op identity (OptionalSet.elements v.set))

/-- The transformers for all contents of the referenced field, in the order of the contents. -/
def ofContents (op : String) : List (Option Value) → Work (List (Option Transformer))
  | [] => pure []
  | v :: rest => do
    let t ← ofContent op v
    let others ← ofContents op rest
    return t :: others

/-- The final form of the referenced value, or nothing if it is unknown or top. -/
def reach (r : Resolver) (point symbol : Element) : Work (Option Propagation) :=
  match r.resultAt point symbol with
  | none => pure none
  | some v =>
    if v.isTop then pure none
    else do
      match ← Work.within (.finalizing symbol point) (r.finalize v) with
      | some final => return if final.isTop then none else some final
      | none => return none

/-- The canonical transformer that stands for an unknown value of a field type. -/
def top (r : Resolver) (type : String) : Work Transformer :=
  match r.provider with
  | none => throw (.noTop type)
  | some provide => do
    let t ← provide type
    Work.managed (Manager.intern t)

/-- The alternatives for the value of `symbol` at `point`, whose `field` is folded in with `op`.  An
unknown value gives the single top transformer of `type`. -/
def alternatives (r : Resolver) (point symbol : Element) (field type op : String) :
    StateM Workspace Alternatives := do
  let place := [("symbol", symbol.display), ("point", point.display), ("field", field)]
  match ← (r.reach point symbol).run with
  | .error fault => return ⟨false, .error fault⟩
  | .ok none =>
    Workspace.report .debug "referenced value unknown, returning top" place
    match ← (r.top type).run with
    | .error fault => return ⟨true, .error fault⟩
    | .ok t => return ⟨true, .ok [some t]⟩
  | .ok (some v) =>
    match ← (ofContents op (v.valuesFor field)).run with
    | .error fault => return ⟨false, .error fault⟩
    | .ok transformers =>
      let sorted := sortTransformers transformers
      Workspace.report .debug "resolved referenced value"
        (place ++ [("transformers", Nat.repr sorted.length)])
      return ⟨false, .ok sorted⟩

/-! ## Sequences -/

/-- One alternative so far, followed by one for the next reference and by what comes after it; a
missing one stays missing. -/
def layer (after : List Transformer) :
    Option Transformer × Option Transformer → Managed (Option Transformer)
  | (some current, some next) => do
    let t ← Manager.compose current next
    return some (← Manager.composeAll t after)
  | _ => pure none

/-- Every pair of a member of the first list with one of the second. -/
def pairs {α β : Type} (first : List α) (second : List β) : List (α × β) :=
  first.flatMap fun a => second.map fun b => (a, b)

/-- The alternatives for one step of a sequence that stands in the field `holder`. -/
def stepAlternatives (r : Resolver) (holder : String) (step : Step Transformer) :
    Work (List (Option Transformer)) :=
  match step.ref with
  | none => do return [some (← get).manager.identity]
  | some ref => do
    let found ← ExceptT.lift
      (r.alternatives ref.point ref.symbol (ref.fieldIn holder) ref.type ref.op)
    match found.outcome with
    | .error fault => throw fault
    | .ok transformers => return transformers

/-- The alternatives `current`, each continued by the steps of a sequence. -/
def replay (r : Resolver) (holder : String) (current : List (Option Transformer)) :
    Sequence → Work (List (Option Transformer))
  | [] => pure current
  | step :: rest => do
    let next ← r.stepAlternatives holder step
    let composed ← Work.managed ((pairs current next).mapM (layer step.after))
    r.replay holder (sortTransformers composed) rest

/-- The transformers equivalent to a sequence, one for each choice of resolutions. -/
def sequenceTransformers (r : Resolver) (holder : String) (steps : Sequence) :
    Work (List (Option Transformer)) := do
  let identity := (← get).manager.identity
  r.replay holder [some identity] steps

/-! ## Values, paths and propagation values -/

/-- The value that an alternative makes of the partial content. -/
def applyAlternative (content : Value) : Option Transformer → Managed (Option Value)
  | none => pure none
  | some t => do return some (← Manager.apply t content)

/-- Every concrete value that `v` may stand for in `field`; a missing one stands for a branch that
does not track the field. -/
def finalValues (r : Resolver) (field : String) (v : Value) : Work (List (Option Value)) :=
  match v.sequence with
  | none => pure [some v]
  | some steps => do
    let transformers ← r.sequenceTransformers field steps
    let content ← Work.managed (Manager.internValue (.draft v.set none))
    let values ← Work.managed (transformers.mapM (applyAlternative content))
    return Propagation.sortValues values

/-- A branch with a final value for one more field; without a value the field is not tracked. -/
def extendBranch (field : String) : PathValue × Option Value → PathValue
  | (branch, some v) => branch.set field (some v)
  | (branch, none) => branch

/-- The branches, each extended by every final value of the pending fields.  Of extended branches
with the same key the last counts. -/
def extendBranches (r : Resolver) (branches : List PathValue) :
    List (String × Option Value) → Work (List PathValue)
  | [] => pure branches
  | (field, some v) :: rest => do
    let finals ← Work.within (.inField field) (r.finalValues field v)
    let extended : Keyed PathValue.key :=
      Keyed.ofList ((pairs branches finals).map (extendBranch field)).reverse
    r.extendBranches extended.toList rest
  | (_, none) :: rest => r.extendBranches branches rest

/-- The paths without pending fields that `p` stands for, in key order. -/
def branches (r : Resolver) (p : PathValue) : Work (List PathValue) :=
  let settled : PathValue := ⟨p.fields.filter (fun entry => !PathValue.isPending entry)⟩
  r.extendBranches [settled] (p.fields.toList.filter PathValue.isPending)

/-- The final branches of the listed paths; a path without pending fields is its own. -/
def branchesOfAll (r : Resolver) : List PathValue → Work (List PathValue)
  | [] => pure []
  | p :: rest => do
    let own ←
      if p.isIntermediate then Work.within (.inPath p.text) (r.branches p) else pure [p]
    let others ← r.branchesOfAll rest
    return own ++ others

/-- The value in which every path is replaced by its final branches.  Top, and a value that waits
for nothing, is its own final form. -/
def final (r : Resolver) (v : Propagation) : Work Propagation :=
  if v.isIntermediate then do
    let paths ← r.branchesOfAll v.toList
    let serial ← Work.managed Manager.nextSerial
    return .ofPaths serial paths
  else pure v

end Resolver

end FieldFlow
