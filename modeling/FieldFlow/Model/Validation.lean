import FieldFlow.Model.Basic
import FieldFlow.Model.Version
import FieldFlow.Text.Integer
import FieldFlow.Text.Quoted

/-!
# Validation of models

A model is valid if its version is a first major version, its objects are named and distinct, its
fields are named, and every operation has an action and the operands that the action needs.  Actions
as such are not checked here.  The first violation in document order is reported.

Main definitions: `Model.Violation`, `Model.validate`.
-/

namespace FieldFlow.Model

/-- What is wrong with an operation. -/
inductive OpViolation where
  | missingAction
  | withoutValues (action : String)
  | valuesAndRef
  | incompleteRef
deriving DecidableEq, Repr

/-- What is wrong with a model, and where. -/
inductive Violation where
  | badVersion (version : String)
  | unsupportedVersion (version : String)
  | missingId (index : Nat)
  | duplicated (id : ObjectId)
  | unnamedField (id : ObjectId) (path : Nat)
  | badOp (id : ObjectId) (path : Nat) (field : String) (op : Nat) (violation : OpViolation)
deriving DecidableEq, Repr

/-- The wording of what is wrong with an operation. -/
def OpViolation.text : OpViolation → String
  | missingAction => "missing action"
  | withoutValues action => action ++ " without values"
  | valuesAndRef => "both values and ref"
  | incompleteRef => "ref without symbol or point"

/-- The wording of a violation, without the closing remark that the model is invalid. -/
def Violation.text : Violation → String
  | badVersion version => "version " ++ Text.quote version
  | unsupportedVersion version => "unsupported version " ++ version
  | missingId index => "object " ++ Nat.repr index ++ ": missing symbol or point"
  | duplicated id => "object " ++ id.text ++ ": duplicated"
  | unnamedField id path => "object " ++ id.text ++ " path " ++ Nat.repr path ++ ": unnamed field"
  | badOp id path field op violation =>
    "object " ++ id.text ++ " path " ++ Nat.repr path ++ " field " ++ field ++ " op " ++
      Nat.repr op ++ ": " ++ violation.text

/-- The wording of a violation. -/
def Violation.message (v : Violation) : String := v.text ++ ": invalid model"

/-- The actions that need values unless they have a reference. -/
def needsValues (action : String) : Bool :=
  action = "add" || action = "remove" || action = "replace"

/-- Checks one operation. -/
def Op.validate (op : Op) : Except OpViolation Unit :=
  if op.action = "" then .error .missingAction
  else match op.ref with
    | none =>
      if needsValues op.action && op.values.isEmpty then
        .error (.withoutValues op.action) else .ok ()
    | some target =>
      if !op.values.isEmpty then .error .valuesAndRef
      else if target.symbol = "" || target.point = "" then .error .incompleteRef
      else .ok ()

/-- Checks the operations of a field, numbered from `index`. -/
def validateOps (id : ObjectId) (path : Nat) (field : String) (index : Nat) :
    List Op → Except Violation Unit
  | [] => .ok ()
  | op :: rest =>
    match op.validate with
    | .error violation => .error (.badOp id path field index violation)
    | .ok () => validateOps id path field (index + 1) rest

/-- Checks the fields of a path. -/
def validateFields (id : ObjectId) (path : Nat) : List Field → Except Violation Unit
  | [] => .ok ()
  | f :: rest =>
    if f.name = "" then .error (.unnamedField id path)
    else do
      validateOps id path f.name 0 f.ops
      validateFields id path rest

/-- Checks the paths of an object, numbered from `index`. -/
def validatePaths (id : ObjectId) (index : Nat) : List Path → Except Violation Unit
  | [] => .ok ()
  | p :: rest => do
    validateFields id index p.fields
    validatePaths id (index + 1) rest

/-- Checks the objects, numbered from `index`, after those in `seen`. -/
def validateObjects (index : Nat) (seen : List ObjectId) : List Object → Except Violation Unit
  | [] => .ok ()
  | o :: rest =>
    if o.symbol = "" || o.point = "" then .error (.missingId index)
    else if seen.contains o.id then .error (.duplicated o.id)
    else do
      validatePaths o.id 0 o.paths
      validateObjects (index + 1) (o.id :: seen) rest

/-- Checks a version: it is a semantic version, and the first number is one.  `major?` recognizes
semantic versions and gives their first number. -/
def validateVersion (major? : String → Option String) (version : String) :
    Except Violation Unit :=
  match major? version with
  | none => .error (.badVersion version)
  | some major => if major = "1" then .ok () else .error (.unsupportedVersion version)

/-- Checks a model, whose version `major?` recognizes; the first violation in document order is
reported. -/
def validateBy (major? : String → Option String) (m : Model) : Except Violation Unit := do
  validateVersion major? m.version
  validateObjects 0 [] m.objects

/-- Checks a model. -/
def validate (m : Model) : Except Violation Unit := m.validateBy Version.major?

end FieldFlow.Model
