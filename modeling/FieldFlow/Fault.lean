import FieldFlow.Transformer

/-!
# Causes of failure

Everything that can go wrong while transformers are made, values are finalized and models are
built or run.  The first group are causes; the last group says where a cause arose, from the inside
out.  `Fault.message` gives the wording, and `Fault.cause` strips the places.
-/

namespace FieldFlow

/-- A cause of failure and where it arose. -/
inductive Fault where
  /-- No factory is registered for the action. -/
  | unknownAction (action : String)
  /-- The action needs an element and got none. -/
  | missingValue (action : String)
  /-- The action takes no reference. -/
  | referenceOperand (action : String) (ref : Ref)
  /-- The action takes a reference only. -/
  | literalOperand (action : String) (value : Element)
  /-- Nothing can stand for an unknown value of the type. -/
  | noTop (type : String)
  /-- Inline values of the type cannot be read. -/
  | noAnalysis (type : String)
  /-- An inline value is no integer. -/
  | badInteger (text : String) (refusal : Integer.Refusal)
  /-- The operation needs values and has none. -/
  | withoutValues (action : String)
  /-- One element was asked for and the field holds several. -/
  | severalValues (field : String)
  /-- A text was asked for and the field holds something else. -/
  | notText (field typeName : String)
  /-- Only propagation values can be finalized. -/
  | foreign (typeName : String)
  /-- The run was called off. -/
  | canceled
  /-- A chain of references is longer than any between objects that are not top. -/
  | tooDeep
  /-- The time limit has passed. -/
  | deadlineExceeded
  /-- A failure that the surrounding solver reports in its own words. -/
  | reported (text : String)
  | inAction (action : String) (inner : Fault)
  | finalizing (symbol point : Element) (inner : Fault)
  | inPath (path : String) (inner : Fault)
  | inField (field : String) (inner : Fault)
  | inObject (id : String) (inner : Fault)
  | inModel (path : String) (inner : Fault)

namespace Fault

/-- What went wrong, without the places. -/
def cause : Fault → Fault
  | inAction _ inner => inner.cause
  | finalizing _ _ inner => inner.cause
  | inPath _ inner => inner.cause
  | inField _ inner => inner.cause
  | inObject _ inner => inner.cause
  | inModel _ inner => inner.cause
  | fault => fault

/-- The wording of a reading that was refused. -/
def refusalText : Integer.Refusal → String
  | .malformed => "invalid syntax"
  | .outOfRange => "value out of range"

/-- The wording of a fault, the outermost place first. -/
def message : Fault → String
  | unknownAction action => Text.quote action ++ ": no factory for action"
  | missingValue action => "action " ++ Text.quote action ++ ": missing value: unsupported operand"
  | referenceOperand action ref =>
    "action " ++ Text.quote action ++ ": reference " ++ ref.text ++ ": unsupported operand"
  | literalOperand action value =>
    "action " ++ Text.quote action ++ ": literal " ++ value.display ++ ": unsupported operand"
  | noTop type => "no top transformer for type " ++ Text.quote type
  | noAnalysis type => "no argument analysis for type " ++ Text.quote type
  | badInteger text refusal =>
    "inline int value " ++ Text.quote text ++ ": strconv.Atoi: parsing " ++
      Text.quote text ++ ": " ++
      refusalText refusal
  | withoutValues action => action ++ " without values: invalid model"
  | severalValues field => "field " ++ field ++ ": more than one value"
  | notText field typeName => "field " ++ field ++ " holds " ++ typeName ++ ": not a string value"
  | foreign typeName => "cannot finalize " ++ typeName
  | canceled => "context canceled"
  | tooDeep => "chain of references too long"
  | deadlineExceeded => "context deadline exceeded"
  | reported text => text
  | inAction action inner => "action " ++ Text.quote action ++ ": " ++ inner.message
  | finalizing symbol point inner =>
    "finalizing " ++ symbol.display ++ "@" ++ point.display ++ ": " ++ inner.message
  | inPath path inner => "path " ++ path ++ ": " ++ inner.message
  | inField field inner => "field " ++ field ++ ": " ++ inner.message
  | inObject id inner => "object " ++ id ++ ": " ++ inner.message
  | inModel path inner => path ++ ": " ++ inner.message

end Fault

end FieldFlow
