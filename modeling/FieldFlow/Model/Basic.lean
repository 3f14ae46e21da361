/-!
# Models

A model describes the objects to analyze.  An object is a symbol observed at a program point and
lists the paths that reach the point.  A path records, for each field, the operations applied to it
in program order.  An operation carries values or refers to another object.

Main definitions: `Model`, `ObjectId`.
-/

namespace FieldFlow

/-- Identifies an object in a model. -/
structure ObjectId where
  symbol : String
  point : String
deriving DecidableEq, Repr, Hashable

namespace ObjectId

/-- The identifier as it is shown to a reader. -/
def text (id : ObjectId) : String := id.symbol ++ "@" ++ id.point

/-- The order by symbol, then by point. -/
def le (a b : ObjectId) : Bool :=
  if a.symbol = b.symbol then decide (a.point ≤ b.point) else decide (a.symbol ≤ b.symbol)

end ObjectId

namespace Model

/-- Names the value of another object.  The field defaults to the field of the operation, the
operation to adding. -/
structure Target where
  symbol : String
  point : String
  field : String
  op : String
deriving DecidableEq, Repr, Inhabited

/-- The object that a target names. -/
def Target.id (t : Target) : ObjectId := ⟨t.symbol, t.point⟩

/-- The operation used to fold in the referenced contents. -/
def Target.effectiveOp (t : Target) : String := if t.op = "" then "add" else t.op

/-- One operation on a field. -/
structure Op where
  action : String
  values : List String
  ref : Option Target
deriving DecidableEq, Repr, Inhabited

/-- The operations on one field, in program order. -/
structure Field where
  name : String
  type : String
  ops : List Op
deriving DecidableEq, Repr, Inhabited

/-- The type of the field's values; texts unless another type is declared. -/
def Field.valueType (f : Field) : String := if f.type = "" then "string" else f.type

/-- The fields along one path. -/
structure Path where
  fields : List Field
deriving DecidableEq, Repr, Inhabited

/-- One object and the paths that reach it. -/
structure Object where
  symbol : String
  point : String
  paths : List Path
deriving DecidableEq, Repr, Inhabited

/-- Identifies the object. -/
def Object.id (o : Object) : ObjectId := ⟨o.symbol, o.point⟩

/-- The operations of an object, in document order. -/
def Object.ops (o : Object) : List Op :=
  o.paths.flatMap fun p => p.fields.flatMap Field.ops

/-- The objects that an object refers to. -/
def Object.targets (o : Object) : List ObjectId :=
  o.ops.filterMap fun op => op.ref.map Target.id

end Model

/-- A versioned list of objects. -/
structure Model where
  version : String
  objects : List Model.Object
deriving DecidableEq, Repr, Inhabited

namespace Model

/-- From which object to which object the model's operations refer. -/
def references (m : Model) : List (ObjectId × ObjectId) :=
  m.objects.flatMap fun o => o.targets.map fun target => (o.id, target)

end Model

end FieldFlow
