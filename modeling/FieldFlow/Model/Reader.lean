import FieldFlow.Model.Validation
import FieldFlow.Yaml.Record

/-!
# Reading models

A model is written as a document with a fixed shape.  It is read strictly and then validated.

Main definitions: `Model.Refusal`, `Model.decode`.
-/

namespace FieldFlow.Model

open Yaml (Node Read Record)

/-- Why a text is no model. -/
inductive Refusal where
  | malformed (m : Yaml.Malformed)
  | mismatched (mismatches : List Yaml.Mismatch)
  | invalid (v : Violation)

/-- The wording of a refusal. -/
def Refusal.message : Refusal → Octets
  | malformed m => "decoding model: " ++ m.message
  | mismatched mismatches =>
    "decoding model: yaml: unmarshal errors:" ++
      Octets.join (mismatches.map fun m => "\n  " ++ m.message)
  | invalid v => v.message

/-! ## The shape of a model -/

/-- Reads a text into a field of a record.  The texts of a model are made of characters: an octet of
a binary scalar that belongs to none is kept as the replacement character. -/
def textField {ρ : Type} (put : ρ → String → ρ) (n : Node) (r : ρ) : Read ρ := do
  match ← Read.text n with
  | some octets => return put r octets.text
  | none => return r

/-- Reads a list of records into a field of a record. -/
def listField {ρ σ : Type} (t : Record σ) (put : ρ → List σ → ρ) (n : Node) (r : ρ) : Read ρ := do
  return put r (← Read.list ("[]" ++ t.name) t.readNew n)

/-- A target as it is written. -/
def targetRecord : Record Target where
  name := "model.Ref"
  default := ⟨"", "", "", ""⟩
  fields :=
    [("symbol", textField fun r text => { r with symbol := text }),
      ("point", textField fun r text => { r with point := text }),
      ("field", textField fun r text => { r with field := text }),
      ("op", textField fun r text => { r with op := text })]

/-- The values of an operation as they are written. -/
def valuesField (n : Node) (r : Op) : Read Op := do
  let item (n : Node) : Read String := do return ((← Read.text n).map Octets.text).getD ""
  return { r with values := ← Read.list "[]string" item n }

/-- An operation as it is written. -/
def opRecord : Record Op where
  name := "model.Op"
  default := ⟨"", [], none⟩
  fields :=
    [("action", textField fun r text => { r with action := text }), ("values", valuesField),
      ("ref", fun n r => do return { r with ref := ← targetRecord.readOptional n r.ref })]

/-- A field as it is written. -/
def fieldRecord : Record Field where
  name := "model.Field"
  default := ⟨"", "", []⟩
  fields :=
    [("name", textField fun r text => { r with name := text }),
      ("type", textField fun r text => { r with type := text }),
      ("ops", listField opRecord fun r ops => { r with ops := ops })]

/-- A path as it is written. -/
def pathRecord : Record Path where
  name := "model.Path"
  default := ⟨[]⟩
  fields := [("fields", listField fieldRecord fun r fields => { r with fields := fields })]

/-- An object as it is written. -/
def objectRecord : Record Object where
  name := "model.Object"
  default := ⟨"", "", []⟩
  fields :=
    [("symbol", textField fun r text => { r with symbol := text }),
      ("point", textField fun r text => { r with point := text }),
      ("paths", listField pathRecord fun r paths => { r with paths := paths })]

/-- A model as it is written. -/
def modelRecord : Record Model where
  name := "model.Model"
  default := ⟨"", []⟩
  fields :=
    [("version", textField fun r text => { r with version := text }),
      ("objects", listField objectRecord fun r objects => { r with objects := objects })]

/-- Reads a model without validating it. -/
def parse (text : String) : Except Refusal Model :=
  match modelRecord.read text with
  | .error m => .error (.malformed m)
  | .ok (model, []) => .ok model
  | .ok (_, mismatches) => .error (.mismatched mismatches)

/-- Reads and validates a model. -/
def decode (text : String) : Except Refusal Model := do
  let model ← parse text
  match model.validate with
  | .ok () => return model
  | .error v => throw (.invalid v)

end FieldFlow.Model
