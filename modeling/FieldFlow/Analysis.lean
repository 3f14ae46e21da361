import FieldFlow.Fault

/-!
# Analyses of field types

An analysis knows, for one type of field, how the values written in a model are read and which
element stands for an unknown value.

Main definitions: `Analysis`, `Analysis.string`, `Analysis.int`, `Analyses`.
-/

namespace FieldFlow

/-- How the values of one field type are read. -/
structure Analysis where
  /-- The elements that a model's texts stand for. -/
  read : List String → Except Fault (List Element)
  /-- The element used when nothing is known. -/
  top : Element

namespace Analysis

/-- Every text stands for itself, and a pattern that matches all of them for an unknown one. -/
def string : Analysis where
  read texts := .ok (texts.map Element.string)
  top := .string "(.*)"

/-- Reads the texts as integers; the first that is none decides the fault. -/
def readIntegers : List String → Except Fault (List Element)
  | [] => .ok []
  | text :: rest =>
    match Integer.read text with
    | .error refusal => .error (.badInteger text refusal)
    | .ok n => do return .int n :: (← readIntegers rest)

/-- A text is read as a decimal integer, and `-1` stands for an unknown one. -/
def int : Analysis where
  read := readIntegers
  top := .int (-1)

end Analysis

/-- The analysis of each field type. -/
abbrev Analyses := List (String × Analysis)

namespace Analyses

/-- The types that are known by default. -/
def defaults : Analyses := [("string", .string), ("int", .int)]

/-- The analysis of a type. -/
def find? (analyses : Analyses) (type : String) : Option Analysis := analyses.lookup type

/-- Binds a type to an analysis, in place of an earlier one. -/
def bind (analyses : Analyses) (type : String) (analysis : Analysis) : Analyses :=
  (type, analysis) :: analyses.filter (fun entry => entry.1 ≠ type)

/-- The known types, in order. -/
def types (analyses : Analyses) : List String :=
  (analyses.map Prod.fst).mergeSort (fun a b => a ≤ b)

/-- Reads the texts with the analysis of the type. -/
def read (analyses : Analyses) (type : String) (texts : List String) :
    Except Fault (List Element) :=
  match analyses.find? type with
  | none => .error (.noAnalysis type)
  | some analysis => analysis.read texts

end Analyses

end FieldFlow
