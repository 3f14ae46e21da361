import FieldFlow.Keyed
import FieldFlow.Text.Integer
import FieldFlow.Text.Quoted

/-!
# Elements and sets of elements

A field holds elements: texts, integers of two widths, truth values, or nothing at all.  Elements
that print alike but have different types are different; the key of an element names its type and
quotes its display form, and sets are ordered by it.

Main definitions: `Element`, `Element.key`, `ElementSet`.
-/

namespace FieldFlow

/-- One opaque value that a field may hold. -/
inductive Element where
  | string (text : String)
  | int (n : Int)
  | int64 (n : Int)
  | bool (b : Bool)
  | nil
deriving DecidableEq, Repr

namespace Element

/-- The name of the element's type. -/
def typeName : Element → String
  | string _ => "string"
  | int _ => "int"
  | int64 _ => "int64"
  | bool _ => "bool"
  | nil => "<nil>"

/-- The element as it is shown to a reader. -/
def display : Element → String
  | string text => text
  | int n => Integer.display n
  | int64 n => Integer.display n
  | bool true => "true"
  | bool false => "false"
  | nil => "<nil>"

/-- The type and the quoted display form, so that elements of different types differ. -/
def key (x : Element) : String := x.typeName ++ ":" ++ Text.quote x.display

end Element

/-- A finite set of elements, kept in the order of their keys. -/
abbrev ElementSet := Keyed Element.key

namespace ElementSet

/-- The set that holds the listed elements. -/
def ofList (elements : List Element) : ElementSet := Keyed.ofList elements

/-- The set that holds one element. -/
def singleton (x : Element) : ElementSet := Keyed.singleton x

/-- The element is in the set. -/
def contains (s : ElementSet) (x : Element) : Bool := decide (x ∈ s.toList)

/-- The elements of the first set that the second lacks. -/
def diff (s t : ElementSet) : ElementSet :=
  let taken := t.toList
  s.filter (fun x => decide (x ∉ taken))

/-- The display forms of the elements, in order. -/
def displays (s : ElementSet) : List String :=
  (s.toList.map Element.display).mergeSort (fun a b => a ≤ b)

/-- The display forms between brackets. -/
def text (s : ElementSet) : String := "[" ++ String.intercalate ", " s.displays ++ "]"

/-- The keys of the elements between braces. -/
def key (s : ElementSet) : String :=
  "\x7b" ++ String.intercalate "," s.keys ++ "\x7d"

end ElementSet

/-! ## Sets that may be absent -/

/-- A set that may be absent, which is not the same as an empty one. -/
abbrev OptionalSet := Option ElementSet

namespace OptionalSet

/-- The key of a set, with a dash for an absent one. -/
def key : OptionalSet → String
  | none => "-"
  | some s => s.key

/-- Adds elements, making the set present. -/
def add (s : OptionalSet) (t : ElementSet) : OptionalSet :=
  some ((s.getD Keyed.empty).union t)

/-- Takes elements away; an absent set stays absent. -/
def subtract (s : OptionalSet) (t : ElementSet) : OptionalSet :=
  s.map (fun present => present.diff t)

/-- The elements in order; an absent set has none. -/
def elements (s : OptionalSet) : List Element := (s.map Keyed.toList).getD []

/-- The display forms of the elements; an absent set has none. -/
def displays (s : OptionalSet) : List String := (s.map ElementSet.displays).getD []

/-- The display forms between brackets; an absent set looks like an empty one. -/
def text (s : OptionalSet) : String := (s.map ElementSet.text).getD "[]"

/-- The element is in the set; an absent set has none. -/
def contains (s : OptionalSet) (x : Element) : Bool := s.any (fun present => present.contains x)

/-- The number of elements. -/
def size (s : OptionalSet) : Nat := s.elements.length

end OptionalSet

end FieldFlow
