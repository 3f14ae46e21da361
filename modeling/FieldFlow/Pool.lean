import FieldFlow.Value
import Std.Data.HashMap

/-!
# The pool of shared instances

A pool holds one instance for each key that was ever interned, so that two transformers, or two
values, taken from it are the same instance exactly when their contents agree.  Instances are told
apart by their serial numbers, which are never used twice, not even after the pool was emptied.

The instances are kept in buckets by a hash of their keys.  Within a bucket the keys themselves are
compared, so the choice of the hash function changes no answer.

Main definitions: `Pool`, `Pool.intern`, `Pool.reset`.
-/

namespace FieldFlow

/-- What a pool holds. -/
inductive Item where
  | transformer (t : Transformer)
  | value (v : Value)

namespace Item

/-- The contents of the item, encoded. -/
def key : Item → String
  | transformer t => t.key
  | value v => v.key

/-- Which instance the item is. -/
def serial : Item → Nat
  | transformer t => t.serial
  | value v => v.serial

/-- The item under another serial number. -/
def withSerial (n : Nat) : Item → Item
  | transformer t => transformer { t with serial := n }
  | value v => value { v with serial := n }

end Item

/-- Canonical instances by the hash of their keys. -/
structure Pool where
  /-- Chooses the bucket of a key. -/
  hash : String → UInt64
  buckets : Std.HashMap UInt64 (List Item)
  /-- The number of canonical instances. -/
  size : Nat
  /-- The last serial number that was given out. -/
  issued : Nat

namespace Pool

/-- A pool without instances. -/
def empty (hash : String → UInt64) : Pool := ⟨hash, ∅, 0, 0⟩

/-- Gives out the next serial number. -/
def issue (p : Pool) : Nat × Pool := (p.issued + 1, { p with issued := p.issued + 1 })

/-- The instances whose keys fall into the bucket of `key`. -/
def bucket (p : Pool) (key : String) : List Item := p.buckets.getD (p.hash key) []

/-- The canonical instance for a key. -/
def find? (p : Pool) (key : String) : Option Item :=
  (p.bucket key).find? (fun item => item.key = key)

/-- Makes an item the canonical instance for a key. -/
def register (p : Pool) (key : String) (item : Item) : Pool :=
  { p with
    buckets := p.buckets.insert (p.hash key) (p.bucket key ++ [item])
    size := p.size + 1 }

/-- The canonical instance for the item's key.  If there is none yet it is the item itself, which
gets a serial number unless it has one. -/
def intern (p : Pool) (item : Item) : Item × Pool :=
  let key := item.key
  match p.find? key with
  | some existing => (existing, p)
  | none =>
    if item.serial = 0 then
      let (n, p) := p.issue
      let item := item.withSerial n
      (item, p.register key item)
    else (item, p.register key item)

/-- Forgets every canonical instance; the serial numbers go on. -/
def reset (p : Pool) : Pool := { p with buckets := ∅, size := 0 }

end Pool

end FieldFlow
