import ByteMachine.Isa.Address
import ByteMachine.Source.Statement
import Std.Data.TreeMap

/-! # Label tables: the byte addresses of label names, in the order of the names -/
namespace ByteMachine

structure LabelTable where
  addresses : Std.TreeMap Token UInt8

namespace LabelTable

def empty : LabelTable := ⟨∅⟩

def get? (t : LabelTable) (name : Token) : Option UInt8 := t.addresses[name]?

def size (t : LabelTable) : Nat := t.addresses.size

def isEmpty (t : LabelTable) : Bool := t.addresses.isEmpty

/-- The labels with their addresses, names in increasing order. -/
def toList (t : LabelTable) : List (Token × UInt8) := t.addresses.toList

/-- Adds a label at an address, of which a byte is kept. A name can be defined once. -/
def define? (t : LabelTable) (name : Token) (address : Nat) : Option LabelTable :=
  if t.addresses.contains name then none else some ⟨t.addresses.insert name (Address.wrap address)⟩

@[simp] theorem get?_empty (name : Token) : empty.get? name = none := by
  simp [empty, get?]

theorem define?_eq_none_iff {t : LabelTable} {name : Token} {address : Nat} :
    t.define? name address = none ↔ (t.get? name).isSome := by
  simp [define?, get?]

theorem get?_of_define? {t u : LabelTable} {name : Token} {address : Nat} (h : t.define? name address = some u)
    (other : Token) : u.get? other = if name = other then some (Address.wrap address) else t.get? other := by
  unfold define? at h
  split at h
  · cases h
  · cases h
    simp [get?, Std.TreeMap.getElem?_insert]

end LabelTable

end ByteMachine
