import DhcpToolset.Bytes

/-!
# Items of a code, a length and a value

A list of items is written one after another, each as its code, a byte for the length of its
value, and the value. A byte of its own ends the list. Where the codes are known to be none of
some, a reader can step over the items (`length_encode_cons`, `holdsAt_encode_cons`).
-/

set_option linter.unusedSectionVars false

open Bytes

namespace Tlv

/-- A code and a value of at most 255 bytes. -/
structure Item where
  code : UInt8
  value : List UInt8
  length_le : value.length ≤ 255

/-- The length byte. -/
def Item.length (o : Item) : UInt8 :=
  UInt8.ofNat o.value.length

/-- The bytes of an item. -/
def Item.encode (o : Item) : List UInt8 :=
  o.code :: o.length :: o.value

/-- The bytes of a list of items. -/
def encode (os : List Item) : List UInt8 :=
  os.flatMap Item.encode

/-- Every item has another code, and none the one that ends a list. -/
def Avoids (code stop : UInt8) (os : List Item) : Prop :=
  ∀ o ∈ os, o.code ≠ code ∧ o.code ≠ stop

section Items

variable {m : ℕ → UInt8} {off : ℕ} {o : Item} {os : List Item} {code stop : UInt8}

@[simp] theorem Item.toNat_length (o : Item) : o.length.toNat = o.value.length := by
  have := o.length_le
  rw [Item.length, UInt8.toNat_ofNat']
  omega

@[simp] theorem Item.length_encode (o : Item) : o.encode.length = o.value.length + 2 := rfl

@[simp] theorem encode_nil : encode [] = [] := rfl

theorem encode_cons (o : Item) (os : List Item) : encode (o :: os) = o.encode ++ encode os := rfl

theorem encode_append (os os' : List Item) : encode (os ++ os') = encode os ++ encode os' :=
  List.flatMap_append

theorem length_encode_cons (o : Item) (os : List Item) :
    (encode (o :: os)).length = o.value.length + 2 + (encode os).length := by
  rw [encode_cons, List.length_append, o.length_encode]

theorem holdsAt_encode : HoldsAt m off o.encode ↔
    m off = o.code ∧ m (off + 1) = o.length ∧ HoldsAt m (off + 2) o.value := by
  simp only [Item.encode, holdsAt_cons, Nat.add_assoc]

theorem holdsAt_encode_cons : HoldsAt m off (encode (o :: os)) ↔
    HoldsAt m off o.encode ∧ HoldsAt m (off + (o.value.length + 2)) (encode os) := by
  rw [encode_cons, holdsAt_append, o.length_encode]

/-- Any bytes are the value of an item. -/
theorem exists_item (m : ℕ → UInt8) (off : ℕ) : ∃ o : Item, HoldsAt m off o.encode := by
  have hlen : ((List.range (m (off + 1)).toNat).map fun k => m (off + 2 + k)).length ≤ 255 := by
    have := (m (off + 1)).toNat_lt
    rw [List.length_map, List.length_range]
    omega
  refine ⟨⟨m off, _, hlen⟩, holdsAt_encode.mpr ⟨rfl, ?_, holdsAt_map_range m (off + 2) _⟩⟩
  simp [Item.length]

end Items

end Tlv
