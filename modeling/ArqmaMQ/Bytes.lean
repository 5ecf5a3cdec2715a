import ArqmaMQ.Decimal

/-! Byte strings, as the source keeps them in `std::string` and
`std::string_view`. -/

namespace ArqmaMQ

abbrev Bytes := List UInt8

instance instLawfulBEqBytes : LawfulBEq Bytes := inferInstance

namespace ByteOrder

scoped instance instLinearOrderUInt8 : LinearOrder UInt8 where
  le_refl := UInt8.le_refl
  le_trans _ _ _ := UInt8.le_trans
  le_antisymm _ _ := UInt8.le_antisymm
  le_total := UInt8.le_total
  lt_iff_le_not_ge a b := by
    rw [UInt8.not_le]
    exact ⟨fun h => ⟨UInt8.le_of_lt h, h⟩, And.right⟩
  toDecidableLE := inferInstance
  toDecidableLT := inferInstance
  toDecidableEq := inferInstance

end ByteOrder

/-- The bytes of an ASCII string literal. -/
def bytes (s : String) : Bytes := s.toList.map Char.toUInt8

/-- `s[0] >= '0' && s[0] <= '9'`. -/
def isDigit (c : UInt8) : Bool := decide (Decimal.IsDigit c)

@[simp] theorem isDigit_iff {c : UInt8} : isDigit c = true ↔ Decimal.IsDigit c := by
  simp [isDigit]

end ArqmaMQ
