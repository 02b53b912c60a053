/-!
# Cyclic redundancy check

The 32-bit check value with the reversed polynomial `0xEDB88320`, started and finished by
complementing all bits.
-/

namespace CellPack.Crc32

/-- One bit of the division. -/
def shift (r : UInt32) : UInt32 :=
  if r &&& 1 = 1 then (r >>> 1) ^^^ 0xEDB88320 else r >>> 1

/-- Takes one byte in. -/
def step (r : UInt32) (b : UInt8) : UInt32 :=
  (List.range 8).foldl (fun r _ => shift r) (r ^^^ b.toUInt32)

/-- The check value of a byte string. -/
def ofBytes (bytes : List UInt8) : UInt32 := ~~~bytes.foldl step 0xFFFFFFFF

/-- The check value of a text in UTF-8. -/
def ofText (s : String) : UInt32 := ofBytes s.toUTF8.toList

end CellPack.Crc32
