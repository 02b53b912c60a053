import CellPack.Capacity
import CellPack.Procedure.Body
/-!
# Standard procedures

The helpers that every output carries.
-/

namespace CellPack.Stdlib

/-- The global variable of the running contract. -/
def contextGlobal : String := "global (int, slice, int, slice) __tessera_context;"

/-- Refuses an absent value. -/
def notNull : Procedure where
  name := ProcName.notNull
  signature := "forall X -> X __tessera_not_null(X x)"
  part := .stdlib
  modifier := .inline
  body := [.plain "throw_if(128, null?(x));", .plain "return x;"]

/-- Writes an address. -/
def storeAddress : Procedure where
  name := ProcName.storeAddress
  signature := "builder __tessera_store_address(builder b, slice address)"
  part := .stdlib
  modifier := .inline
  body := [.plain "return b.store_slice(address);"]

/-- Reads an address. -/
def loadAddress : Procedure where
  name := ProcName.loadAddress
  signature := "(slice, slice) __tessera_load_address(slice s)"
  part := .stdlib
  modifier := .inline
  body := [.plain "var address = s~load_msg_addr();", .plain "return (s, address);"]

/-- Makes an address of a workchain and a hash. -/
def makeAddress : Procedure where
  name := ProcName.makeAddress
  signature := "slice __tessera_address(int chain, int hash)"
  part := .stdlib
  modifier := .inline
  body :=
    [.plain "var b = begin_cell();", .plain "b = b.store_uint(2, 2);",
      .plain "b = b.store_uint(0, 1);", .plain "b = b.store_int(chain, 8);",
      .plain "b = b.store_uint(hash, 256);", .plain "return b.end_cell().begin_parse();"]

/-- Puts a text into a chain of cells: a chunk in each, and the rest behind a reference. -/
def textToCell : Procedure where
  name := ProcName.textToCell
  signature := "cell __tessera_string_to_cell(slice s)"
  part := .stdlib
  modifier := .inlineRef
  body :=
    let chunkBits := toString (8 * textChunkBytes)
    [.plain ("if (s.slice_bits() <= " ++ chunkBits ++ ") \x7b"),
      .plain "    return begin_cell().store_slice(s).end_cell();", .plain "\x7d",
      .plain ("var head = s~load_bits(" ++ chunkBits ++ ");"),
      .around "return begin_cell().store_slice(head).store_ref(" ProcName.textToCell
        "(s)).end_cell();"]

/-- All helpers, in order. -/
def procedures : List Procedure :=
  [notNull, storeAddress, loadAddress, makeAddress, textToCell]

end CellPack.Stdlib
