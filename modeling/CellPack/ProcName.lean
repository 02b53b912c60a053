/-!
# Procedure names

The names of the procedures that write and read the records of a type.
-/

namespace CellPack.ProcName

/-- A procedure of a type. -/
def ofType (type role : String) : String := "$" ++ type ++ "$_" ++ role

/-- Writes a record to a builder. -/
def store (type : String) : String := ofType type "store"

/-- Writes a record to a cell of its own. -/
def storeCell (type : String) : String := ofType type "store_cell"

/-- Writes an optional record. -/
def storeOpt (type : String) : String := ofType type "store_opt"

/-- Reads a record, its header first. -/
def load (type : String) : String := ofType type "load"

/-- Reads a record behind its header. -/
def loadNoHeader (type : String) : String := ofType type "load_no_opcode"

/-- Reads a record from a cell. -/
def loadCell (type : String) : String := ofType type "load_cell"

/-- Reads an optional record. -/
def loadOpt (type : String) : String := ofType type "load_opt"

/-- Reads what a bounced message still holds. -/
def loadBounced (type : String) : String := ofType type "load_bounced"

/-- The name under which the setup parameters of a contract are a type. -/
def initType (contract : String) : String := contract ++ "$init"

end CellPack.ProcName
