import CellPack.Abi
import CellPack.Analysis
import CellPack.Procedure.Constants
import CellPack.Procedure.Contract
import CellPack.Procedure.Emission
import CellPack.Procedure.Records
import CellPack.Procedure.Stdlib
/-!
# Artifacts

The output for a contract. Procedures are generated type by type in dependency order, registered
once, and written to files by the section that they belong to; what no other file has taken goes to
the file of the code.
-/

namespace CellPack

/-- What is asked for. -/
structure CompileOptions where
  /-- The contract. -/
  entry : String
  /-- The start of the names of the files, if it is not the name of the contract. -/
  basename : Option String := none
  /-- Whether comments are kept. -/
  comments : Bool := false
  /-- The language version that the code asks for. -/
  languageVersion : String := "0.4.6"

/-- The start of the names of the files. -/
def CompileOptions.filePrefix (o : CompileOptions) : String := o.basename.getD o.entry

/-- An output file. -/
structure OutputFile where
  name : String
  code : String
  deriving DecidableEq, Repr

/-- The output for a contract. -/
structure Artifact where
  /-- The name of the file that holds the code. -/
  entrypoint : String
  code : String
  files : List OutputFile
  constants : List ConstantBinding
  /-- The text of the interface description. -/
  abi : String
  abiLink : String
  programs : ProgramSet

/-- The first file of a name. -/
def Artifact.file? (a : Artifact) (name : String) : Option OutputFile :=
  a.files.find? (·.name = name)

namespace Analysis

/-- The contract that is asked for. -/
def entry? (a : Analysis) (name : String) : Except CompileError RecordType :=
  match (a.store.get? name).filter (·.isContract) with
  | some t => .ok t
  | none => .error (.unknownEntryType name)

/-! ## Procedures -/

/-- The serializer and the parsers of a whole record. -/
def fullProcedures (a : Analysis) (t : RecordType) (l : Layout) : List Procedure :=
  let sec := Section.type t.name
  [l.serializerProcedure a.store t.fields sec t.isContract,
    l.parserProcedure a.store t.fields sec .withHeader t.isContract,
    l.parserProcedure a.store t.fields sec .noHeader t.isContract]

/-- The serializer and the parser of the parameters of a contract. -/
def initProcedures (a : Analysis) (t : RecordType) : List Procedure :=
  match a.layouts.get? (.init t.name), t.init with
  | some l, some params =>
    let sec := Section.typeInit t.name
    [l.serializerProcedure a.store params sec true,
      l.parserProcedure a.store params sec .withHeader true]
  | _, _ => []

/-- The parser of what is left of a message when it bounces. -/
def bouncedProcedures (a : Analysis) (t : RecordType) : List Procedure :=
  match a.layouts.get? (.bounced t.name) with
  | some l => [l.parserProcedure a.store t.fields (.type t.name) .bounced false]
  | none => []

/-- The procedures of a record type. -/
def typeProcedures (a : Analysis) (t : RecordType) : List Procedure :=
  match a.layouts.get? (.full t.name) with
  | none => []
  | some l =>
    let full := a.fullProcedures t l
    if t.isContract then
      full ++ a.store.contractProcedures t ++ a.initProcedures t ++ [a.store.initDataProcedure t]
    else
      let sec := Section.type t.name
      full ++ a.bouncedProcedures t
        ++ wrapperProcedures t.name (a.store.tensor t.fields) sec
        ++ accessorProcedures a.store t.name t.fields sec

/-- The record types in dependency order. -/
def orderedTypes (a : Analysis) : List RecordType := a.order.filterMap a.store.get?

/-- The method that returns the link of the interface description. -/
def linkProcedure (abiLink : String) : Procedure where
  name := "get_abi_link"
  signature := "slice get_abi_link()"
  part := .untagged
  modifier := .methodId
  body := [.plain ("return \"" ++ abiLink ++ "\";")]

/-- All procedures in order of generation. -/
def procedures (a : Analysis) (abiLink : String) : List Procedure :=
  Stdlib.procedures ++ a.store.constantProcedures
    ++ (a.orderedTypes.filter (·.kind.hasLayout)).flatMap a.typeProcedures
    ++ [linkProcedure abiLink]

/-- The registry of all procedures. -/
def registry (a : Analysis) (abiLink : String) : Registry :=
  (({} : Registry).addGlobal Stdlib.contextGlobal).addAll (a.procedures abiLink)

/-! ## Files -/

/-- The procedures of a section. -/
def inSection (ps : List Procedure) (sec : Section) : List Procedure :=
  ps.filter (·.part = sec)

/-- The procedures of a record type: its own, then those of its parameters. -/
def storageGroup (ps : List Procedure) (t : RecordType) : List Procedure :=
  inSection ps (.type t.name) ++ inSection ps (.typeInit t.name)

/-- The lines above the procedures of a record type. -/
def storageHeader (t : RecordType) : List String :=
  [";;", ";; Type: " ++ t.name]
    ++ (t.headerValue.map fun h => ";; Header: " ++ CompileError.headerText h).toList
    ++ (t.schema.map fun schema => ";; TLB: " ++ schema).toList ++ [";;"]

/-- The record types that have procedures, with these. -/
def storageGroups (a : Analysis) (ps : List Procedure) : List (RecordType × List Procedure) :=
  (a.orderedTypes.map fun t => (t, storageGroup ps t)).filter (!·.2.isEmpty)

/-- The procedures of the files before the code. -/
def placed (a : Analysis) (ps : List Procedure) : List Procedure :=
  inSection ps .stdlib ++ inSection ps .constants ++ (a.storageGroups ps).flatMap (·.2)

/-- The procedures of the code: those that no other file has. -/
def codeGroup (a : Analysis) (ps : List Procedure) : List Procedure :=
  let names := (a.placed ps).map (·.name)
  ps.filter (·.name ∉ names)

/-- The text of the source files that are passed through. -/
def nativeCode (sources : List (String × String)) : String :=
  String.join (sources.map fun (path, code) => ";; " ++ path ++ "\n" ++ code ++ "\n")

/-- The files before the code. -/
def libraryFiles (a : Analysis) (filePrefix entry : String) (emitter : Emitter)
    (globals : List String) (ps : List Procedure) : List OutputFile :=
  let headers := [";;", ";; Header files for " ++ entry, ";;"]
  let passedOn :=
    if a.store.nativeSources.isEmpty then []
    else [⟨filePrefix ++ ".native.fc", nativeCode a.store.nativeSources⟩]
  let storage := (a.storageGroups ps).map fun (t, group) => emitter.emit (storageHeader t) group
  [⟨filePrefix ++ ".headers.fc", emitter.declare headers ps⟩,
    ⟨filePrefix ++ ".stdlib.fc",
      emitter.emit (globals ++ ["", ";; Stdlib"]) (inSection ps .stdlib)⟩]
    ++ passedOn
    ++ [⟨filePrefix ++ ".constants.fc", emitter.emit [";; Constants"] (inSection ps .constants)⟩,
      ⟨filePrefix ++ ".storage.fc", String.intercalate "\n" storage⟩]

/-- The lines above the code. -/
def codeHeader (languageVersion entry : String) (files : List OutputFile) : List String :=
  ["#pragma version =" ++ languageVersion ++ ";", "#pragma allow-post-modification;",
    "#pragma compute-asm-ltr;", ""]
    ++ (files.map fun f => "#include \"" ++ f.name ++ "\";")
    ++ ["", ";; Contract " ++ entry ++ " functions"]

/-- The output for the contract that is asked for. -/
def artifact (a : Analysis) (o : CompileOptions) (emitter : Emitter) (addresser : Addresser) :
    Except CompileError Artifact := do
  let entry ← a.entry? o.entry
  let abi := a.store.descriptionText entry.name
  let abiLink := addresser abi
  let registry := a.registry abiLink
  let ps := registry.extract o.comments
  let files := a.libraryFiles o.filePrefix entry.name emitter registry.globals ps
  let code := emitter.emit (codeHeader o.languageVersion entry.name files) (a.codeGroup ps)
  let entrypoint := o.filePrefix ++ ".code.fc"
  .ok
    { entrypoint, code
      files := files ++ [⟨entrypoint, code⟩]
      constants := a.store.constantBindings entry.name
      abi, abiLink
      programs := registry.programs }

end Analysis

/-- The ways in which a compilation can be adapted. -/
structure Toolchain where
  evaluator : Evaluator := Expr.evaluate
  emitter : Emitter := .standard
  addresser : Addresser := crc32Link

/-- Compiles a store for a contract, which is looked up before anything else. -/
def TypeStore.compile (s : TypeStore) (o : CompileOptions) (tools : Toolchain := {}) :
    Except CompileError Artifact :=
  if (s.get? o.entry).any (·.isContract) then do
    let a ← s.analyze tools.evaluator
    a.artifact o tools.emitter tools.addresser
  else .error (.unknownEntryType o.entry)

end CellPack
