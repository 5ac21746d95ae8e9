import Zwirn.Adls.Layout

/-!
# Parsing the source-field view of a document

`Document.parse` follows the offsets of a buffer from its header to the source strings and records
every region it reaches. `Accepts` describes the same walk without the order of its steps: a
`DocumentView` names what was found, `Parser.ReadsObject` says that the buffer holds one object of
it, and the regions of the view are pairwise compatible. `Document.parse_eq_ok` is the equivalence
of the two, and every other fact about accepted buffers is read off `Accepts`. The code is in
`src/adls.rs`.
-/

namespace Zwirn.Adls

open Lib

/-- The four bytes "ADLS" behind the root offset. -/
def fileIdentifier : Bytes := [0x41, 0x44, 0x4C, 0x53]

/-- The root offset and the file identifier. -/
def headerSize : Nat := 8

/-- The bytes of an offset or of a length. -/
def u32Size : Nat := 4

/-- The two lengths at the start of a vtable. -/
def vtableHeaderSize : Nat := 4

/-- A table and its vtable: where they are, and how long. -/
structure Table where
  location : Nat
  vtableLocation : Nat
  vtableLength : Nat
  objectLength : Nat
deriving DecidableEq, Repr

/-- What the reading functions read from. -/
structure Parser where
  bytes : Bytes

/-- The offsets of the field entries of a vtable of `vtableLength` bytes. -/
def entryOffsets (vtableLength : Nat) : List Nat :=
  (List.range ((vtableLength - vtableHeaderSize + 1) / 2)).map fun k => vtableHeaderSize + 2 * k

namespace Parser

/-- The `size` bytes at `location`, unless they do not all lie in the buffer. -/
def array (parser : Parser) (size location : Nat) (structure_ : String) : Except Error Bytes := do
  let stop ← okOr (Lib.checkedAdd location size) (.malformed location structure_)
  require (stop ≤ parser.bytes.length) (.malformed location structure_)
  pure (slice parser.bytes location size)

/-- The 16-bit word at `location`, least significant byte first. -/
def readU16 (parser : Parser) (location : Nat) (structure_ : String) : Except Error Nat := do
  let bytes ← parser.array 2 location structure_
  pure (leWord bytes)

/-- The 32-bit word at `location`, least significant byte first. -/
def readU32 (parser : Parser) (location : Nat) (structure_ : String) : Except Error Nat := do
  let bytes ← parser.array 4 location structure_
  pure (leWord bytes)

/-- The 32-bit word at `location` as a signed number, in two's complement. -/
def readI32 (parser : Parser) (location : Nat) (structure_ : String) : Except Error Int := do
  let bytes ← parser.array 4 location structure_
  pure (if leWord bytes < 2 ^ 31 then (leWord bytes : Int) else leWord bytes - 2 ^ 32)

/-- A sum of sizes, unless it overflows. The failure names the place that the sum is about. -/
def checkedAdd (_ : Parser) (left right errorLocation : Nat) (structure_ : String) :
    Except Error Nat :=
  okOr (Lib.checkedAdd left right) (.malformed errorLocation structure_)

/-- Fails unless the `length` bytes at `location` all lie in the buffer. -/
def requireRange (parser : Parser) (location length : Nat) (structure_ : String) :
    Except Error Unit := do
  let stop ← okOr (Lib.checkedAdd location length) (.malformed location structure_)
  require (stop ≤ parser.bytes.length) (.malformed location structure_)

/-- The check of one vtable entry: an entry that is not 0 points behind the table's first word and
into the table. -/
def checkEntry (parser : Parser) (vtableLocation objectLength : Nat) (structure_ : String)
    (entryOffset : Nat) : Except Error Unit := do
  let entryLocation ← parser.checkedAdd vtableLocation entryOffset vtableLocation structure_
  let fieldOffset ← parser.readU16 entryLocation structure_
  require (¬ (fieldOffset ≠ 0 ∧ (fieldOffset < 4 ∨ objectLength ≤ fieldOffset)))
    (.malformed entryLocation structure_)

/-- The table at `location` with its vtable. Its first word leads back or forth to the vtable, which
starts with its own length and with the length of the table; then each of the entries is checked. -/
def table (parser : Parser) (location : Nat) (structure_ : String) : Except Error Table := do
  require (location % u32Size = 0) (.malformed location structure_)
  let vtableOffset ← parser.readI32 location structure_
  require (vtableOffset ≠ 0) (.malformed location structure_)
  let vtableDistance := vtableOffset.natAbs
  let vtableLocation ←
    okOr (if 0 < vtableOffset then checkedSub location vtableDistance
      else Lib.checkedAdd location vtableDistance) (.malformed location structure_)
  require (vtableLocation % 2 = 0) (.malformed vtableLocation structure_)
  let vtableLength ← parser.readU16 vtableLocation structure_
  let objectLengthLocation ← parser.checkedAdd vtableLocation 2 vtableLocation structure_
  let objectLength ← parser.readU16 objectLengthLocation structure_
  require (vtableHeaderSize ≤ vtableLength ∧ vtableLength % 2 = 0)
    (.malformed vtableLocation structure_)
  require (4 ≤ objectLength) (.malformed location structure_)
  parser.requireRange vtableLocation vtableLength structure_
  parser.requireRange location objectLength structure_
  forM (entryOffsets vtableLength) (parser.checkEntry vtableLocation objectLength structure_)
  pure ⟨location, vtableLocation, vtableLength, objectLength⟩

/-- The target of the unsigned offset at `location`. It is aligned and in the buffer, and an offset
is never 0. -/
def followUoffset (parser : Parser) (location alignment : Nat) (structure_ : String) :
    Except Error Nat := do
  require (location % u32Size = 0) (.malformed location structure_)
  let relative ← parser.readU32 location structure_
  require (relative ≠ 0) (.malformed location structure_)
  let target ← parser.checkedAdd location relative location structure_
  require (target % alignment = 0 ∧ target < parser.bytes.length) (.malformed location structure_)
  pure target

end Parser

namespace Table

/-- The check of another vtable entry against an accessed field: no other field starts inside it.
The accessed entry itself is left out. -/
def checkOther (t : Table) (parser : Parser) (entryOffset fieldOffset fieldEnd : Nat)
    (structure_ : String) (otherEntryOffset : Nat) : Except Error Unit :=
  if otherEntryOffset = entryOffset then pure ()
  else do
    let otherEntryLocation ←
      parser.checkedAdd t.vtableLocation otherEntryOffset t.vtableLocation structure_
    let otherFieldOffset ← parser.readU16 otherEntryLocation structure_
    require (¬ (fieldOffset ≤ otherFieldOffset ∧ otherFieldOffset < fieldEnd))
      (.malformed otherEntryLocation structure_)

/-- The location of a field of a table, if the field is present. It lies in the table, it is
aligned, and no other field starts inside it. -/
def field (t : Table) (parser : Parser) (fieldIndex width alignment : Nat) (structure_ : String) :
    Except Error (Option Nat) := do
  let entryOffset ←
    okOr ((checkedMul fieldIndex 2).bind fun offset => Lib.checkedAdd vtableHeaderSize offset)
      (.malformed t.vtableLocation structure_)
  let entryEnd ← okOr (Lib.checkedAdd entryOffset 2) (.malformed t.vtableLocation structure_)
  if entryEnd > t.vtableLength then pure none
  else do
    let entryLocation ←
      parser.checkedAdd t.vtableLocation entryOffset t.vtableLocation structure_
    let fieldOffset ← parser.readU16 entryLocation structure_
    if fieldOffset = 0 then pure none
    else do
      let fieldEnd ← okOr (Lib.checkedAdd fieldOffset width) (.malformed entryLocation structure_)
      require (fieldEnd ≤ t.objectLength) (.malformed entryLocation structure_)
      forM (entryOffsets t.vtableLength)
        (t.checkOther parser entryOffset fieldOffset fieldEnd structure_)
      let fieldLocation ← parser.checkedAdd t.location fieldOffset entryLocation structure_
      require (fieldLocation % alignment = 0) (.malformed fieldLocation structure_)
      parser.requireRange fieldLocation width structure_
      pure (some fieldLocation)

end Table

/-! ## Documents -/

/-- One present source field in a document. -/
structure SourceNode where
  handle : NodeHandle
  kind : NodeKind
  source : Str
deriving DecidableEq, Repr

/-- A validated view of the source-bearing part of a document. -/
structure Document where
  bytes : Bytes
  sources : List SourceNode
  sourceFieldLocations : List Nat
deriving DecidableEq, Repr

/-- The place of a source string: its length word, its bytes, and the end of its terminator. -/
structure StringPlace where
  location : Nat
  length : Nat
deriving DecidableEq, Repr

/-- Where the bytes of the string start, behind its length word. -/
def StringPlace.bytesLocation (s : StringPlace) : Nat := s.location + u32Size

/-- Where the string ends, behind its terminator. -/
def StringPlace.stop (s : StringPlace) : Nat := s.location + u32Size + s.length + 1

/-- The string a source field refers to, with its terminator. Whether its bytes are a text is not
checked here. -/
def Parser.sourceString (parser : Parser) (sourceFieldLocation : Nat) :
    Except Error StringPlace := do
  let sourceLocation ← parser.followUoffset sourceFieldLocation u32Size "source string"
  let sourceLength ← parser.readU32 sourceLocation "source string"
  let sourceBytesLocation ←
    parser.checkedAdd sourceLocation u32Size sourceLocation "source string"
  let terminatorLocation ←
    parser.checkedAdd sourceBytesLocation sourceLength sourceLocation "source string"
  parser.requireRange sourceBytesLocation sourceLength "source string"
  let terminator ← okOr (parser.bytes[terminatorLocation]?)
    (.malformed terminatorLocation "source string terminator")
  require (terminator = 0) (.malformed terminatorLocation "source string terminator")
  let _sourceEnd ← okOr (Lib.checkedAdd terminatorLocation 1)
    (.malformed sourceLocation "source string")
  pure ⟨sourceLocation, sourceLength⟩

/-- Records a table and its vtable, which may be shared. -/
def Layout.addTable (layout : Layout) (t : Table) (structure_ : String) : Except Error Layout := do
  let tableEnd ← okOr (Lib.checkedAdd t.location t.objectLength) (.malformed t.location structure_)
  let layout ← layout.add t.location tableEnd .table structure_
  let vtableEnd ← okOr (Lib.checkedAdd t.vtableLocation t.vtableLength)
    (.malformed t.vtableLocation structure_)
  layout.add t.vtableLocation vtableEnd .vtable structure_

/-- What the loop over the patch objects accumulates. -/
structure ParseState where
  layout : Layout
  objectIndexes : OrdMap Nat Nat
  sources : List SourceNode
  sourceFieldLocations : List Nat

/-- The type id of a patch object; an absent field means 0. -/
def Parser.typeId (parser : Parser) (object : Table) : Except Error Nat := do
  match ← object.field parser 0 u32Size u32Size "patch object f0" with
  | some location => parser.readU32 location "patch object f0"
  | none => pure 0

/-- One round of the loop over the patch objects. An object table that was read before is refused.
The first object is the root and has no type id. An object with a source kind and a source field
becomes a source; the others are passed over, once their tables are recorded. -/
def Parser.parseObject (parser : Parser) (documentId elementsLocation : Nat) (st : ParseState)
    (index : Nat) : Except Error ParseState := do
  let elementOffset ← okOr (checkedMul index u32Size)
    (.malformed elementsLocation "patch-object vector")
  let elementLocation ←
    parser.checkedAdd elementsLocation elementOffset elementsLocation "patch-object vector"
  let objectLocation ← parser.followUoffset elementLocation u32Size "patch object"
  let poolIndex ← okOr (u32TryFrom index) (.malformed elementLocation "patch-object index")
  match st.objectIndexes.find? objectLocation with
  | some firstIndex => .error (.duplicatePatchObjectTable firstIndex poolIndex)
  | none =>
    let st := { st with objectIndexes := st.objectIndexes.insert objectLocation poolIndex }
    let object ← parser.table objectLocation "patch object"
    let layout ← st.layout.addTable object "patch object"
    let st := { st with layout := layout }
    let typeId ← parser.typeId object
    require (¬ (index = 0 ∧ typeId ≠ 0)) (.malformed objectLocation "root patch object")
    match NodeKind.fromTypeId typeId with
    | none => pure st
    | some kind =>
      match ← object.field parser 10 u32Size u32Size "patch object f10" with
      | none => pure st
      | some sourceFieldLocation =>
        let handle : NodeHandle := ⟨poolIndex, documentId⟩
        let place ← parser.sourceString sourceFieldLocation
        let layout ← st.layout.add place.location place.stop .string "source string"
        let source ← okOr (decode (slice parser.bytes place.bytesLocation place.length))
          (.invalidSourceUtf8 handle)
        pure { st with
          layout := layout
          sources := st.sources ++ [⟨handle, kind, source⟩]
          sourceFieldLocations := st.sourceFieldLocations ++ [sourceFieldLocation] }

/-- Parses and validates every structure reached by the source-field view. `documentId` is the
fresh identity the handles of the result carry. -/
def Document.parse (documentId : Nat) (bytes : Bytes) : Except Error Document := do
  require (headerSize ≤ bytes.length) .invalidHeader
  require (slice bytes 4 4 = fileIdentifier) .invalidIdentifier
  let parser : Parser := ⟨bytes⟩
  let layout ← Layout.new.add 0 headerSize .header "ADLS header"
  let rootLocation ← parser.followUoffset 0 u32Size "root table"
  let root ← parser.table rootLocation "root table"
  let layout ← layout.addTable root "root table"
  let poolField ← root.field parser 0 u32Size u32Size "root f0"
  let poolField ← okOr poolField .missingPatchObjectPool
  let poolLocation ← parser.followUoffset poolField u32Size "patch-object vector"
  let objectCount ← parser.readU32 poolLocation "patch-object vector"
  require (objectCount ≠ 0) (.malformed poolLocation "patch-object vector")
  let elementsLocation ← parser.checkedAdd poolLocation u32Size poolLocation "patch-object vector"
  let elementsSize ← okOr (checkedMul objectCount u32Size)
    (.malformed poolLocation "patch-object vector")
  parser.requireRange elementsLocation elementsSize "patch-object vector"
  let poolEnd ← okOr (Lib.checkedAdd elementsLocation elementsSize)
    (.malformed poolLocation "patch-object vector")
  let layout ← layout.add poolLocation poolEnd .vector "patch-object vector"
  let st ← (List.range objectCount).foldlM (parser.parseObject documentId elementsLocation)
    ⟨layout, .empty, [], []⟩
  pure ⟨bytes, st.sources, st.sourceFieldLocations⟩

end Zwirn.Adls
