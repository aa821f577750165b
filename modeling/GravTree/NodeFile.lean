import GravTree.Node
import GravTree.Lib.Codec

/-!
# Node files

`src/node.cpp`, `write_file` and `read_file`: the bytes of a node file. A header, the
filter, the entries, the sparse index with the file offset of every 128th entry, and a
checksum of everything before it.
-/

namespace GravTree

open Reader

/-- `NODE_FILE_MAGIC`. -/
def nodeFileMagic : Nat := 0x4752415654524545

/-- `NODE_FILE_VERSION`. -/
def nodeFileVersion : Nat := 1

/-- `SPARSE_STEP`. -/
def sparseStep : Nat := 128

/-- `SparseIndexEntry`. -/
structure SparseIndexEntry where
  key : Bytes
  fileOffset : Nat

/-- A node with its sparse index. -/
structure IndexedNode extends SSTNode where
  /-- `num_children`, which a file may have larger than `MAX_FANOUT`. -/
  numChildren : Nat := childIds.length
  sparseIndex : List SparseIndexEntry := []

/-- What `read_file` throws, and the reads that leave the bytes of the file. -/
inductive NodeFileError where
  /-- `Node file too small: <path>`. -/
  | tooSmall (path : FilePath)
  /-- `Checksum mismatch in node file: <path>`. -/
  | checksum (path : FilePath)
  /-- `Bad magic in node file: <path>`. -/
  | badMagic (path : FilePath)
  /-- `Unsupported node file version: <path>`. -/
  | version (path : FilePath)
  /-- `BinaryReader: unexpected end of data`. -/
  | unexpectedEnd
  /-- `BloomFilter::deserialize: buffer too small`. -/
  | bloomTooSmall
  /-- `BloomFilter::deserialize: truncated`. -/
  | bloomTruncated
  /-- The bytes to read are not all in the file. -/
  | outside

/-- `BinaryReader`, at the bytes it has not read. -/
abbrev BinaryReader := Reader NodeFileError

/-! ## Fields -/

/-- `BinaryWriter::u32`. -/
def writeU32 (n : Nat) : List UInt8 := leBytes n 4

/-- `BinaryWriter::u64`. -/
def writeU64 (n : Nat) : List UInt8 := leBytes n 8

/-- `BinaryWriter::str`. -/
def writeStr (s : Bytes) : List UInt8 := writeU32 s.size ++ s.toList

/-- `BinaryReader::u8`. -/
def readU8 : BinaryReader Nat := le .unexpectedEnd 1

/-- `BinaryReader::u32`. -/
def readU32 : BinaryReader Nat := le .unexpectedEnd 4

/-- `BinaryReader::u64`. -/
def readU64 : BinaryReader Nat := le .unexpectedEnd 8

/-- A string with these bytes. -/
def Bytes.ofList (bs : List UInt8) : Bytes := ⟨bs.length, bs.get⟩

/-- `BinaryReader::str`. -/
def readStr : BinaryReader Bytes := do
  let len ← readU32
  let bs ← take .unexpectedEnd len
  return .ofList bs

/-! ## The filter -/

/-- `BloomFilter::serialize`. -/
def BloomFilter.serialize (f : BloomFilter) : List UInt8 :=
  writeU32 f.numHashFuncs ++ writeU64 f.bitCount ++ f.bits

/-- `BloomFilter::deserialize` of `size` bytes, where `data` is the file from there on. The
pointer is not checked against the end of the file. -/
def BloomFilter.deserialize (data : List UInt8) (size : Nat := data.length) :
    Except NodeFileError BloomFilter :=
  if size < 12 then .error .bloomTooSmall
  else if data.length < 12 then .error .outside
  else
    let nhf := ofLe (data.take 4)
    let nb := ofLe ((data.drop 4).take 8)
    let byteCount := nb / 8
    if size < 12 + byteCount then .error .bloomTruncated
    else if data.length < 12 + byteCount then .error .outside
    else .ok { bits := (data.drop 12).take byteCount, numHashFuncs := nhf }

/-- The filter and its length, which is zero for no filter. -/
def writeBloom : Option BloomFilter → List UInt8
  | some f => writeU32 f.serialize.length ++ f.serialize
  | none => writeU32 0

/-- `deserialize` at the reader's place, with the checksum behind the reader's bytes. The
reader steps over the filter without a check of its own. -/
def readBloomData (sum : List UInt8) (len : Nat) : BinaryReader BloomFilter := fun rest =>
  (BloomFilter.deserialize (rest ++ sum) len).map fun f => (f, rest.drop len)

/-- The filter, if there is one. -/
def readBloom (sum : List UInt8) : BinaryReader (Option BloomFilter) := do
  let len ← readU32
  if 0 < len then
    let f ← readBloomData sum len
    return some f
  else return none

/-! ## Entries -/

/-- One entry. -/
def writeEntry (e : Entry) : List UInt8 :=
  writeStr e.key ++ writeStr e.value ++ writeU64 e.seqNo ++ [if e.deleted then 1 else 0]

/-- One entry. -/
def readEntry : BinaryReader Entry := do
  let key ← readStr
  let value ← readStr
  let seqNo ← readU64
  let deleted ← readU8
  return { key, value, seqNo := Fin.ofNat _ seqNo, deleted := deleted ≠ 0 }

/-- The pass of `write_file` over the entries from the `i`-th on: `offsets` gets the index
and the file offset of every entry whose index is a multiple of `SPARSE_STEP`. -/
def writeEntries : List Entry → Nat → List UInt8 → List (Nat × Nat) →
    List UInt8 × List (Nat × Nat)
  | [], _, buf, offsets => (buf, offsets)
  | e :: es, i, buf, offsets =>
    writeEntries es (i + 1) (buf ++ writeEntry e)
      (if i % sparseStep = 0 then offsets ++ [(i, buf.length)] else offsets)

/-- One pair of the sparse index of a node with these entries. -/
def writeSparse (buffer : List Entry) (p : Nat × Nat) : List UInt8 :=
  writeStr (buffer[p.1]?.elim .empty (·.key)) ++ writeU64 p.2

/-- One pair of the sparse index. -/
def readSparse : BinaryReader SparseIndexEntry := do
  let key ← readStr
  let fileOffset ← readU64
  return { key, fileOffset }

/-! ## The checksum -/

/-- One byte of `crc64`. -/
def crcByte (crc : UInt64) (b : UInt8) : UInt64 :=
  (List.range 8).foldl
    (fun crc _ => if crc &&& ((1 : UInt64) <<< 63) ≠ 0 then (crc <<< 1) ^^^ 0xad93d23594c935a9
      else crc <<< 1)
    (crc ^^^ (b.toUInt64 <<< 56))

/-- `crc64`. -/
def crc64 (data : List UInt8) : UInt64 :=
  data.foldl crcByte 0xFFFFFFFFFFFFFFFF ^^^ 0xFFFFFFFFFFFFFFFF

/-! ## Files -/

namespace SSTNode

/-- `child_ids`: the unused slots are zero. -/
def childSlots (n : SSTNode) : List NodeId :=
  n.childIds ++ List.replicate (maxFanout - n.childIds.length) invalidNodeId

/-- The header and the filter. -/
def headerBytes (n : SSTNode) : List UInt8 :=
  writeU64 nodeFileMagic ++ writeU32 nodeFileVersion ++ writeU64 n.id ++ writeU32 n.level ++
    writeU32 n.childIds.length ++ n.childSlots.flatMap writeU64 ++ writeU32 n.buffer.length ++
    writeStr n.keyRange.minKey ++ writeStr n.keyRange.maxKey ++ writeBloom n.bloom

/-- Everything before the checksum. -/
def rawBytes (n : SSTNode) : List UInt8 :=
  let (buf, offsets) := writeEntries n.buffer 0 n.headerBytes []
  buf ++ writeU32 offsets.length ++ offsets.flatMap (writeSparse n.buffer)

/-- The bytes `write_file` writes. -/
def fileBytes (n : SSTNode) : List UInt8 := n.rawBytes ++ writeU64 (crc64 n.rawBytes).toNat

end SSTNode

/-- The header, the filter and the number of entries. -/
def readHeader (path : FilePath) (sum : List UInt8) : BinaryReader (IndexedNode × Nat) := do
  let magic ← readU64
  if magic ≠ nodeFileMagic then throw (.badMagic path)
  let version ← readU32
  if version ≠ nodeFileVersion then throw (.version path)
  let id ← readU64
  let level ← readU32
  let numChildren ← readU32
  let childIds ← many readU64 maxFanout
  let numEntries ← readU32
  let minKey ← readStr
  let maxKey ← readStr
  let bloom ← readBloom sum
  let node : IndexedNode :=
    { id, level, childIds := childIds.take numChildren, keyRange := { minKey, maxKey }, bloom,
      filePath := path, numChildren }
  return (node, numEntries)

/-- `read_file` past the checksum `sum`. -/
def readBody (path : FilePath) (loadEntries : Bool) (sum : List UInt8) :
    BinaryReader IndexedNode := do
  let (node, numEntries) ← readHeader path sum
  if !loadEntries then return node
  let buffer ← many readEntry numEntries
  let count ← readU32
  let sparseIndex ← many readSparse count
  return { node with buffer, sparseIndex, entriesLoaded := true }

/-- `read_file`, given the bytes of the file. -/
def readNodeFile (path : FilePath) (raw : List UInt8) (loadEntries : Bool) :
    Except NodeFileError IndexedNode :=
  if raw.length < 8 then .error (.tooSmall path)
  else
    let data := raw.take (raw.length - 8)
    let sum := raw.drop (raw.length - 8)
    if ofLe sum ≠ (crc64 data).toNat then .error (.checksum path)
    else (readBody path loadEntries sum data).map Prod.fst

/-- `load_entries`, given the bytes of the file. -/
def IndexedNode.loadEntries (n : IndexedNode) (raw : List UInt8) :
    Except NodeFileError IndexedNode := do
  if n.entriesLoaded then return n
  let full ← readNodeFile n.filePath raw true
  return { n with buffer := full.buffer, sparseIndex := full.sparseIndex, entriesLoaded := true }

end GravTree
