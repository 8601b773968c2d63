import ArchiveTarBuilder.Buffer

/-! `b_header.c`: the header record, its block of 512 bytes, and the encoders. A block is the C
struct field by field; an encoder changes the fields that the source stores to and no others. -/
namespace ArchiveTarBuilder
open Region CString Numeral

def bHeaderSize : ℕ := 512
def bHeaderSuffixSize : ℕ := 100
def bHeaderLinkdestSize : ℕ := 100
def bHeaderPrefixSize : ℕ := 155
def bHeaderMaxFileSize : ℕ := 8589934592

def bHeaderMagic : Bytes := [117,115,116,97,114,0,48,48]
def bHeaderLonglinkPath : Bytes := [46,47,46,47,64,76,111,110,103,76,105,110,107]
def paxHeadersPath : Bytes := [46,47,80,97,120,72,101,97,100,101,114,115,46]
def bHeaderLonglinkType : UInt8 := 76
def bHeaderLongdestType : UInt8 := 75
def bHeaderPaxType : UInt8 := 120
def pathKey : Bytes := [112,97,116,104]
def linkpathKey : Bytes := [108,105,110,107,112,97,116,104]

def sIperm : ℕ := 0o777

structure BHeader where
  suffix : Bytes
  mode : ℕ
  uid : ℕ
  gid : ℕ
  size : ℕ
  mtime : ℤ
  linktype : UInt8
  linkdest : Option Bytes
  user : Option Bytes
  group : Option Bytes
  major : ℕ
  minor : ℕ
  pathPrefix : Bytes
  truncated : Bool
  truncatedLink : Bool
  deriving DecidableEq, Repr

def BHeader.isIfreg (header : BHeader) : Bool := header.linktype = 48

structure BHeaderBlock where
  suffix : Field 100
  mode : Field 8
  uid : Field 8
  gid : Field 8
  size : Field 12
  mtime : Field 12
  checksum : Field 8
  linktype : UInt8
  linkdest : Field 100
  magic : Field 8
  user : Field 32
  group : Field 32
  major : Field 8
  minor : Field 8
  pathPrefix : Field 155
  padding : Field 12
  deriving DecidableEq

namespace BHeaderBlock

def toBytes (b : BHeaderBlock) : Bytes :=
  b.suffix.bytes ++ (b.mode.bytes ++ (b.uid.bytes ++ (b.gid.bytes ++ (b.size.bytes ++
    (b.mtime.bytes ++ (b.checksum.bytes ++ (b.linktype :: (b.linkdest.bytes ++ (b.magic.bytes ++
      (b.user.bytes ++ (b.group.bytes ++ (b.major.bytes ++ (b.minor.bytes ++
        (b.pathPrefix.bytes ++ b.padding.bytes))))))))))))))

def ofBytes (bytes : Bytes) : BHeaderBlock where
  suffix := .fit 100 (slice bytes 0 100)
  mode := .fit 8 (slice bytes 100 8)
  uid := .fit 8 (slice bytes 108 8)
  gid := .fit 8 (slice bytes 116 8)
  size := .fit 12 (slice bytes 124 12)
  mtime := .fit 12 (slice bytes 136 12)
  checksum := .fit 8 (slice bytes 148 8)
  linktype := bytes.getD 156 0
  linkdest := .fit 100 (slice bytes 157 100)
  magic := .fit 8 (slice bytes 257 8)
  user := .fit 32 (slice bytes 265 32)
  group := .fit 32 (slice bytes 297 32)
  major := .fit 8 (slice bytes 329 8)
  minor := .fit 8 (slice bytes 337 8)
  pathPrefix := .fit 155 (slice bytes 345 155)
  padding := .fit 12 (slice bytes 500 12)

def zero : BHeaderBlock where
  suffix := .zero 100
  mode := .zero 8
  uid := .zero 8
  gid := .zero 8
  size := .zero 12
  mtime := .zero 12
  checksum := .zero 8
  linktype := 0
  linkdest := .zero 100
  magic := .zero 8
  user := .zero 32
  group := .zero 32
  major := .zero 8
  minor := .zero 8
  pathPrefix := .zero 155
  padding := .zero 12

@[simp] theorem toBytes_length (b : BHeaderBlock) : b.toBytes.length = 512 := by
  simp [toBytes]

theorem ofBytes_zeros : ofBytes (zeros 512) = zero := by decide +kernel

theorem ofBytes_toBytes (b : BHeaderBlock) : ofBytes b.toBytes = b := by
  have hfit {n : ℕ} (f : Field n) : Field.fit n f.bytes = f :=
    Field.ext_bytes (Field.fit_bytes _ f.size)
  cases b
  simp [ofBytes,toBytes,slice,List.drop_append,Field.drop_bytes,Field.take_bytes,hfit]

end BHeaderBlock

def checksum (block : BHeaderBlock) : ℕ := (block.toBytes.map UInt8.toNat).sum

def unsignedInt (n : ℕ) : ℕ := n % 2^32

def memoryByte (bigEndian : Bool) (value i : ℕ) : UInt8 :=
  UInt8.ofNat (value/256^(if bigEndian then 7-i else i))

def encodeBase256Value (p : Process) (field : Field 12) (value : ℕ) : Field 12 :=
  let stored := overwrite field.bytes (12-8) ((List.range 8).map fun i =>
    memoryByte p.bigEndian value (if p.bigEndian then i else 8-i-1))
  .fit 12 (overwrite stored 0 [stored.getD 0 0 ||| 0x80])

def encodeChecksum (block : BHeaderBlock) : BHeaderBlock :=
  let blank := { block with checksum := .fit 8 (List.replicate 8 32) }
  let printed := blank.checksum.snprintf 7 (numeral 8 6 (unsignedInt (checksum blank)))
  { block with checksum := .fit 8 (overwrite printed.bytes 7 [32]) }

def formatD (n : ℕ) : Bytes :=
  let low := n % 2^32
  if low < 2^31 then numeral 10 1 low else 45::numeral 10 1 (2^32-low)

/-- The result of `snprintf` for `len` characters, as a `size_t`: past `INT_MAX` it is `-1`. -/
def snprintfResult (len : ℕ) : ℕ := if len < 2^31 then len else 2^64-1

def paxRecord (len : ℕ) (record value : Bytes) : Bytes :=
  formatD len ++ [32] ++ record ++ [61] ++ cstr value ++ [10]

def bHeaderComputePaxLength (path record : Bytes) : ℕ :=
  let iterate (len : ℕ) := snprintfResult (paxRecord len record path).length
  iterate (iterate (iterate path.length))

def bHeaderEncodeBlock (p : Process) (block : BHeaderBlock) (header : BHeader) : BHeaderBlock :=
  let devices := header.major ≠ 0 ∧ header.minor ≠ 0
  encodeChecksum { block with
    suffix := .strncpy 100 header.suffix
    mode := block.mode.snprintf 8 (numeral 8 7 (header.mode &&& sIperm))
    uid := block.uid.snprintf 8 (numeral 8 7 (unsignedInt header.uid))
    gid := block.gid.snprintf 8 (numeral 8 7 (unsignedInt header.gid))
    size := if bHeaderMaxFileSize ≤ header.size then encodeBase256Value p block.size header.size
      else block.size.snprintf 12 (numeral 8 11 header.size)
    mtime := block.mtime.snprintf 12 (numeral 8 11 (header.mtime % 2^32).toNat)
    linktype := header.linktype
    linkdest := (header.linkdest.map (.strncpy 100)).getD block.linkdest
    magic := .fit 8 bHeaderMagic
    user := (header.user.map (.strncpy 32)).getD block.user
    group := (header.group.map (.strncpy 32)).getD block.group
    major := if devices then block.major.snprintf 8 (numeral 8 7 header.major) else block.major
    minor := if devices then block.minor.snprintf 8 (numeral 8 7 header.minor) else block.minor
    pathPrefix := .strncpy 155 header.pathPrefix }

def bHeaderEncodeLonglinkBlock (block : BHeaderBlock) (path : Bytes) (type : UInt8) :
    BHeaderBlock :=
  encodeChecksum { block with
    magic := .fit 8 bHeaderMagic
    suffix := block.suffix.snprintf 100 bHeaderLonglinkPath
    size := block.size.snprintf 12 (numeral 8 11 (unsignedInt path.length))
    linktype := type }

def paxSize (path : Bytes) (linkdest : Option Bytes) : ℕ :=
  sizeT (bHeaderComputePaxLength path pathKey +
    (linkdest.map (bHeaderComputePaxLength · linkpathKey)).getD 0)

def bHeaderEncodePaxBlock (p : Process) (block : BHeaderBlock) (header : BHeader) (path : Bytes) :
    BHeaderBlock :=
  let block := bHeaderEncodeBlock p block header
  encodeChecksum { block with
    size := block.size.snprintf 12 (numeral 8 11 (paxSize path header.linkdest))
    pathPrefix := (Field.zero 155).snprintf 155 (paxHeadersPath ++ formatD p.pid)
    linktype := bHeaderPaxType }

end ArchiveTarBuilder
