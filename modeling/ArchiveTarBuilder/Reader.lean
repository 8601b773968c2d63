import ArchiveTarBuilder.Builder
import ArchiveTarBuilder.BufferStream

/-! A reference reader of the format: headers whose checksum is verified, data in whole blocks,
and extension records applied to the member behind them. It is written from the format's
definition, not from the archiver. -/
namespace ArchiveTarBuilder
open Region CString Numeral

namespace BHeaderBlock

def blankChecksum (b : BHeaderBlock) : BHeaderBlock :=
  { b with checksum := .fit 8 (List.replicate 8 32) }

def valid (b : BHeaderBlock) : Bool :=
  decide (leading 8 b.checksum.bytes = ArchiveTarBuilder.checksum b.blankChecksum)

end BHeaderBlock

/-- A size field: octal digits, or a big-endian number when the uppermost bit is set. -/
def readSize (field : Bytes) : ℕ :=
  match field with
  | [] => 0
  | c::cs => if 128 ≤ c.toNat then cs.foldl (fun n d => 256*n+d.toNat) (c.toNat-128)
    else leading 8 (c::cs)

/-- The types of headers that are followed by data; a link has none, whatever its size field. -/
def hasData (type : UInt8) : Bool :=
  type ∈ [0,48,55,bHeaderLonglinkType,bHeaderLongdestType,bHeaderPaxType]

def BHeaderBlock.dataSize (b : BHeaderBlock) : ℕ :=
  if hasData b.linktype then readSize b.size.bytes else 0

def nextRecord (bytes : Bytes) : Option (BHeaderBlock × Bytes × Bytes) :=
  let block := BHeaderBlock.ofBytes (bytes.take 512)
  let rest := bytes.drop 512
  if bytes.length < 512 ∨ block.valid = false ∨ rest.length < roundUp 512 block.dataSize then none
  else some (block,rest.take block.dataSize,rest.drop (roundUp 512 block.dataSize))

/-- One record `"len key=value\n"` of a pax header, and what is behind it. -/
def nextPaxRecord (data : Bytes) : Option ((Bytes × Bytes) × Bytes) :=
  let digits := data.takeWhile (isDigit 10)
  let len := value 10 digits
  let body := (data.take len).drop (digits.length+1)
  let key := body.takeWhile (· ≠ 61)
  let text := body.drop (key.length+1)
  if len ≤ digits.length ∨ data.length < len ∨ data.getD digits.length 0 ≠ 32 ∨
    text.getLast? ≠ some 10 then none
  else some ((key,text.dropLast),data.drop len)

/-- All records of a pax header; the fuel bounds their number. -/
def paxRecords : ℕ → Bytes → Option (List (Bytes × Bytes))
  | 0, _ => none
  | fuel+1, data =>
    if data = [] then some []
    else
      match nextPaxRecord data with
      | none => none
      | some (record,rest) => (paxRecords fuel rest).map (record::·)

structure TarMember where
  name : Bytes
  type : UInt8
  size : ℕ
  contents : Bytes
  target : Bytes
  deriving DecidableEq

def BHeaderBlock.name (b : BHeaderBlock) : Bytes :=
  let pre := cstr b.pathPrefix.bytes
  let suffix := cstr b.suffix.bytes
  if pre = [] then suffix else pre ++ [slash] ++ suffix

def member (block : BHeaderBlock) (data : Bytes) (path linkpath : Option Bytes) : TarMember where
  name := path.getD block.name
  type := block.linktype
  size := block.dataSize
  contents := data
  target := linkpath.getD (cstr block.linkdest.bytes)

/-- The members of an archive up to its end or a block of zeros. `path` and `linkpath` come from
the extension records read so far; the fuel bounds the number of headers. -/
def readMembers : ℕ → Option Bytes → Option Bytes → Bytes → Option (List TarMember)
  | 0, _, _, _ => none
  | fuel+1, path, linkpath, bytes =>
    if bytes = [] ∨ bytes.take 512 = zeros 512 then some []
    else
      match nextRecord bytes with
      | none => none
      | some (block,data,rest) =>
        if block.linktype = bHeaderLonglinkType then readMembers fuel (some (cstr data)) linkpath rest
        else if block.linktype = bHeaderLongdestType then
          readMembers fuel path (some (cstr data)) rest
        else if block.linktype = bHeaderPaxType then
          match paxRecords (data.length+1) data with
          | none => none
          | some records =>
            readMembers fuel ((records.lookup pathKey).or path)
              ((records.lookup linkpathKey).or linkpath) rest
        else (readMembers fuel none none rest).map (member block data path linkpath::·)

def readArchive (bytes : Bytes) : Option (List TarMember) :=
  readMembers (bytes.length+1) none none bytes

def Reads (path linkpath : Option Bytes) (bytes : Bytes) (members : List TarMember) : Prop :=
  ∀ fuel, bytes.length < fuel → readMembers fuel path linkpath bytes = some members

theorem Reads.archive {bytes : Bytes} {members : List TarMember} (h : Reads none none bytes members) :
    readArchive bytes = some members := h _ (by omega)

theorem reads_nil (path linkpath : Option Bytes) : Reads path linkpath [] [] := by
  intro fuel hfuel
  obtain ⟨fuel,rfl⟩ : ∃ k, fuel = k+1 := ⟨fuel-1,by simp at hfuel; omega⟩
  simp [readMembers]

theorem nextRecord_append {block : BHeaderBlock} {data : Bytes} (hvalid : block.valid = true)
    (hdata : block.dataSize = data.length) (rest : Bytes) :
    nextRecord (block.toBytes ++ pad512 data ++ rest) = some (block,data,rest) := by
  have htake : (block.toBytes ++ pad512 data ++ rest).take 512 = block.toBytes := by
    rw [List.append_assoc,List.take_left' (by simp)]
  have hdrop : (block.toBytes ++ pad512 data ++ rest).drop 512 = pad512 data ++ rest := by
    rw [List.append_assoc,List.drop_left' (by simp)]
  have hle := le_roundUp 512 data.length
  have hpad : (pad512 data).length = roundUp 512 data.length := padTo_length 512 0 data
  have hfirst : (pad512 data ++ rest).take data.length = data := by
    rw [List.take_append_of_le_length (by rw [hpad]; exact hle)]
    exact take_padTo 512 0 data
  have hrest : (pad512 data ++ rest).drop (roundUp 512 data.length) = rest :=
    List.drop_left' hpad
  have hno : ¬((block.toBytes ++ pad512 data ++ rest).length < 512 ∨ block.valid = false ∨
      (pad512 data ++ rest).length < roundUp 512 block.dataSize) := by
    rintro (h | h | h)
    · rw [List.length_append,List.length_append,BHeaderBlock.toBytes_length] at h
      omega
    · rw [hvalid] at h
      cases h
    · rw [List.length_append,hpad,hdata] at h
      omega
  simp only [nextRecord,htake,hdrop,BHeaderBlock.ofBytes_toBytes,hno,if_false]
  rw [hdata,hfirst,hrest]

theorem not_valid_zero : BHeaderBlock.zero.valid = false := by decide +kernel

theorem toBytes_ne_zeros {block : BHeaderBlock} (hvalid : block.valid = true) :
    block.toBytes ≠ zeros 512 := by
  intro hz
  have hblock := BHeaderBlock.ofBytes_toBytes block
  rw [hz,BHeaderBlock.ofBytes_zeros] at hblock
  rw [← hblock,not_valid_zero] at hvalid
  cases hvalid

theorem readMembers_record {block : BHeaderBlock} {data : Bytes} (hvalid : block.valid = true)
    (hdata : block.dataSize = data.length) (fuel : ℕ) (path linkpath : Option Bytes) (rest : Bytes) :
    readMembers (fuel+1) path linkpath (block.toBytes ++ pad512 data ++ rest) =
      if block.linktype = bHeaderLonglinkType then readMembers fuel (some (cstr data)) linkpath rest
      else if block.linktype = bHeaderLongdestType then
        readMembers fuel path (some (cstr data)) rest
      else if block.linktype = bHeaderPaxType then
        match paxRecords (data.length+1) data with
        | none => none
        | some records =>
          readMembers fuel ((records.lookup pathKey).or path)
            ((records.lookup linkpathKey).or linkpath) rest
      else (readMembers fuel none none rest).map (member block data path linkpath::·) := by
  have htake : (block.toBytes ++ pad512 data ++ rest).take 512 = block.toBytes := by
    rw [List.append_assoc,List.take_left' (by simp)]
  have hne : ¬(block.toBytes ++ pad512 data ++ rest = [] ∨
      (block.toBytes ++ pad512 data ++ rest).take 512 = zeros 512) := by
    rw [htake]
    rintro (hnil | hz)
    · have hlen := congrArg List.length hnil
      simp at hlen
    · exact toBytes_ne_zeros hvalid hz
  rw [readMembers,if_neg hne,nextRecord_append hvalid hdata]

theorem record_fuel {block : BHeaderBlock} {data rest : Bytes} {fuel : ℕ}
    (h : (block.toBytes ++ pad512 data ++ rest).length < fuel) :
    ∃ k, fuel = k+1 ∧ rest.length < k := by
  simp only [List.length_append,BHeaderBlock.toBytes_length] at h
  exact ⟨fuel-1,by omega,by omega⟩

section
variable {block : BHeaderBlock} {data rest : Bytes} {path linkpath : Option Bytes}
  {members : List TarMember} (hvalid : block.valid = true) (hdata : block.dataSize = data.length)
include hvalid hdata

theorem Reads.member (htype : block.linktype ∉ [bHeaderLonglinkType,bHeaderLongdestType,bHeaderPaxType])
    (h : Reads none none rest members) :
    Reads path linkpath (block.toBytes ++ pad512 data ++ rest)
      (ArchiveTarBuilder.member block data path linkpath::members) := by
  intro fuel hfuel
  obtain ⟨k,rfl,hk⟩ := record_fuel hfuel
  simp only [List.mem_cons,List.not_mem_nil,or_false,not_or] at htype
  rw [readMembers_record hvalid hdata,if_neg htype.1,if_neg htype.2.1,if_neg htype.2.2,h k hk]
  rfl

theorem Reads.longlink (htype : block.linktype = bHeaderLonglinkType)
    (h : Reads (some (cstr data)) linkpath rest members) :
    Reads path linkpath (block.toBytes ++ pad512 data ++ rest) members := by
  intro fuel hfuel
  obtain ⟨k,rfl,hk⟩ := record_fuel hfuel
  rw [readMembers_record hvalid hdata,if_pos htype,h k hk]

theorem Reads.longdest (htype : block.linktype = bHeaderLongdestType)
    (h : Reads path (some (cstr data)) rest members) :
    Reads path linkpath (block.toBytes ++ pad512 data ++ rest) members := by
  intro fuel hfuel
  obtain ⟨k,rfl,hk⟩ := record_fuel hfuel
  rw [readMembers_record hvalid hdata,if_neg (by rw [htype]; decide),if_pos htype,h k hk]

theorem Reads.pax (htype : block.linktype = bHeaderPaxType) {records : List (Bytes × Bytes)}
    (hrecords : paxRecords (data.length+1) data = some records)
    (h : Reads ((records.lookup pathKey).or path) ((records.lookup linkpathKey).or linkpath) rest
      members) :
    Reads path linkpath (block.toBytes ++ pad512 data ++ rest) members := by
  intro fuel hfuel
  obtain ⟨k,rfl,hk⟩ := record_fuel hfuel
  rw [readMembers_record hvalid hdata,if_neg (by rw [htype]; decide),
    if_neg (by rw [htype]; decide),if_pos htype,hrecords]
  exact h k hk

end

end ArchiveTarBuilder
