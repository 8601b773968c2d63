import ArchiveTarBuilder.LongNames
import ArchiveTarBuilder.PaxConsistency
import ArchiveTarBuilder.WholeBlocks

/-! The fields of a header block as numbers: the checksum, the sizes, the owner, the time and the
device numbers. -/
namespace ArchiveTarBuilder
open Region CString Numeral

def blankedSum (bytes : Bytes) : ℕ :=
  ((bytes.take 148 ++ List.replicate 8 32 ++ bytes.drop 156).map UInt8.toNat).sum

/-- The checksum field of 512 bytes holds that sum in six octal digits, a NUL and a blank. -/
structure ChecksumCorrect (bytes : Bytes) : Prop where
  fits : blankedSum bytes < 8^6
  field : slice bytes 148 8 = numeral 8 6 (blankedSum bytes) ++ [0,32]
  value : leading 8 (slice bytes 148 8) = blankedSum bytes

theorem slice_checksum (b : BHeaderBlock) : slice b.toBytes 148 8 = b.checksum.bytes := by
  simp [BHeaderBlock.toBytes,slice,List.drop_append,Field.drop_bytes]

theorem blankedSum_toBytes (b : BHeaderBlock) :
    blankedSum b.toBytes = checksum b.blankChecksum := by
  have hblank : b.toBytes.take 148 ++ List.replicate 8 32 ++ b.toBytes.drop 156 =
      b.blankChecksum.toBytes := by
    simp [BHeaderBlock.toBytes,BHeaderBlock.blankChecksum,Field.fit_bytes,List.drop_append,
      List.take_append,Field.drop_bytes,Field.take_bytes]
  rw [blankedSum,hblank,checksum]

theorem checksumCorrect_encodeChecksum (b : BHeaderBlock) :
    ChecksumCorrect (encodeChecksum b).toBytes := by
  have hblank : (encodeChecksum b).blankChecksum = b.blankChecksum := by
    simp only [BHeaderBlock.blankChecksum,encodeChecksum]
  have hvalid := of_decide_eq_true (valid_encodeChecksum b)
  refine ⟨?_,?_,?_⟩
  · rw [blankedSum_toBytes]
    exact checksum_lt _
  · rw [blankedSum_toBytes,slice_checksum,hblank]
    exact encodeChecksum_checksum b
  · rw [blankedSum_toBytes,slice_checksum]
    exact hvalid

/-- The three encoders leave valid checksums in every block. -/
theorem encoders_checksum (p : Process) (block : BHeaderBlock) (header : BHeader) (path : Bytes)
    (type : UInt8) :
    ChecksumCorrect (bHeaderEncodeBlock p block header).toBytes ∧
    ChecksumCorrect (bHeaderEncodeLonglinkBlock block path type).toBytes ∧
    ChecksumCorrect (bHeaderEncodePaxBlock p block header path).toBytes :=
  ⟨checksumCorrect_encodeChecksum _,checksumCorrect_encodeChecksum _,
    checksumCorrect_encodeChecksum _⟩

theorem computePaxLength_range (path record : Bytes) :
    (0 < bHeaderComputePaxLength path record ∧ bHeaderComputePaxLength path record < 2^31) ∨
      bHeaderComputePaxLength path record = 2^64-1 := by
  have hrange (len : ℕ) (hpos : 0 < len) :
      (0 < snprintfResult len ∧ snprintfResult len < 2^31) ∨ snprintfResult len = 2^64-1 := by
    unfold snprintfResult
    split <;> simp_all
  exact hrange _ (by simp [paxRecord])

/-- The sum that goes to the size field fits there once the length of the path is known. -/
theorem paxSize_lt {path : Bytes} (h : bHeaderComputePaxLength path pathKey ≠ 2^64-1)
    (linkdest : Option Bytes) : paxSize path linkdest < 8^11 := by
  obtain ⟨hpos,hlt⟩ := (computePaxLength_range path pathKey).resolve_right h
  cases linkdest with
  | none =>
    simp only [paxSize,Option.map_none,Option.getD_none,Nat.add_zero,sizeT]
    omega
  | some dest =>
    have hdest := computePaxLength_range dest linkpathKey
    simp only [paxSize,Option.map_some,Option.getD_some,sizeT]
    omega

/-- The size field of a header holds the size on both sides of 8 GiB and in either byte order, and
that of a pax header holds the sum of the record lengths, whatever form was there before. -/
theorem sizeField_decodes (p : Process) (block : BHeaderBlock) (header : BHeader) (path : Bytes)
    (hsize : header.size < 2^63) (hpath : bHeaderComputePaxLength path pathKey ≠ 2^64-1) :
    readSize (bHeaderEncodeBlock p .zero header).size.bytes = header.size ∧
    readSize (bHeaderEncodePaxBlock p block header path).size.bytes = paxSize path header.linkdest ∧
    ((∀ dest ∈ header.linkdest, bHeaderComputePaxLength dest linkpathKey ≠ 2^64-1) →
      paxSize path header.linkdest = recordsLength path header.linkdest) := by
  refine ⟨encodeBlock_size p header (by omega),
    paxBlock_size p block header path (paxSize_lt hpath header.linkdest),fun hdest => ?_⟩
  obtain ⟨-,hlt⟩ := (computePaxLength_range path pathKey).resolve_right hpath
  refine Nat.mod_eq_of_lt ?_
  cases hd : header.linkdest with
  | none =>
    simp only [Option.map_none,Option.getD_none]
    omega
  | some dest =>
    obtain ⟨-,hlt'⟩ := (computePaxLength_range dest linkpathKey).resolve_right (hdest dest hd)
    simp only [Option.map_some,Option.getD_some]
    omega

def fileOfSize (size : ℕ) : BHeader :=
  fileHeader ⟨[],[102],false⟩ ⟨sIfreg+0o644,0,0,size,0,0,0,7,1⟩

theorem sizeField_decodes_switch : fileOfSize 8589934592 = fileOfSize bHeaderMaxFileSize ∧
    readSize (bHeaderEncodeBlock ⟨true,1⟩ .zero (fileOfSize 8589934592)).size.bytes = 8589934592 ∧
    readSize (bHeaderEncodePaxBlock ⟨true,1⟩ .zero (fileOfSize 8589934592) [102]).size.bytes = 9 := by
  have h := sizeField_decodes ⟨true,1⟩ .zero (fileOfSize 8589934592) [102] (by decide)
    (by decide +kernel)
  refine ⟨rfl,h.1,?_⟩
  rw [h.2.1]
  decide +kernel

theorem snprintf_full {n : ℕ} (f : Field n) (hn : 0 < n) (text : Bytes) (h : n-1 ≤ text.length) :
    (f.snprintf n text).bytes = text.take (n-1) ++ [0] := by
  have hlen : (text.take (n-1)).length = n-1 := by rw [List.length_take]; omega
  have htake : (text.take (n-1) ++ [0]).take n = text.take (n-1) ++ [0] :=
    List.take_of_length_le (by simp only [List.length_append,hlen,List.length_singleton]; omega)
  have hdrop : f.bytes.drop (text.take (n-1) ++ [0]).length = [] := by
    refine List.drop_eq_nil_of_le ?_
    simp only [List.length_append,hlen,List.length_singleton,Field.size]
    omega
  rw [Field.snprintf,htake,overwrite,Nat.zero_add,hdrop,List.take_zero,List.nil_append,
    List.append_nil]
  exact Field.fit_bytes _ (by simp only [List.length_append,hlen,List.length_singleton]; omega)

/-- The number that is left of `n` when its octal digits are cut to `k`. -/
def octalHead (k n : ℕ) : ℕ := value 8 ((numeral 8 k n).take k)

theorem octalHead_of_lt {k n : ℕ} (h : n < 8^k) : octalHead k n = n := by
  rw [octalHead,List.take_of_length_le (numeral_length_of_lt (by omega) h).le]
  exact value_numeral (by omega) (by omega) k n

theorem octalHead_lt (k n : ℕ) : octalHead k n < 8^k := by
  have hdigits : ∀ d ∈ ((numeral 8 k n).take k).reverse.map (fun c => c.toNat-48), d < 8 := by
    intro d hd
    simp only [List.mem_map,List.mem_reverse] at hd
    obtain ⟨c,hc,rfl⟩ := hd
    have hdigit := isDigit_of_mem_numeral (b := 8) (by omega) (by omega) (List.mem_of_mem_take hc)
    simp only [isDigit,Bool.and_eq_true,decide_eq_true_eq] at hdigit
    omega
  refine (Nat.ofDigits_lt_base_pow_length (by omega) hdigits).trans_le ?_
  exact Nat.pow_le_pow_right (by omega) (by simp)

theorem octalHead_eq_iff {k n : ℕ} : octalHead k n = n ↔ n < 8^k :=
  ⟨fun h => h ▸ octalHead_lt k n,octalHead_of_lt⟩

theorem leading_snprintf {n : ℕ} (f : CString.Field (n+1)) (m : ℕ) :
    leading 8 (f.snprintf (n+1) (numeral 8 n m)).bytes = octalHead n m := by
  have hlen : n ≤ (numeral 8 n m).length := by rw [numeral_length]; omega
  rw [snprintf_full f (by omega) _ hlen,Nat.add_sub_cancel,leading,octalHead]
  congr 1
  rw [List.takeWhile_append_of_pos fun c hc =>
    isDigit_of_mem_numeral (by omega) (by omega) (List.mem_of_mem_take hc)]
  simp [isDigit]

section
variable (p : Process) (block : BHeaderBlock) (header : BHeader)

theorem encodeBlock_uid : leading 8 (bHeaderEncodeBlock p block header).uid.bytes =
    octalHead 7 (unsignedInt header.uid) := leading_snprintf block.uid _

theorem encodeBlock_gid : leading 8 (bHeaderEncodeBlock p block header).gid.bytes =
    octalHead 7 (unsignedInt header.gid) := leading_snprintf block.gid _

theorem encodeBlock_mtime : leading 8 (bHeaderEncodeBlock p block header).mtime.bytes =
    octalHead 11 (header.mtime % 2^32).toNat := leading_snprintf block.mtime _

end

theorem headerForFile_stat {cache cache' : Option HardlinkCache} {src : Source} {memberName : Bytes}
    {st : Stat} {header : BHeader} (h : headerForFile cache src memberName st = (.ok header,cache')) :
    header.uid = st.uid ∧ header.gid = st.gid ∧ header.mtime = st.mtime ∧
      header.major = major st.dev ∧ header.minor = minor st.dev := by
  unfold headerForFile at h
  cases hsplit : pathSplit memberName st with
  | none => simp [hsplit] at h
  | some d =>
    have hlink (plain : BHeader) (dest : Bytes) : (plain.withLinkdest dest).uid = plain.uid ∧
        (plain.withLinkdest dest).gid = plain.gid ∧ (plain.withLinkdest dest).mtime = plain.mtime ∧
        (plain.withLinkdest dest).major = plain.major ∧
        (plain.withLinkdest dest).minor = plain.minor := ⟨rfl,rfl,rfl,rfl,rfl⟩
    simp only [hsplit] at h
    split at h
    · split at h
      · simp at h
      · obtain ⟨rfl,-⟩ := Prod.mk.inj (by simpa using h)
        exact hlink _ _
    · split at h
      · split at h
        · obtain ⟨rfl,-⟩ := Prod.mk.inj (by simpa using h)
          exact ⟨rfl,rfl,rfl,rfl,rfl⟩
        · split at h
          · obtain ⟨rfl,-⟩ := Prod.mk.inj (by simpa using h)
            exact hlink _ _
          · obtain ⟨rfl,-⟩ := Prod.mk.inj (by simpa using h)
            exact ⟨rfl,rfl,rfl,rfl,rfl⟩
      · obtain ⟨rfl,-⟩ := Prod.mk.inj (by simpa using h)
        exact ⟨rfl,rfl,rfl,rfl,rfl⟩

theorem memberHeader_stat {lookup : Option BUserLookup} {cache : Option HardlinkCache} {src : Source}
    {memberName : Bytes} {st : Stat} {header : BHeader}
    (h : memberHeader lookup cache src memberName st = some header) :
    header.uid = st.uid ∧ header.gid = st.gid ∧ header.mtime = st.mtime := by
  obtain ⟨r,cache',hr⟩ : ∃ r cache', headerForFile cache src memberName st = (r,cache') := ⟨_,_,rfl⟩
  cases r with
  | error e => simp [memberHeader,hr] at h
  | ok plain =>
    obtain ⟨huid,hgid,hmtime,-⟩ := headerForFile_stat hr
    cases lookup with
    | none =>
      obtain rfl : plain = header := by simpa [memberHeader,hr] using h
      exact ⟨huid,hgid,hmtime⟩
    | some lookup =>
      simp only [memberHeader,hr,Option.map_eq_some_iff] at h
      obtain ⟨names,-,rfl⟩ := h
      exact ⟨huid,hgid,hmtime⟩

/-- `block` is what the last 512 used bytes of the buffer hold when the call has written the
member's own header, behind its long-name records and in front of its contents. -/
def OwnBlock (b : BBuilder) (c : MemberCall) (block : BHeaderBlock) : Prop :=
  ∃ header ∈ memberHeader b.userLookup b.hardlinkCache c.src c.memberName c.st, ∃ b' own,
    writeLongRecords (memberStart b c.src c.memberName c.st) header c.memberName c.st = (true,b') ∧
    writeHeader b' header = (true,own) ∧
    block = .ofBytes (slice own.out.buf.data (own.out.used-bHeaderSize) bHeaderSize)

theorem slice_overwrite {α : Type*} {region : List α} {off : ℕ} (xs : List α)
    (h : off ≤ region.length) : slice (overwrite region off xs) off xs.length = xs := by
  have hl : (region.take off).length = off := by rw [List.length_take,min_eq_left h]
  rw [slice,overwrite,List.append_assoc,List.drop_left' hl,List.take_left]

theorem writeHeader_stored {n : ℕ} {b own : BBuilder} {header : BHeader} (h : b.out.InBlocks n)
    (hwrite : writeHeader b header = (true,own)) : ∃ old,
      BHeaderBlock.ofBytes (slice own.out.buf.data (own.out.used-bHeaderSize) bHeaderSize) =
        bHeaderEncodeBlock b.process old header := by
  have hget := h.refl.getBlock bHeaderSize
  have hsize : paddedSize bHeaderSize = bHeaderSize := by decide
  unfold writeHeader at hwrite
  generalize bBufferGetBlock b.out bHeaderSize = r at hget hwrite
  rcases r with ⟨_ | ⟨off,given⟩,out⟩
  · cases hwrite
  · obtain ⟨hout,rfl,hend,hused⟩ := hget
    obtain ⟨-,rfl⟩ := Prod.mk.inj hwrite
    let old : BHeaderBlock := .ofBytes (slice out.buf.data off bHeaderSize)
    have hlen : (bHeaderEncodeBlock b.process old header).toBytes.length = bHeaderSize :=
      BHeaderBlock.toBytes_length _
    have hoff : off ≤ out.buf.data.length := by
      rw [hout.length]
      omega
    have hlast : out.used-bHeaderSize = off := by omega
    have hstored := slice_overwrite (bHeaderEncodeBlock b.process old header).toBytes hoff
    rw [hlen] at hstored
    refine ⟨old,Eq.trans ?_ (BHeaderBlock.ofBytes_toBytes (bHeaderEncodeBlock b.process old header))⟩
    change BHeaderBlock.ofBytes (slice (overwrite out.buf.data off
      (bHeaderEncodeBlock b.process old header).toBytes) (out.used-bHeaderSize) bHeaderSize) = _
    rw [hlast,hstored]

theorem exists_ownBlock {b : BBuilder} {c : MemberCall} (hret : (c.write b).1 = true) :
    ∃ block, OwnBlock b c block := by
  cases hh : memberHeader b.userLookup b.hardlinkCache c.src c.memberName c.st with
  | none =>
    have hfail := (bBuilderWriteFile_none c.path c.fd hh).failed
    rw [MemberCall.write,hfail] at hret
    cases hret
  | some header =>
    rw [MemberCall.write,bBuilderWriteFile_some c.path c.fd hh,writeMember] at hret
    obtain ⟨ok,b',hlong⟩ : ∃ ok b', writeLongRecords (memberStart b c.src c.memberName c.st) header
      c.memberName c.st = (ok,b') := ⟨_,_,rfl⟩
    rw [hlong] at hret
    cases ok with
    | false => simp [andWrite] at hret
    | true =>
      obtain ⟨ok,own,hown⟩ : ∃ ok own, writeHeader b' header = (ok,own) := ⟨_,_,rfl⟩
      cases ok with
      | false => simp [andWrite,hown] at hret
      | true => exact ⟨_,header,hh,b',own,hlong,hown,rfl⟩

/-- The numbers of the member that the three fields should hold. -/
def OwnerAndTime (st : Stat) (block : BHeaderBlock) : Prop :=
  leading 8 block.uid.bytes = st.uid ∧ leading 8 block.gid.bytes = st.gid ∧
    (leading 8 block.mtime.bytes : ℤ) = st.mtime

/-- The values that the three conversions hold. -/
def OwnerAndTimeFit (st : Stat) : Prop := st.uid < 8^7 ∧ st.gid < 8^7 ∧ st.mtime < 2^32

theorem ownerAndTime_iff {n : ℕ} {b : BBuilder} {c : MemberCall} {block : BHeaderBlock}
    (hb : b.out.InBlocks n) (h : OwnBlock b c block) (huid : c.st.uid < 2^32) (hgid : c.st.gid < 2^32)
    (hmtime : 0 ≤ c.st.mtime) : OwnerAndTime c.st block ↔ OwnerAndTimeFit c.st := by
  obtain ⟨header,hheader,b',own,hlong,hown,rfl⟩ := h
  obtain ⟨hu,hg,hm⟩ := memberHeader_stat hheader
  have hb' : b'.out.InBlocks n := by
    have hrecords := @writeLongRecords_inBlocks n b.out (memberStart b c.src c.memberName c.st) hb.refl
      header c.memberName c.st
    rw [hlong] at hrecords
    exact hrecords.toInBlocks
  obtain ⟨old,hstored⟩ := writeHeader_stored hb' hown
  have hlow : (c.st.mtime % 2^32).toNat < 8^11 := by omega
  have htime : ((c.st.mtime % 2^32).toNat : ℤ) = c.st.mtime ↔ c.st.mtime < 2^32 := by omega
  rw [hstored,OwnerAndTime,encodeBlock_uid,encodeBlock_gid,encodeBlock_mtime,hu,hg,hm,unsignedInt,
    unsignedInt,Nat.mod_eq_of_lt huid,Nat.mod_eq_of_lt hgid,octalHead_of_lt hlow,octalHead_eq_iff,
    octalHead_eq_iff,htime,OwnerAndTimeFit]

/-- The header of a call that returns 1 holds the member's owner and time, exactly when the ids have
seven octal digits and the time is an `unsigned int`. -/
theorem ownBlock_ownerAndTime {n : ℕ} {b : BBuilder} {c : MemberCall} (hb : b.out.InBlocks n)
    (huid : c.st.uid < 2^32) (hgid : c.st.gid < 2^32) (hmtime : 0 ≤ c.st.mtime)
    (hret : (c.write b).1 = true) :
    (∃ block, OwnBlock b c block) ∧
      ((∀ block, OwnBlock b c block → OwnerAndTime c.st block) ↔ OwnerAndTimeFit c.st) := by
  obtain ⟨block,hblock⟩ := exists_ownBlock hret
  refine ⟨⟨block,hblock⟩,fun h => ?_,fun h block' hblock' => ?_⟩
  · exact (ownerAndTime_iff hb hblock huid hgid hmtime).mp (h block hblock)
  · exact (ownerAndTime_iff hb hblock' huid hgid hmtime).mpr h

def fifoCall (uid gid : ℕ) (mtime : ℤ) : MemberCall :=
  ⟨[47,102],[102],⟨sIfifo+0o644,uid,gid,0,mtime,0,0,7,1⟩,-1,⟨.error .einval,[],⟨[],[]⟩⟩⟩

theorem gnuBuilder_inBlocks : gnuBuilder.out.InBlocks 1024 :=
  ⟨rfl,by decide,gnuBuilder_ready.unusedBlock,gnuBuilder_ready.unused_le,gnuBuilder_ready.length⟩

theorem ownBlock_ownerAndTime_fifo : OwnerAndTimeFit (fifoCall 2097151 1000 4294967295).st ∧
    ∀ block, OwnBlock gnuBuilder (fifoCall 2097151 1000 4294967295) block →
      OwnerAndTime (fifoCall 2097151 1000 4294967295).st block := by
  have hfit : OwnerAndTimeFit (fifoCall 2097151 1000 4294967295).st := by
    unfold OwnerAndTimeFit
    decide
  exact ⟨hfit,(ownBlock_ownerAndTime gnuBuilder_inBlocks (by decide) (by decide) (by decide)
    (by decide +kernel)).2.mpr hfit⟩

/-- One more than seven octal digits hold: the call returns 1 and records user 262144. -/
theorem not_ownerAndTime_fifo : ((fifoCall 2097152 1000 0).write gnuBuilder).1 = true ∧
    ∃ block, OwnBlock gnuBuilder (fifoCall 2097152 1000 0) block ∧
      ¬OwnerAndTime (fifoCall 2097152 1000 0).st block := by
  have hret : ((fifoCall 2097152 1000 0).write gnuBuilder).1 = true := by decide +kernel
  obtain ⟨block,hblock⟩ := exists_ownBlock hret
  refine ⟨hret,block,hblock,?_⟩
  rw [ownerAndTime_iff gnuBuilder_inBlocks hblock (by decide) (by decide) (by decide)]
  unfold OwnerAndTimeFit
  decide

/-- The two device fields name the node itself. -/
def DeviceRecorded (st : Stat) (block : BHeaderBlock) : Prop :=
  leading 8 block.major.bytes = major st.rdev ∧ leading 8 block.minor.bytes = minor st.rdev

/-- The file system that holds the node happens to have the node's numbers; without two numbers that
are not zero the fields stay blank. -/
def DeviceCoincides (st : Stat) : Prop :=
  if major st.dev ≠ 0 ∧ minor st.dev ≠ 0 then
    octalHead 7 (major st.dev) = major st.rdev ∧ octalHead 7 (minor st.dev) = minor st.rdev
  else major st.rdev = 0 ∧ minor st.rdev = 0

/-- What is read from the device fields of a header that is encoded in a blank block. -/
theorem encodeBlock_devices (p : Process) (header : BHeader) :
    let block := bHeaderEncodeBlock p .zero header
    leading 8 block.major.bytes =
        (if header.major ≠ 0 ∧ header.minor ≠ 0 then octalHead 7 header.major else 0) ∧
      leading 8 block.minor.bytes =
        (if header.major ≠ 0 ∧ header.minor ≠ 0 then octalHead 7 header.minor else 0) := by
  change leading 8 (if header.major ≠ 0 ∧ header.minor ≠ 0 then
      (Field.zero 8).snprintf 8 (numeral 8 7 header.major) else Field.zero 8).bytes = _ ∧
    leading 8 (if header.major ≠ 0 ∧ header.minor ≠ 0 then
      (Field.zero 8).snprintf 8 (numeral 8 7 header.minor) else Field.zero 8).bytes = _
  by_cases hdev : header.major ≠ 0 ∧ header.minor ≠ 0
  · simp only [if_pos hdev]
    exact ⟨leading_snprintf _ _,leading_snprintf _ _⟩
  · have hzero : leading 8 (Field.zero 8).bytes = 0 := by decide
    simp only [if_neg hdev]
    exact ⟨hzero,hzero⟩

/-- The header of any member, a device node among them, names the node exactly when its file system
has the same numbers. -/
theorem deviceRecorded_iff {cache cache' : Option HardlinkCache} {src : Source} {memberName : Bytes}
    {st : Stat} {header : BHeader} (h : headerForFile cache src memberName st = (.ok header,cache'))
    (p : Process) :
    DeviceRecorded st (bHeaderEncodeBlock p .zero header) ↔ DeviceCoincides st := by
  obtain ⟨-,-,-,hdmajor,hdminor⟩ := headerForFile_stat h
  obtain ⟨hfst,hsnd⟩ := encodeBlock_devices p header
  rw [DeviceRecorded,hfst,hsnd,hdmajor,hdminor,DeviceCoincides]
  split
  · rfl
  · rw [eq_comm,eq_comm (a := 0) (b := minor st.rdev)]

def nullDevice (dev : ℕ) : Stat := ⟨sIfchr+0o666,0,0,0,0,dev,259,7,1⟩

def nullHeader (dev : ℕ) : BHeader := fileHeader ⟨[],[110],false⟩ (nullDevice dev)

theorem headerForFile_null (dev : ℕ) : headerForFile none ⟨.error .einval,[],⟨[],[]⟩⟩ [110]
    (nullDevice dev) = (.ok (nullHeader dev),none) := by
  have hsplit : pathSplit [110] (nullDevice dev) = some ⟨[],[110],false⟩ := by
    change pathSplit [110] (nullDevice 0) = _
    decide +kernel
  have hlnk : (nullDevice dev).ifmt ≠ sIflnk := by
    change (nullDevice 0).ifmt ≠ sIflnk
    decide
  have hhard : isHardlink (nullDevice dev) = false := by
    change isHardlink (nullDevice 0) = false
    decide
  simp only [headerForFile,hsplit,hlnk,hhard,if_false,Bool.false_eq_true,nullHeader]

theorem deviceRecorded_coinciding :
    DeviceRecorded (nullDevice 259) (bHeaderEncodeBlock ⟨false,1⟩ .zero (nullHeader 259)) :=
  (deviceRecorded_iff (headerForFile_null 259) ⟨false,1⟩).mpr (by
    unfold DeviceCoincides
    decide +kernel)

/-- On a disk the node is recorded as the disk, on a file system without a device as nothing. -/
theorem not_deviceRecorded_null : ((nullDevice 2049).ifmt = sIfchr ∧ major (nullDevice 2049).rdev = 1 ∧
      minor (nullDevice 2049).rdev = 3) ∧
    (headerForFile none ⟨.error .einval,[],⟨[],[]⟩⟩ [110] (nullDevice 2049) =
        (.ok (nullHeader 2049),none) ∧
      ¬DeviceRecorded (nullDevice 2049) (bHeaderEncodeBlock ⟨false,1⟩ .zero (nullHeader 2049)) ∧
      leading 8 (bHeaderEncodeBlock ⟨false,1⟩ .zero (nullHeader 2049)).major.bytes = 8) ∧
    headerForFile none ⟨.error .einval,[],⟨[],[]⟩⟩ [110] (nullDevice 6) =
    (.ok (nullHeader 6),none) ∧
      ¬DeviceRecorded (nullDevice 6) (bHeaderEncodeBlock ⟨false,1⟩ .zero (nullHeader 6)) := by
  refine ⟨by decide,⟨headerForFile_null 2049,?_,by decide +kernel⟩,headerForFile_null 6,?_⟩
  · unfold DeviceRecorded
    decide +kernel
  · unfold DeviceRecorded
    decide +kernel

end ArchiveTarBuilder
