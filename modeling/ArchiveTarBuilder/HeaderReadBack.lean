import ArchiveTarBuilder.Reader

/-! What the reader gets back from an encoded header: a valid checksum, the size, the type and
the strings. -/
namespace ArchiveTarBuilder
open Region CString Numeral

theorem sum_bytes_le (bytes : Bytes) : (bytes.map UInt8.toNat).sum ≤ 255*bytes.length := by
  induction bytes with
  | nil => simp
  | cons c cs ih =>
    have hc := c.toNat_lt
    simp only [List.map_cons,List.sum_cons,List.length_cons]
    omega

theorem checksum_lt (b : BHeaderBlock) : checksum b < 8^6 := by
  have h := sum_bytes_le b.toBytes
  rw [BHeaderBlock.toBytes_length] at h
  unfold checksum
  omega

theorem encodeChecksum_checksum (b : BHeaderBlock) :
    (encodeChecksum b).checksum.bytes = numeral 8 6 (checksum b.blankChecksum) ++ [0,32] := by
  have hlt := checksum_lt b.blankChecksum
  have hlen : (numeral 8 6 (checksum b.blankChecksum)).length = 6 :=
    numeral_length_of_lt (by omega) hlt
  have hunsigned : unsignedInt (checksum b.blankChecksum) = checksum b.blankChecksum :=
    Nat.mod_eq_of_lt (by omega)
  have hblank : (b.blankChecksum.checksum).bytes = List.replicate 8 32 := by
    simp [BHeaderBlock.blankChecksum,Field.fit_bytes]
  have hprinted : (b.blankChecksum.checksum.snprintf 7
      (numeral 8 6 (unsignedInt (checksum b.blankChecksum)))).bytes =
      numeral 8 6 (checksum b.blankChecksum) ++ [0,32] := by
    rw [hunsigned,Field.snprintf_bytes _ 7 _ (by omega) (by omega),hblank,hlen]
    rfl
  have hover : overwrite (numeral 8 6 (checksum b.blankChecksum) ++ [0,32]) 7 [32] =
      numeral 8 6 (checksum b.blankChecksum) ++ [0,32] := by
    rw [overwrite,List.take_append,List.drop_append,hlen]
    simp [List.take_of_length_le (by omega : (numeral 8 6 (checksum b.blankChecksum)).length ≤ 7),
      List.drop_eq_nil_of_le (by omega : (numeral 8 6 (checksum b.blankChecksum)).length ≤ 8)]
  change (Field.fit 8 (overwrite (b.blankChecksum.checksum.snprintf 7
    (numeral 8 6 (unsignedInt (checksum b.blankChecksum)))).bytes 7 [32])).bytes = _
  rw [hprinted,hover]
  exact Field.fit_bytes _ (by simp [hlen])

theorem valid_encodeChecksum (b : BHeaderBlock) : (encodeChecksum b).valid = true := by
  have hblank : (encodeChecksum b).blankChecksum = b.blankChecksum := by
    simp only [BHeaderBlock.blankChecksum,encodeChecksum]
  have hread := leading_numeral (b := 8) (by omega) (by omega) 6 (checksum b.blankChecksum) [0,32]
    (by simp [isDigit])
  rw [BHeaderBlock.valid,hblank,encodeChecksum_checksum,hread]
  exact decide_eq_true rfl

theorem readSize_octal (f : Field 12) {n : ℕ} (h : n < 8^11) :
    readSize (f.snprintf 12 (numeral 8 11 n)).bytes = n := by
  have hlen : (numeral 8 11 n).length = 11 := numeral_length_of_lt (by omega) h
  rw [Field.snprintf_bytes f 12 _ (by omega) le_rfl]
  have hread := leading_numeral (b := 8) (by omega) (by omega) 11 n (0::f.bytes.drop 12)
    (by simp [isDigit])
  rw [hlen]
  cases hnum : numeral 8 11 n with
  | nil => simp [hnum] at hlen
  | cons c cs =>
    have hdigit := isDigit_of_mem_numeral (b := 8) (by omega) (by omega)
      (by rw [hnum]; exact List.mem_cons_self : c ∈ numeral 8 11 n)
    simp only [isDigit,Bool.and_eq_true,decide_eq_true_eq] at hdigit
    have hsmall : ¬128 ≤ c.toNat := by omega
    rw [hnum] at hread
    simpa only [readSize,List.cons_append,hsmall,if_false] using hread

theorem readSize_base256 (p : Process) {n : ℕ} (h : n < 2^64) :
    readSize (encodeBase256Value p (.zero 12) n).bytes = n := by
  have hbytes : (encodeBase256Value p (.zero 12) n).bytes =
      [128,0,0,0,UInt8.ofNat (n/256^7),UInt8.ofNat (n/256^6),UInt8.ofNat (n/256^5),
        UInt8.ofNat (n/256^4),UInt8.ofNat (n/256^3),UInt8.ofNat (n/256^2),UInt8.ofNat (n/256),
        UInt8.ofNat n] := by
    cases hp : p.bigEndian <;>
      simp [encodeBase256Value,hp,memoryByte,List.range,List.range.loop,overwrite,Field.zero,zeros,
        Field.fit,List.replicate]
  have hbyte (k : ℕ) : (UInt8.ofNat k).toNat = k % 256 := by simp
  have hflag : (128 : UInt8).toNat = 128 := rfl
  have hzero : (0 : UInt8).toNat = 0 := rfl
  rw [hbytes,readSize,if_pos (by rw [hflag])]
  simp only [List.foldl_cons,List.foldl_nil,hbyte,hflag,hzero]
  omega

section
variable (p : Process) (block : BHeaderBlock) (header : BHeader)

theorem encodeBlock_valid : (bHeaderEncodeBlock p block header).valid = true :=
  valid_encodeChecksum _

@[simp] theorem encodeBlock_linktype : (bHeaderEncodeBlock p block header).linktype =
    header.linktype := rfl

theorem encodeBlock_size (h : header.size < 2^64) :
    readSize (bHeaderEncodeBlock p .zero header).size.bytes = header.size := by
  change readSize (if bHeaderMaxFileSize ≤ header.size then
    encodeBase256Value p (.zero 12) header.size
    else (Field.zero 12).snprintf 12 (numeral 8 11 header.size)).bytes = _
  split
  · exact readSize_base256 p h
  · rename_i hsmall
    exact readSize_octal _ (by unfold bHeaderMaxFileSize at hsmall; omega)

theorem encodeBlock_name (hpre : 0 ∉ header.pathPrefix) (hplen : header.pathPrefix.length ≤ 155)
    (hsuf : 0 ∉ header.suffix) (hslen : header.suffix.length ≤ 100) :
    (bHeaderEncodeBlock p block header).name = if header.pathPrefix = [] then header.suffix
      else header.pathPrefix ++ [slash] ++ header.suffix := by
  change (if cstr (Field.strncpy 155 header.pathPrefix).bytes = [] then
    cstr (Field.strncpy 100 header.suffix).bytes
    else cstr (Field.strncpy 155 header.pathPrefix).bytes ++ [slash] ++
      cstr (Field.strncpy 100 header.suffix).bytes) = _
  rw [Field.cstr_strncpy _ hpre hplen,Field.cstr_strncpy _ hsuf hslen]

theorem encodeBlock_linkdest (h : ∀ dest ∈ header.linkdest, 0 ∉ dest ∧ dest.length ≤ 100) :
    cstr (bHeaderEncodeBlock p .zero header).linkdest.bytes = header.linkdest.getD [] := by
  change cstr ((header.linkdest.map (Field.strncpy 100)).getD (.zero 100)).bytes = _
  cases hd : header.linkdest with
  | none => rfl
  | some dest =>
    obtain ⟨hnul,hlen⟩ := h dest hd
    exact Field.cstr_strncpy dest hnul hlen

end

section
variable (block : BHeaderBlock) (path : Bytes) (type : UInt8)

theorem longlinkBlock_valid : (bHeaderEncodeLonglinkBlock block path type).valid = true :=
  valid_encodeChecksum _

@[simp] theorem longlinkBlock_linktype :
    (bHeaderEncodeLonglinkBlock block path type).linktype = type := rfl

theorem longlinkBlock_size :
    readSize (bHeaderEncodeLonglinkBlock block path type).size.bytes = unsignedInt path.length :=
  readSize_octal block.size (by unfold unsignedInt; omega)

end

section
variable (p : Process) (block : BHeaderBlock) (header : BHeader) (path : Bytes)

theorem paxBlock_valid : (bHeaderEncodePaxBlock p block header path).valid = true :=
  valid_encodeChecksum _

@[simp] theorem paxBlock_linktype :
    (bHeaderEncodePaxBlock p block header path).linktype = bHeaderPaxType := rfl

theorem paxBlock_size (h : paxSize path header.linkdest < 8^11) :
    readSize (bHeaderEncodePaxBlock p block header path).size.bytes =
    paxSize path header.linkdest :=
  readSize_octal _ h

end

end ArchiveTarBuilder
