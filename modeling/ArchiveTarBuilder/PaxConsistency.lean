import ArchiveTarBuilder.MemberStream

/-! Pax records against their own lengths: the header's size field, the length that each record
states and the bytes in the data blocks come from separate computations that agree. -/
namespace ArchiveTarBuilder
open Region CString Output Numeral

/-- `len` is the length of a record `"len key=value\n"` with its own digits counted in. -/
def SelfLength (key value : Bytes) (len : ℕ) : Prop :=
  len = decimals len+1+key.length+1+value.length+1

/-- A record that an `int` can count. -/
def ShortRecord (key value : Bytes) : Prop := ∃ len < 2^31, SelfLength key value len

theorem shortRecord_iff {key value : Bytes} (hnul : 0 ∉ value) (hkey : key.length ≤ 8) :
    ShortRecord key value ↔ bHeaderComputePaxLength value key ≠ 2^64-1 := by
  constructor
  · rintro ⟨len,hlen,hself⟩
    unfold SelfLength at hself
    have hmono := decimals_mono (m := value.length) (n := len) (by omega)
    obtain ⟨x,hx,heq,-⟩ := @paxRound_fixed value.length (key.length+value.length+3) (by omega)
      (by omega) (by omega) (by omega)
    rw [computePaxLength_eq hnul,heq]
    omega
  · intro hlen
    obtain ⟨hlt,hself⟩ := computePaxLength_fixed hnul hkey hlen
    rw [paxRecord_length _ key value hnul,formatD_of_lt hlt] at hself
    refine ⟨_,hlt,?_⟩
    rw [SelfLength,decimals]
    omega

theorem computePaxLength_self {key value : Bytes} (hnul : 0 ∉ value) (hkey : key.length ≤ 8)
    (h : ShortRecord key value) : bHeaderComputePaxLength value key < 2^31 ∧
      SelfLength key value (bHeaderComputePaxLength value key) := by
  obtain ⟨hlt,hself⟩ := computePaxLength_fixed hnul hkey ((shortRecord_iff hnul hkey).mp h)
  rw [paxRecord_length _ key value hnul,formatD_of_lt hlt] at hself
  refine ⟨hlt,?_⟩
  rw [SelfLength,decimals]
  omega

def recordsLength (path : Bytes) (linkdest : Option Bytes) : ℕ :=
  bHeaderComputePaxLength path pathKey +
    (linkdest.map (bHeaderComputePaxLength · linkpathKey)).getD 0

section
variable {path : Bytes} {linkdest : Option Bytes} (hnul : 0 ∉ path)
  (hdnul : ∀ dest ∈ linkdest, 0 ∉ dest) (hfits : ShortRecord pathKey path)
  (hdfits : ∀ dest ∈ linkdest, ShortRecord linkpathKey dest)
include hnul hdnul hfits hdfits

theorem recordsLength_lt : recordsLength path linkdest < 2^32 := by
  have hpath := (computePaxLength_self hnul (by decide) hfits).1
  cases linkdest with
  | none => simpa [recordsLength] using hpath.trans (by omega)
  | some dest =>
    have hdest := (computePaxLength_self (hdnul dest rfl) (by decide) (hdfits dest rfl)).1
    simp only [recordsLength,Option.map_some,Option.getD_some]
    omega

theorem paxSize_eq : paxSize path linkdest = recordsLength path linkdest :=
  Nat.mod_eq_of_lt ((recordsLength_lt hnul hdnul hfits hdfits).trans (by omega))

theorem paxText_consistent : (paxText path linkdest).length = recordsLength path linkdest ∧
    paxRecords ((paxText path linkdest).length+1) (paxText path linkdest) =
      some (wantedRecords path linkdest) := by
  obtain ⟨hlen,-,hread⟩ := @paxText_records path linkdest hnul
    ((shortRecord_iff hnul (by decide)).mp hfits) fun dest hd =>
      ⟨hdnul dest hd,(shortRecord_iff (hdnul dest hd) (by decide)).mp (hdfits dest hd)⟩
  exact ⟨hlen.trans (paxSize_eq hnul hdnul hfits hdfits),hread⟩

end

/-- When the link target's record cannot be counted, the path's is written without its newline, and
no record is read back. -/
theorem paxText_overflow {path dest : Bytes} (hnul : 0 ∉ path)
    (hpath : bHeaderComputePaxLength path pathKey ≠ 2^64-1)
    (hdest : bHeaderComputePaxLength dest linkpathKey = 2^64-1) (fuel : ℕ) :
    (paxText path (some dest)).length = paxSize path (some dest) ∧
      paxRecords fuel (paxText path (some dest)) = none := by
  obtain ⟨hlt,hself⟩ := computePaxLength_fixed hnul (by decide) hpath
  have hlong := paxRecord_length (bHeaderComputePaxLength path pathKey) pathKey path hnul
  have hrecord := paxRecord_eq hlt pathKey hnul
  rw [formatD_of_lt hlt] at hlong
  have hsize : paxSize path (some dest) = bHeaderComputePaxLength path pathKey-1 := by
    simp only [paxSize,Option.map_some,Option.getD_some,sizeT,hdest]
    omega
  have htext : paxText path (some dest) =
      (paxRecord (bHeaderComputePaxLength path pathKey) pathKey path).take
        (bHeaderComputePaxLength path pathKey-1) := by
    simp only [paxText,hsize,hdest,Nat.sub_add_cancel (by norm_num : 1 ≤ 2^64),lt_irrefl,if_false,
      List.take_zero,overwrite,List.length_nil,Nat.add_zero,List.append_nil,List.take_append_drop]
  have hlen : (paxText path (some dest)).length = bHeaderComputePaxLength path pathKey-1 := by
    rw [htext,List.length_take,hself]
    omega
  refine ⟨hlen.trans hsize.symm,?_⟩
  cases fuel with
  | zero => rfl
  | succ fuel =>
    have hne : paxText path (some dest) ≠ [] := by
      intro he
      rw [he,List.length_nil] at hlen
      omega
    generalize bHeaderComputePaxLength path pathKey = len at *
    -- the number is all there, and states one byte more than there is
    have hdigits : (paxText path (some dest)).takeWhile (isDigit 10) = numeral 10 1 len := by
      rw [htext,hrecord,List.take_append,List.take_of_length_le (by omega)]
      refine takeWhile_numeral (by omega) (by omega) 1 len _ fun c hc => ?_
      obtain ⟨k,hk⟩ : ∃ k, len-1-(numeral 10 1 len).length = k+1 :=
        ⟨len-1-(numeral 10 1 len).length-1,by omega⟩
      rw [hk,List.take_succ_cons,List.head?_cons,Option.mem_some_iff] at hc
      subst hc
      decide
    have hvalue := value_numeral (b := 10) (by omega) (by omega) 1 len
    rw [paxRecords,if_neg hne,nextPaxRecord,hdigits,hvalue]
    simp only [hlen]
    rw [if_pos (Or.inr (Or.inl (by omega)))]

/-- The blocks behind a pax header: cut to its size field they are the records asked for, and zeros
follow. -/
structure PaxBlocks (path : Bytes) (linkdest : Option Bytes) (size : ℕ) (data : Bytes) : Prop where
  blocks : data.length = paddedSize size
  records : paxRecords ((data.take size).length+1) (data.take size) =
    some (wantedRecords path linkdest)
  rest : data.drop size = zeros (paddedSize size-size)

theorem bFileWritePaxPathBlocks_ready {o : Output} (h : o.Ready) {path : Bytes}
    {linkdest : Option Bytes} (hpath : bHeaderComputePaxLength path pathKey ≠ 2^64-1) :
    ∃ o', bFileWritePaxPathBlocks o path linkdest =
        (some (paddedSize (paxText path linkdest).length),o') ∧
      Extends o o' (pad512 (paxText path linkdest)) := by
  obtain ⟨o',hloop,hext⟩ := blocksLoop_ready (paxText path linkdest).length (paxText path linkdest) 0
    h le_rfl
  refine ⟨o',?_,hext⟩
  rw [bFileWritePaxPathBlocks,if_neg hpath,hloop,Nat.zero_add]

theorem paxBlocks_pad512 {path : Bytes} {linkdest : Option Bytes} {text : Bytes}
    (hread : paxRecords (text.length+1) text = some (wantedRecords path linkdest)) :
    PaxBlocks path linkdest text.length (pad512 text) := by
  rw [pad512_eq]
  have hle : text.length ≤ paddedSize text.length := le_roundUp 512 text.length
  have htake : (text ++ zeros (paddedSize text.length-text.length)).take text.length = text :=
    List.take_left' rfl
  refine ⟨?_,?_,List.drop_left' rfl⟩
  · simp only [List.length_append,zeros_length]
    omega
  · rw [htake]
    exact hread

/-- The lengths, the size field and the data of the pax records of a name and a link target agree,
for every pair of strings, every header and every state of the buffer. -/
theorem pax_consistent {path : Bytes} {linkdest : Option Bytes} (hnul : 0 ∉ path)
    (hdnul : ∀ dest ∈ linkdest, 0 ∉ dest) (hfits : ShortRecord pathKey path)
    (hdfits : ∀ dest ∈ linkdest, ShortRecord linkpathKey dest) :
    SelfLength pathKey path (bHeaderComputePaxLength path pathKey) ∧
    (∀ dest ∈ linkdest, SelfLength linkpathKey dest (bHeaderComputePaxLength dest linkpathKey)) ∧
    (∀ (p : Process) (block : BHeaderBlock) (header : BHeader), header.linkdest = linkdest →
      readSize (bHeaderEncodePaxBlock p block header path).size.bytes =
        recordsLength path linkdest) ∧
    ∀ o : Output, o.Ready → ∃ n o' data, bFileWritePaxPathBlocks o path linkdest = (some n,o') ∧
      o'.Ready ∧ o'.stream = o.stream ++ data ∧
      PaxBlocks path linkdest (recordsLength path linkdest) data := by
  have hlt := recordsLength_lt hnul hdnul hfits hdfits
  have hsize := paxSize_eq hnul hdnul hfits hdfits
  obtain ⟨hlen,hread⟩ := paxText_consistent hnul hdnul hfits hdfits
  refine ⟨(computePaxLength_self hnul (by decide) hfits).2,fun dest hd =>
    (computePaxLength_self (hdnul dest hd) (by decide) (hdfits dest hd)).2,?_,fun o ho => ?_⟩
  · rintro p block header rfl
    rw [paxBlock_size p block header path (by rw [hsize]; omega),hsize]
  · obtain ⟨o',hwrite,hext⟩ := @bFileWritePaxPathBlocks_ready o ho path linkdest
      ((shortRecord_iff hnul (by decide)).mp hfits)
    rw [← hlen]
    exact ⟨_,o',_,hwrite,hext.ready,hext.stream,paxBlocks_pad512 hread⟩

def oddName : Bytes := [97,32,61,10,61]

theorem pax_consistent_oddName :
    SelfLength pathKey oddName (bHeaderComputePaxLength oddName pathKey) ∧
    ∀ o : Output, o.Ready → ∃ n o' data,
      bFileWritePaxPathBlocks o oddName (some oddName) = (some n,o') ∧ o'.Ready ∧
      o'.stream = o.stream ++ data ∧
      PaxBlocks oddName (some oddName) (recordsLength oddName (some oddName)) data := by
  have h := @pax_consistent oddName (some oddName) (by decide)
    (by rintro dest ⟨⟩; decide) ⟨14,by decide,by unfold SelfLength; decide +kernel⟩
    (by rintro dest ⟨⟩; exact ⟨18,by decide,by unfold SelfLength; decide +kernel⟩)
  exact ⟨h.1,h.2.2.2⟩

end ArchiveTarBuilder
