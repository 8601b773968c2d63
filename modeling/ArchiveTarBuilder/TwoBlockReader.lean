import ArchiveTarBuilder.MemberRead

/-! A reader that ends at two zero blocks, one behind the other, and steps over a single one. -/
namespace ArchiveTarBuilder
open Region CString

/-- The members up to two zero blocks or the end of the input, from the extension records so far. -/
def readPast : ℕ → Option Bytes → Option Bytes → Bytes → Option (List TarMember)
  | 0, _, _, _ => none
  | fuel+1, path, linkpath, bytes =>
    if bytes = [] then some []
    else if bytes.take 512 = zeros 512 then
      if (bytes.drop 512).take 512 = zeros 512 then some []
      else readPast fuel path linkpath (bytes.drop 512)
    else
      match nextRecord bytes with
      | none => none
      | some (block,data,rest) =>
        if block.linktype = bHeaderLonglinkType then readPast fuel (some (cstr data)) linkpath rest
        else if block.linktype = bHeaderLongdestType then
          readPast fuel path (some (cstr data)) rest
        else if block.linktype = bHeaderPaxType then
          match paxRecords (data.length+1) data with
          | none => none
          | some records =>
            readPast fuel ((records.lookup pathKey).or path)
              ((records.lookup linkpathKey).or linkpath) rest
        else (readPast fuel none none rest).map (member block data path linkpath::·)

def readTar (bytes : Bytes) : Option (List TarMember) := readPast (bytes.length+1) none none bytes

def ReadsPast (path linkpath : Option Bytes) (bytes : Bytes) (members : List TarMember) : Prop :=
  ∀ fuel, bytes.length < fuel → readPast fuel path linkpath bytes = some members

theorem ReadsPast.readTar {bytes : Bytes} {members : List TarMember}
    (h : ReadsPast none none bytes members) : ArchiveTarBuilder.readTar bytes = some members :=
  h _ (by omega)

theorem readsPast_nil (path linkpath : Option Bytes) : ReadsPast path linkpath [] [] := by
  intro fuel hfuel
  obtain ⟨fuel,rfl⟩ : ∃ k, fuel = k+1 := ⟨fuel-1,by simp at hfuel; omega⟩
  simp [readPast]

theorem zeros_add (m n : ℕ) : zeros (m+n) = zeros m ++ zeros n := List.replicate_add m n 0

theorem zeros_append_ne_nil {n : ℕ} (hn : 0 < n) (rest : Bytes) : zeros n ++ rest ≠ [] := by
  intro hnil
  have hlen := congrArg List.length hnil
  rw [List.length_append,zeros_length,List.length_nil] at hlen
  omega

theorem readsPast_end {n : ℕ} (hn : 1024 ≤ n) (rest : Bytes) :
    ReadsPast none none (zeros n ++ rest) [] := by
  intro fuel hfuel
  obtain ⟨fuel,rfl⟩ : ∃ k, fuel = k+1 := ⟨fuel-1,by omega⟩
  have hzeros : zeros n = zeros 512 ++ (zeros 512 ++ zeros (n-1024)) := by
    rw [← zeros_add,← zeros_add,show 512+(512+(n-1024)) = n by omega]
  have hlen : (zeros 512).length = 512 := zeros_length _
  rw [readPast,if_neg (zeros_append_ne_nil (by omega) rest),hzeros,List.append_assoc,
    List.append_assoc,
    List.take_left' hlen,if_pos rfl,List.drop_left' hlen,List.take_left' hlen,if_pos rfl]

theorem ReadsPast.lone {path linkpath : Option Bytes} {rest : Bytes} {members : List TarMember}
    (h : ReadsPast path linkpath rest members) (hrest : rest.take 512 ≠ zeros 512) :
    ReadsPast path linkpath (zeros 512 ++ rest) members := by
  intro fuel hfuel
  have hlen : (zeros 512).length = 512 := zeros_length _
  rw [List.length_append,hlen] at hfuel
  obtain ⟨fuel,rfl⟩ : ∃ k, fuel = k+1 := ⟨fuel-1,by omega⟩
  rw [readPast,if_neg (zeros_append_ne_nil (by omega) rest),List.take_left' hlen,if_pos rfl,
    List.drop_left' hlen,
    if_neg hrest]
  exact h fuel (by omega)

theorem readPast_record {block : BHeaderBlock} {data : Bytes} (hvalid : block.valid = true)
    (hdata : block.dataSize = data.length) (fuel : ℕ) (path linkpath : Option Bytes) (rest : Bytes) :
    readPast (fuel+1) path linkpath (block.toBytes ++ pad512 data ++ rest) =
      if block.linktype = bHeaderLonglinkType then readPast fuel (some (cstr data)) linkpath rest
      else if block.linktype = bHeaderLongdestType then
        readPast fuel path (some (cstr data)) rest
      else if block.linktype = bHeaderPaxType then
        match paxRecords (data.length+1) data with
        | none => none
        | some records =>
          readPast fuel ((records.lookup pathKey).or path)
            ((records.lookup linkpathKey).or linkpath) rest
      else (readPast fuel none none rest).map (member block data path linkpath::·) := by
  have htake : (block.toBytes ++ pad512 data ++ rest).take 512 = block.toBytes := by
    rw [List.append_assoc,List.take_left' (by simp)]
  have hne : block.toBytes ++ pad512 data ++ rest ≠ [] := by
    intro hnil
    have hlen := congrArg List.length hnil
    simp at hlen
  rw [readPast,if_neg hne,if_neg (by rw [htake]; exact toBytes_ne_zeros hvalid),
    nextRecord_append hvalid hdata]

inductive MemberBlocks : TarMember → Bytes → Prop
  | mk {path linkpath : Option Bytes} {records : Bytes} {block : BHeaderBlock} {data : Bytes}
      (recorded : Recorded path linkpath records) (valid : block.valid = true)
      (size : block.dataSize = data.length)
      (type : block.linktype ∉ [bHeaderLonglinkType,bHeaderLongdestType,bHeaderPaxType]) :
      MemberBlocks (member block data path linkpath) (records ++ (block.toBytes ++ pad512 data))

theorem header_take_ne_zeros {block : BHeaderBlock} (hvalid : block.valid = true) (rest : Bytes) :
    (block.toBytes ++ rest).take 512 ≠ zeros 512 := by
  rw [List.take_left' (by simp)]
  exact toBytes_ne_zeros hvalid

theorem MemberBlocks.take_ne_zeros {m : TarMember} {bytes : Bytes} (h : MemberBlocks m bytes)
    (rest : Bytes) : (bytes ++ rest).take 512 ≠ zeros 512 := by
  cases h with
  | mk recorded valid size type =>
    cases recorded with
    | nothing =>
      rw [List.nil_append,List.append_assoc]
      exact header_take_ne_zeros valid _
    | longlink valid' size' type' =>
      simp only [List.append_assoc]
      exact header_take_ne_zeros valid' _
    | longdest valid' size' type' =>
      simp only [List.append_assoc]
      exact header_take_ne_zeros valid' _
    | pax valid' size' type' read =>
      simp only [List.append_assoc]
      exact header_take_ne_zeros valid' _

theorem ReadsPast.member {block : BHeaderBlock} {data rest : Bytes} {path linkpath : Option Bytes}
    {members : List TarMember} (hvalid : block.valid = true) (hdata : block.dataSize = data.length)
    (htype : block.linktype ∉ [bHeaderLonglinkType,bHeaderLongdestType,bHeaderPaxType])
    (h : ReadsPast none none rest members) :
    ReadsPast path linkpath (block.toBytes ++ pad512 data ++ rest)
      (ArchiveTarBuilder.member block data path linkpath::members) := by
  intro fuel hfuel
  obtain ⟨k,rfl,hk⟩ := record_fuel hfuel
  simp only [List.mem_cons,List.not_mem_nil,or_false,not_or] at htype
  rw [readPast_record hvalid hdata,if_neg htype.1,if_neg htype.2.1,if_neg htype.2.2,h k hk]
  rfl

theorem Recorded.readsPast {path linkpath : Option Bytes} {bytes rest : Bytes}
    {members : List TarMember} (h : Recorded path linkpath bytes)
    (hrest : ReadsPast path linkpath rest members) : ReadsPast none none (bytes ++ rest) members := by
  intro fuel hfuel
  cases h with
  | nothing => exact hrest fuel hfuel
  | longlink valid size type =>
    obtain ⟨k,rfl,hk⟩ := record_fuel hfuel
    rw [readPast_record valid size,if_pos type]
    exact hrest k hk
  | longdest valid size type =>
    obtain ⟨k,rfl,hk⟩ := record_fuel hfuel
    rw [readPast_record valid size,if_neg (by rw [type]; decide),if_pos type]
    exact hrest k hk
  | pax valid size type read =>
    obtain ⟨k,rfl,hk⟩ := record_fuel hfuel
    rw [readPast_record valid size,if_neg (by rw [type]; decide),if_neg (by rw [type]; decide),
      if_pos type,read]
    simpa using hrest k hk

theorem MemberBlocks.readsPast {m : TarMember} {bytes rest : Bytes} {members : List TarMember}
    (h : MemberBlocks m bytes) (hrest : ReadsPast none none rest members) :
    ReadsPast none none (bytes ++ rest) (m::members) := by
  cases h with
  | mk recorded valid size type =>
    rw [List.append_assoc]
    exact recorded.readsPast (ReadsPast.member valid size type hrest)

theorem readsPast_members {ms : List TarMember} {blocks : List Bytes} {rest : Bytes}
    {members : List TarMember} (h : List.Forall₂ MemberBlocks ms blocks)
    (hrest : ReadsPast none none rest members) :
    ReadsPast none none (blocks.flatten ++ rest) (ms ++ members) := by
  induction h with
  | nil => exact hrest
  | cons hm _ ih =>
    rw [List.flatten_cons,List.append_assoc]
    exact hm.readsPast ih

end ArchiveTarBuilder
