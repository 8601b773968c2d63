import ArchiveTarBuilder.ContentStream

/-! The clients of the buffer and what reaches the descriptor: the items they write, padded to
whole blocks, whatever the size of the buffer. -/
namespace ArchiveTarBuilder
open Region CString Output

/-- One write of a client. A header block is filled as soon as it is handed out. -/
inductive StreamWrite
  | header (block : Field 512)
  | pathBlocks (path : Bytes)
  | paxBlocks (path : Bytes) (linkdest : Option Bytes)
  | contents (file : File) (size : ℕ)

namespace StreamWrite

def item : StreamWrite → Bytes
  | .header block => block.bytes
  | .pathBlocks path => path
  | .paxBlocks path linkdest =>
    if bHeaderComputePaxLength path pathKey = 2^64-1 then [] else paxText path linkdest
  | .contents file size => file.contents.take size

/-- The output behind a write; `none` for contents that are not written successfully. -/
def perform (o : Output) : StreamWrite → Option Output
  | .header block =>
    match bBufferGetBlock o bHeaderSize with
    | (none,o) => some o
    | (some (off,_),o) => some (o.store off block.bytes)
  | .pathBlocks path => some (bFileWritePathBlocks o path).2
  | .paxBlocks path linkdest => some (bFileWritePaxPathBlocks o path linkdest).2
  | .contents file size =>
    match bFileWriteContents o file size with
    | (none,_) => none
    | (some _,o) => some o

theorem perform_extends {o o' : Output} (h : o.Ready) (hplain : o.buf.canSplice = false)
    (w : StreamWrite) (hw : w.perform o = some o') : Extends o o' (pad512 w.item) := by
  cases w with
  | header block =>
    obtain ⟨off,p,hget,hg,-⟩ := h.getBlankBlock
    have hheader : bBufferGetBlock o bHeaderSize = (some (off,512),p) := hget
    obtain rfl : p.store off block.bytes = o' := by simpa [perform,hheader] using hw
    have hext := hg.extends block.bytes (by simp) (dvd_refl 512)
    have hpad : pad512 block.bytes = block.bytes ++ zeros (512-block.bytes.length) := by
      simp [pad512,padTo,zeros]
    rw [item,hpad]
    exact hext
  | pathBlocks path =>
    obtain ⟨p,hloop,hext⟩ := blocksLoop_ready path.length path 0 h le_rfl
    obtain rfl : p = o' := by simpa [perform,bFileWritePathBlocks,hloop] using hw
    exact hext
  | paxBlocks path linkdest =>
    by_cases hlen : bHeaderComputePaxLength path pathKey = 2^64-1
    · obtain rfl : o = o' := by simpa [perform,bFileWritePaxPathBlocks,hlen] using hw
      simpa [item,hlen] using Extends.refl h
    · obtain ⟨p,hloop,hext⟩ := blocksLoop_ready (paxText path linkdest).length
        (paxText path linkdest) 0 h le_rfl
      obtain rfl : p = o' := by
        simpa only [perform,bFileWritePaxPathBlocks,hlen,if_false,hloop,Option.some.injEq] using hw
      simpa only [item,hlen,if_false] using hext
  | contents file size =>
    have hreads := bFileWriteContents_reads h file size (Or.inl hplain)
    split at hreads
    · obtain ⟨p,hcontents,hready,hstream,-,hframe⟩ := hreads
      obtain rfl : p = o' := by simpa [perform,hcontents] using hw
      exact ⟨hready,hstream,hframe⟩
    · obtain ⟨p,k,hcontents,-⟩ := hreads
      simp [perform,hcontents] at hw

def performAll (ws : List StreamWrite) (o : Output) : Option Output := ws.foldlM perform o

def items (ws : List StreamWrite) : Bytes := (ws.map fun w => pad512 w.item).flatten

theorem performAll_extends (ws : List StreamWrite) {o o' : Output} (h : o.Ready)
    (hplain : o.buf.canSplice = false) (hw : performAll ws o = some o') :
    Extends o o' (items ws) := by
  induction ws generalizing o with
  | nil =>
    obtain rfl : o = o' := by simpa [performAll] using hw
    simpa [items] using Extends.refl h
  | cons w ws ih =>
    obtain ⟨p,hp,hrest⟩ : ∃ p, w.perform o = some p ∧ performAll ws p = some o' := by
      simpa [performAll,List.foldlM_cons,Option.bind_eq_some_iff] using hw
    have hfirst := perform_extends h hplain w hp
    exact hfirst.trans (ih hfirst.ready (hfirst.frame.canSplice.trans hplain) hrest)

theorem performAll_prefix {ws vs : List StreamWrite} (hpre : vs <+: ws) {o o' : Output}
    (hw : performAll ws o = some o') : ∃ p, performAll vs o = some p := by
  obtain ⟨rest,rfl⟩ := hpre
  rw [performAll,List.foldlM_append] at hw
  obtain ⟨p,hp,-⟩ := Option.bind_eq_some_iff.mp hw
  exact ⟨p,hp⟩

end StreamWrite

open StreamWrite

/-- `b_buffer_flush` at the end: all that was used, and zeros up to a whole buffer. -/
theorem flush_delivers {o o' : Output} (h : o'.Ready) (hframe : Frame o o')
    (hstart : o.sys.accepted = []) :
    ∃ k < o.buf.size, (bBufferFlush o').2.sys.accepted = o'.stream ++ zeros k ∧
      o.buf.size ∣ o'.stream.length+k := by
  obtain ⟨ret,sys',hflush,hret,hacc,-⟩ := h.flush
  obtain ⟨j,hj,-⟩ := hframe.whole
  have hpos := h.pos
  have hle := h.unused_le
  have hlen := h.length
  have hsize := hframe.size
  have htake : (o'.buf.data.take o'.used).length = o'.used := by
    rw [List.length_take,used]; omega
  rw [hflush]
  by_cases hempty : o'.buf.unused = o'.buf.size
  · rw [if_pos hempty,List.append_nil] at hacc
    refine ⟨0,by omega,by simp [hacc,stream,used,hempty,zeros],?_⟩
    simp only [stream,used,hempty,Nat.sub_self,List.take_zero,List.append_nil,hj,hstart]
    exact ⟨j,by simp [Nat.mul_comm]⟩
  · rw [if_neg hempty] at hacc
    refine ⟨o'.buf.unused,by omega,?_,?_⟩
    · have hdrop := h.blank.drop_eq
      have htail : o'.buf.data.length-o'.used = o'.buf.unused := by rw [used]; omega
      rw [htail] at hdrop
      rw [hacc,stream,List.append_assoc,zeros,← hdrop,List.take_append_drop]
    · rw [stream,List.length_append,htake,hj,hstart]
      refine ⟨j+1,?_⟩
      simp only [List.length_nil,used,Nat.mul_add,Nat.mul_one,Nat.zero_add]
      rw [Nat.mul_comm j]
      omega

/-- An output descriptor that is not spliced, whose writes make progress and that has not got
anything yet. -/
structure PlainHandle where
  fd : ℤ
  fifo : Bool
  release : Option (ℕ × ℕ × ℕ)
  sys : Sys
  fresh : sys.accepted = []
  given : fd ≠ 0
  reliable : sys.Reliable
  plain : (bBufferSetFd (bBufferNew 1) fd fifo release).canSplice = false

def PlainHandle.output (handle : PlainHandle) (factor : ℕ) : Output :=
  opened factor handle.fd handle.fifo handle.release handle.sys

/-- The descriptor got `bytes` and zeros up to a whole buffer. -/
def DeliveredWith (factor : ℕ) (delivered bytes : Bytes) : Prop :=
  ∃ k < 512*factor, delivered = bytes ++ zeros k ∧ 512*factor ∣ bytes.length+k

theorem performAll_delivers {factor : ℕ} (hf : 1 ≤ factor) (hbig : 512*factor < 2^63)
    (handle : PlainHandle) (ws : List StreamWrite) {o : Output}
    (hw : performAll ws (handle.output factor) = some o) :
    DeliveredWith factor (bBufferFlush o).2.sys.accepted (items ws) ∧
      ∀ vs, vs <+: ws → ∃ p, performAll vs (handle.output factor) = some p ∧ p.Clean := by
  have hready : (handle.output factor).Ready :=
    ready_opened hf hbig handle.given handle.fifo handle.release handle.reliable
  have hplain : (handle.output factor).buf.canSplice = false := handle.plain
  have hsize := opened_size hf hbig handle.fd handle.fifo handle.release handle.sys
  constructor
  · have hext := performAll_extends ws hready hplain hw
    obtain ⟨k,hk,hflush,hdvd⟩ := flush_delivers hext.ready hext.frame handle.fresh
    have hstream : o.stream = items ws := by
      rw [hext.stream,PlainHandle.output,stream_opened,handle.fresh,List.nil_append]
    rw [PlainHandle.output,hsize] at hk hdvd
    exact ⟨k,hk,by rw [hflush,hstream],by rwa [hstream] at hdvd⟩
  · intro vs hpre
    obtain ⟨p,hp⟩ := performAll_prefix hpre hw
    exact ⟨p,hp,(performAll_extends vs hready hplain hp).ready.toClean⟩

/-- Two buffers of any sizes deliver the same items, each run with its own zeros at the end, and
both buffers are clean at every step. -/
theorem buffering_invisible {factor₁ factor₂ : ℕ} (hf₁ : 1 ≤ factor₁) (hf₂ : 1 ≤ factor₂)
    (hbig₁ : 512*factor₁ < 2^63) (hbig₂ : 512*factor₂ < 2^63) (handle₁ handle₂ : PlainHandle)
    {ws₁ ws₂ : List StreamWrite} (hitems : ws₁.map item = ws₂.map item) {o₁ o₂ : Output}
    (hw₁ : performAll ws₁ (handle₁.output factor₁) = some o₁)
    (hw₂ : performAll ws₂ (handle₂.output factor₂) = some o₂) :
    ∃ bytes, bytes = (ws₁.map fun w => pad512 w.item).flatten ∧
      DeliveredWith factor₁ (bBufferFlush o₁).2.sys.accepted bytes ∧
      DeliveredWith factor₂ (bBufferFlush o₂).2.sys.accepted bytes ∧
      (∀ vs, vs <+: ws₁ → ∃ p, performAll vs (handle₁.output factor₁) = some p ∧ p.Clean) ∧
      (∀ vs, vs <+: ws₂ → ∃ p, performAll vs (handle₂.output factor₂) = some p ∧ p.Clean) := by
  obtain ⟨hd₁,hc₁⟩ := performAll_delivers hf₁ hbig₁ handle₁ ws₁ hw₁
  obtain ⟨hd₂,hc₂⟩ := performAll_delivers hf₂ hbig₂ handle₂ ws₂ hw₂
  have hsame : items ws₂ = items ws₁ := by
    have hmap (ws : List StreamWrite) : items ws = ((ws.map item).map pad512).flatten := by
      rw [items,List.map_map]; rfl
    rw [hmap,hmap,hitems]
  rw [hsame] at hd₂
  exact ⟨items ws₁,rfl,hd₁,hd₂,hc₁,hc₂⟩

def sampleWrites (reads : List ReadAnswer) : List StreamWrite :=
  [.pathBlocks (List.replicate 700 97),.contents ⟨List.replicate 1500 1,reads⟩ 1500,
    .paxBlocks (List.replicate 300 98) none]

theorem progress_nil : ∀ w ∈ ([] : List WriteAnswer), w.Progress := by simp

def sampleHandle (writes : List WriteAnswer) (h : ∀ w ∈ writes, w.Progress) : PlainHandle :=
  ⟨5,false,none,⟨[],writes,[],.ok⟩,rfl,by decide,h,rfl⟩

theorem buffering_invisible_sample :
    ∃ o₁ o₂,
      performAll (sampleWrites []) ((sampleHandle [.accept 99] (by decide)).output 1) = some o₁ ∧
      performAll (sampleWrites [.fail .eintr]) ((sampleHandle [] (by decide)).output 3) = some o₂ ∧
      ∃ bytes, DeliveredWith 1 (bBufferFlush o₁).2.sys.accepted bytes ∧
        DeliveredWith 3 (bBufferFlush o₂).2.sys.accepted bytes := by
  have hw₁ : (performAll (sampleWrites [])
      ((sampleHandle [.accept 99] (by decide)).output 1)).isSome := by decide +kernel
  have hw₂ : (performAll (sampleWrites [.fail .eintr])
      ((sampleHandle [] (by decide)).output 3)).isSome := by decide +kernel
  obtain ⟨bytes,-,hd₁,hd₂,-⟩ := buffering_invisible (by decide) (by decide) (by decide) (by decide)
    (sampleHandle [.accept 99] (by decide)) (sampleHandle [] (by decide))
    (by rfl : (sampleWrites []).map item = (sampleWrites [.fail .eintr]).map item)
    (Option.some_get hw₁).symm (Option.some_get hw₂).symm
  exact ⟨_,_,(Option.some_get hw₁).symm,(Option.some_get hw₂).symm,bytes,hd₁,hd₂⟩

end ArchiveTarBuilder
