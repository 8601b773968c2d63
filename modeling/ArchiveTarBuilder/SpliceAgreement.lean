import ArchiveTarBuilder.SpliceStream

/-! The splice path against the plain path on one file, for a descriptor that takes everything. -/
namespace ArchiveTarBuilder
open Region CString Output

theorem readFile_plain (contents : Bytes) (len : ℕ) : readFile ⟨contents,[]⟩ len =
    (((contents.take len).length : ℤ),contents.take len,⟨contents.drop len,[]⟩) := rfl

/-- Reads that are never cut short or interrupted fail only at the end of the file. -/
theorem readAll_plain {size : ℕ} (hsize : 0 < size) (fuel free left : ℕ) (contents : Bytes)
    (hfuel : left < fuel) :
    (left ≤ contents.length →
      readAll size fuel free left ⟨contents,[]⟩ = .ok ⟨contents.drop left,[]⟩) ∧
    (contents.length < left → ∃ p, readAll size fuel free left ⟨contents,[]⟩ = .error p) := by
  induction fuel generalizing free left contents with
  | zero => omega
  | succ fuel ih =>
    by_cases hzero : left = 0
    · simp [readAll,hzero]
    · have hchunk : 0 < maxChunkSize := by decide
      generalize hroom : (if free = 0 then size else free) = room
      have hrpos : 0 < room := by rw [← hroom]; split <;> omega
      generalize hrequest : min (min left maxChunkSize) room = request
      obtain ⟨hwhole,hshort⟩ := ih (room-paddedSize request) (left-request) (contents.drop request)
        (by omega)
      have hunfold : readAll size (fuel+1) free left ⟨contents,[]⟩ =
          if ((contents.take request).length : ℤ) < request then .error (0,room)
          else (readAll size fuel (room-paddedSize request) (left-request)
            ⟨contents.drop request,[]⟩).mapError fun p => (request+p.1,p.2) := by
        simp only [readAll,hzero,if_false,hroom,hrequest,readFile_plain]
      rw [hunfold]
      constructor
      · intro hle
        have hread : ¬((contents.take request).length : ℤ) < request := by
          rw [List.length_take]; omega
        rw [if_neg hread,hwhole (by rw [List.length_drop]; omega)]
        simp only [Except.mapError,List.drop_drop]
        congr 3
        omega
      · intro hlt
        by_cases hread : ((contents.take request).length : ℤ) < request
        · exact ⟨_,if_pos hread⟩
        · rw [List.length_take] at hread
          obtain ⟨p,hp⟩ := hshort (by rw [List.length_drop]; omega)
          rw [if_neg (by rw [List.length_take]; exact hread),hp]
          exact ⟨_,rfl⟩

theorem reading_plain {size : ℕ} (hsize : 0 < size) (free left : ℕ) (contents : Bytes) :
    (left ≤ contents.length →
      reading size free left ⟨contents,[]⟩ = .ok ⟨contents.drop left,[]⟩) ∧
    (contents.length < left → ∃ p, reading size free left ⟨contents,[]⟩ = .error p) :=
  readAll_plain hsize (left+1) free left contents (by omega)

def Output.plain (o : Output) : Output := { o with buf := { o.buf with canSplice := false } }

theorem Output.Ready.plain {o : Output} (h : o.Ready) : o.plain.Ready :=
  ⟨⟨⟨h.handle,h.pos,h.block,h.unusedBlock,h.unused_le,h.length⟩,h.blank⟩,h.reliable⟩

theorem bFileWriteContents_plain {o : Output} (h : o.Ready) (contents : Bytes) (n : ℕ)
    (hmode : o.buf.canSplice = false ∨ n ≤ o.buf.unused) :
    (n ≤ contents.length → ∃ o', bFileWriteContents o ⟨contents,[]⟩ n = (some (paddedSize n),o') ∧
      o'.stream = o.stream ++ pad512 (contents.take n)) ∧
    (contents.length < n → (bFileWriteContents o ⟨contents,[]⟩ n).1 = none) := by
  have hreads := bFileWriteContents_reads h ⟨contents,[]⟩ n hmode
  obtain ⟨hwhole,hshort⟩ := reading_plain h.pos o.buf.unused n contents
  constructor
  · intro hle
    rw [hwhole hle] at hreads
    obtain ⟨o',hw,-,hs,-⟩ := hreads
    exact ⟨o',hw,hs⟩
  · intro hlt
    obtain ⟨p,hp⟩ := hshort hlt
    rw [hp] at hreads
    obtain ⟨o',k,hw,-⟩ := hreads
    rw [hw]

/-- The two paths deliver the same bytes and return the same value, or both fail. -/
def ContentsAgree (o : Output) (file : File) (n : ℕ) : Prop :=
  let spliced := bFileWriteContents o file n
  let plain := bFileWriteContents o.plain file n
  (spliced.1 = none ∧ plain.1 = none) ∨
    (spliced.1 = plain.1 ∧ spliced.2.stream = plain.2.stream)

instance (o : Output) (file : File) (n : ℕ) : Decidable (ContentsAgree o file n) := by
  unfold ContentsAgree; infer_instance

/-- The file fits in the free part of the buffer or ends in it; or the splices move whole blocks
until all is moved or one fails; or one fails on a file that is too short anyway. -/
def SpliceHarmless (o : Output) (file : File) (n : ℕ) : Prop :=
  n ≤ o.buf.unused ∨ file.contents.length < o.buf.unused ∨
    let r := splicing (n-o.buf.unused) (file.contents.length-o.buf.unused) o.sys.splices
    match r.2 with
    | .complete => 512 ∣ r.1
    | .eof => False
    | .failed => 512 ∣ r.1 ∨ file.contents.length < n

theorem paddedSize_eq_iff {m : ℕ} : paddedSize m = m ↔ 512 ∣ m := by
  unfold paddedSize bBufferBlockSize
  split <;> omega

theorem add_paddedSize_eq_iff {m n : ℕ} (h : m < n) :
    m+paddedSize (n-m) = paddedSize n ↔ 512 ∣ m := by
  unfold paddedSize bBufferBlockSize
  split_ifs <;> omega

instance (o : Output) (file : File) (n : ℕ) : Decidable (SpliceHarmless o file n) := by
  unfold SpliceHarmless
  have hinst : Decidable (match (splicing (n-o.buf.unused) (file.contents.length-o.buf.unused)
      o.sys.splices).2 with
    | .complete => 512 ∣ (splicing (n-o.buf.unused) (file.contents.length-o.buf.unused)
        o.sys.splices).1
    | .eof => False
    | .failed => 512 ∣ (splicing (n-o.buf.unused) (file.contents.length-o.buf.unused)
        o.sys.splices).1 ∨ file.contents.length < n) := by
    split <;> infer_instance
  infer_instance

theorem pad512_take_add {bytes : Bytes} {m n : ℕ} (hm : 512 ∣ m) (hmn : m ≤ n)
    (hle : m ≤ bytes.length) :
    pad512 (bytes.take n) = bytes.take m ++ pad512 ((bytes.drop m).take (n-m)) := by
  have hlen : (bytes.take m).length = m := by rw [List.length_take,min_eq_left hle]
  have hsplit : bytes.take n = bytes.take m ++ (bytes.drop m).take (n-m) := by
    rw [← List.take_add,Nat.add_sub_cancel' hmn]
  rw [hsplit]
  exact padTo_append 0 _ (by rw [hlen]; exact hm)

section
variable {o : Output} (h : o.Ready) (contents : Bytes) {n : ℕ}
include h

theorem contentsAgree_fits (hfits : n ≤ o.buf.unused) : ContentsAgree o ⟨contents,[]⟩ n := by
  obtain ⟨hswhole,hsshort⟩ := bFileWriteContents_plain h contents n (Or.inr hfits)
  obtain ⟨hpwhole,hpshort⟩ := bFileWriteContents_plain h.plain contents n (Or.inl rfl)
  rcases Nat.lt_or_ge contents.length n with hlt | hle
  · exact Or.inl ⟨hsshort hlt,hpshort hlt⟩
  · obtain ⟨o',hs,hs'⟩ := hswhole hle
    obtain ⟨p',hp,hp'⟩ := hpwhole hle
    rw [ContentsAgree,hs,hp]
    exact Or.inr ⟨rfl,hs'.trans hp'.symm⟩

variable (hcan : o.buf.canSplice = true) (hn : o.buf.unused < n)
include hcan hn

theorem contentsAgree_short (hlt : contents.length < o.buf.unused) :
    ContentsAgree o ⟨contents,[]⟩ n := by
  have hsplices := bFileWriteContents_splices h hcan ⟨contents,[]⟩ hn
  obtain ⟨p,hp⟩ := (reading_plain h.pos o.buf.unused o.buf.unused contents).2 hlt
  rw [hp] at hsplices
  obtain ⟨o',k,hs,-⟩ := hsplices
  exact Or.inl ⟨by rw [hs],(bFileWriteContents_plain h.plain contents n (Or.inl rfl)).2 (by omega)⟩

theorem contentsAgree_spliced (hwrites : o.sys.writes = []) (hle : o.buf.unused ≤ contents.length) :
    let r := splicing (n-o.buf.unused) (contents.length-o.buf.unused) o.sys.splices
    ContentsAgree o ⟨contents,[]⟩ n ↔
      match r.2 with
      | .complete => 512 ∣ r.1
      | .eof => False
      | .failed => 512 ∣ r.1 ∨ contents.length < n := by
  obtain ⟨hpwhole,hpshort⟩ := bFileWriteContents_plain h.plain contents n (Or.inl rfl)
  have hpstream : o.plain.stream = o.stream := rfl
  rw [hpstream] at hpwhole
  have hsplices := bFileWriteContents_splices h hcan ⟨contents,[]⟩ hn
  rw [(reading_plain h.pos o.buf.unused o.buf.unused contents).1 hle] at hsplices
  have hmoved := splicing_moved (n-o.buf.unused) (contents.length-o.buf.unused) o.sys.splices
  have hblock := h.unusedBlock
  have htakesAll (m : ℕ) : takesAll (flushAnswers o.buf.size o.sys.writes) m = true := by
    rw [hwrites]
    rfl
  unfold ContentsAgree
  simp only [List.length_drop] at hsplices ⊢
  generalize splicing (n-o.buf.unused) (contents.length-o.buf.unused) o.sys.splices = r
    at hsplices hmoved ⊢
  match hr : r.2 with
  | .complete =>
    simp only [hr] at hsplices hmoved ⊢
    obtain ⟨res,o',k,hs,-,hstream,-,htakes,hall⟩ := hsplices
    have hpad := htakes.mpr (htakesAll _)
    obtain rfl := hall hpad
    subst hpad
    have hm : o.buf.unused+r.1 = n := by omega
    rw [hm] at hstream hs
    obtain ⟨p',hp,hp'⟩ := hpwhole (by omega)
    have hlen : n ≤ contents.length := by omega
    have hsame : o'.stream = p'.stream := by
      rw [hstream,hp',pad512_take hlen,List.append_assoc]
    have hiff : n = paddedSize n ↔ 512 ∣ r.1 := by
      rw [eq_comm,paddedSize_eq_iff]
      omega
    rw [hs,hp]
    simp [hsame,hiff]
  | .eof =>
    simp only [hr] at hsplices hmoved ⊢
    obtain ⟨res,o',k,hs,-,-,-,htakes,hall⟩ := hsplices
    obtain rfl := hall (htakes.mpr (htakesAll _))
    have hp := hpshort (by omega)
    rw [hs,hp]
    simp
  | .failed =>
    simp only [hr] at hsplices hmoved ⊢
    generalize hm : o.buf.unused+r.1 = m at hsplices
    obtain ⟨hrest,hrestshort⟩ := reading_plain h.pos o.buf.size (n-m) (contents.drop m)
    rcases Nat.lt_or_ge contents.length n with hlt | hle'
    · obtain ⟨p,hp⟩ := hrestshort (by rw [List.length_drop]; omega)
      rw [hp] at hsplices
      obtain ⟨o',k,hs,-⟩ := hsplices
      rw [hs,hpshort hlt]
      simp [hlt]
    · rw [hrest (by rw [List.length_drop]; omega)] at hsplices
      obtain ⟨o',hs,-,hstream,-⟩ := hsplices
      obtain ⟨p',hp,hp'⟩ := hpwhole hle'
      have hiff : m+paddedSize (n-m) = paddedSize n ↔ 512 ∣ r.1 := by
        rw [add_paddedSize_eq_iff (by omega)]
        omega
      have hmn : m ≤ n := by omega
      have hsame (hd : 512 ∣ m) : o'.stream = p'.stream := by
        rw [hstream,hp',pad512_take_add hd hmn (hmn.trans hle'),List.append_assoc]
      rw [hs,hp]
      simp only [reduceCtorEq,and_self,false_or,Option.some.injEq,hiff,not_lt.mpr hle',or_false]
      exact ⟨fun hagree => hagree.1,fun hd => ⟨hd,hsame (by omega)⟩⟩

end

/-- The two paths agree exactly when splicing is not engaged, or moves whole blocks and does not
end early. -/
theorem contentsAgree_iff {o : Output} (h : o.Ready) (hcan : o.buf.canSplice = true)
    (hwrites : o.sys.writes = []) (contents : Bytes) (n : ℕ) :
    ContentsAgree o ⟨contents,[]⟩ n ↔ SpliceHarmless o ⟨contents,[]⟩ n := by
  unfold SpliceHarmless
  rcases Nat.lt_or_ge o.buf.unused n with hn | hfits
  · rcases Nat.lt_or_ge contents.length o.buf.unused with hlt | hle
    · exact iff_of_true (contentsAgree_short h contents hcan hn hlt) (Or.inr (Or.inl hlt))
    · simp only [not_le.mpr hn,not_lt.mpr hle,false_or]
      exact contentsAgree_spliced h contents hcan hn hwrites hle
  · exact iff_of_true (contentsAgree_fits h contents hfits) (Or.inl hfits)

def pipeOutput (splices : List SpliceAnswer) : Output :=
  opened 1 5 true (some (5,10,0)) ⟨[],[],splices,.ok⟩

theorem pipeOutput_ready (splices : List SpliceAnswer) : (pipeOutput splices).Ready :=
  ready_opened (by omega) (by omega) (by decide) true _ (by simp [Sys.Reliable])

/-- A splice fails after one whole block: the rest is read, and nothing tells the two paths apart.
-/
theorem contentsAgree_of_failed_block :
    (pipeOutput [.moved 511,.fail .einval]).buf.canSplice = true ∧
      (SpliceHarmless (pipeOutput [.moved 511,.fail .einval]) ⟨List.replicate 1100 7,[]⟩ 1100 ∧
        ContentsAgree (pipeOutput [.moved 511,.fail .einval]) ⟨List.replicate 1100 7,[]⟩ 1100) := by
  have hharm : SpliceHarmless (pipeOutput [.moved 511,.fail .einval])
      ⟨List.replicate 1100 7,[]⟩ 1100 := by decide +kernel
  exact ⟨rfl,hharm,(contentsAgree_iff (pipeOutput_ready _) rfl rfl _ _).mpr hharm⟩

/-- Of 513 bytes the last one is spliced: the count returned is not padded. -/
theorem not_contentsAgree_of_odd_size :
    ¬ContentsAgree (pipeOutput []) ⟨List.replicate 513 7,[]⟩ 513 := by decide +kernel

end ArchiveTarBuilder
