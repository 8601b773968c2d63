import ArchiveTarBuilder.LineReader

/-! The lines that the reader of `match_line_reader.c` gives are the runs of the file between the
bytes that end a line, however the buffer is moved, enlarged and filled. -/
namespace ArchiveTarBuilder
open CString Runs

def isEol (c : UInt8) : Bool := decide (c = 13 ∨ c = 10 ∨ c = 0)

def lineRuns (text : Bytes) : List Bytes := runs isEol text

theorem strcspn_eol (s : Bytes) : strcspn s [13,10] = (s.takeWhile (!isEol ·)).length := by
  rw [strcspn,cstr,List.takeWhile_takeWhile]
  congr 2
  funext c
  simp [isEol,and_assoc]

theorem strcspn_unbroken {run : Bytes} (h : ∀ c ∈ run, isEol c = false) :
    strcspn run [13,10] = run.length := by
  rw [strcspn_eol,List.takeWhile_eq_self_iff.mpr fun c hc => by simp [h c hc]]

theorem strcspn_cut {run : Bytes} (h : ∀ c ∈ run, isEol c = false) {a : UInt8}
    (ha : isEol a = true) (rest : Bytes) : strcspn (run ++ a::rest) [13,10] = run.length := by
  rw [strcspn_eol,List.takeWhile_append_of_pos fun c hc => by simp [h c hc]]
  simp [ha]

theorem cstr_unbroken {run : Bytes} (h : ∀ c ∈ run, isEol c = false) (rest : Bytes) :
    cstr (run ++ 0::rest) = run ∧ cstr run = run := by
  have hzero : 0 ∉ run := fun hz => absurd (h 0 hz) (by decide)
  exact ⟨cstr_append_zero run rest hzero,cstr_of_not_mem run hzero⟩

/-- The text behind the last byte that ends a line: what has been read of the line to come. -/
def begun (text : Bytes) : Bytes := text.rtakeWhile (!isEol ·)

@[simp] theorem begun_nil : begun [] = [] := rfl

theorem begun_append_unbroken (before : Bytes) {part : Bytes} (h : ∀ c ∈ part, isEol c = false) :
    begun (before ++ part) = begun before ++ part := by
  rw [begun,begun,List.rtakeWhile,List.reverse_append,
    List.takeWhile_append_of_pos fun c hc => by simp [h c (List.mem_reverse.mp hc)]]
  simp [List.rtakeWhile]

theorem begun_append_eol (before : Bytes) {a : UInt8} (ha : isEol a = true) (rest : Bytes) :
    begun (before ++ a::rest) = begun rest := by
  rw [begun,begun,List.rtakeWhile,List.rtakeWhile,List.reverse_append,List.reverse_cons,
    List.append_assoc,List.takeWhile_append]
  split_ifs with hall
  · simp [ha,(List.takeWhile_prefix _).eq_of_length hall]
  · rfl

theorem begun_length_le (text : Bytes) : (begun text).length ≤ text.length :=
  (List.rtakeWhile_suffix _ text).length_le

/-- A stream that has seen neither its end nor an error. -/
structure Stream.Live (f : Stream) : Prop where
  eof : f.eof = false
  error : f.error = false

theorem Stream.Live.fread {f : Stream} (h : f.Live) {wanted : ℕ}
    (hok : (f.fread wanted).2.error = false) :
    (f.fread wanted).1 = f.contents.take wanted ∧
      (f.fread wanted).2.contents = f.contents.drop wanted ∧
      (f.fread wanted).2.answers = f.answers.tail ∧
      if (f.fread wanted).2.eof then (f.fread wanted).2.contents = []
      else wanted ≤ f.contents.length ∧ (f.fread wanted).2.Live := by
  cases hhead : f.answers.headD (.deliver false) with
  | fail n =>
    rw [Stream.fread,hhead] at hok
    simp at hok
  | deliver seesEnd =>
    simp only [Stream.fread,hhead,h.eof,Bool.false_or]
    refine ⟨trivial,trivial,trivial,?_⟩
    split_ifs with hend
    · rw [Bool.or_eq_true,Bool.and_eq_true,decide_eq_true_eq,List.isEmpty_iff] at hend
      rcases hend with hshort | hlast
      · exact List.drop_eq_nil_of_le (by omega)
      · exact hlast.2
    · have hno : ¬f.contents.length < wanted := fun hshort => hend (by simp [hshort])
      exact ⟨by omega,by simpa using hend,h.error⟩

theorem Stream.Live.fread_delivers {f : Stream} (h : f.Live) (wanted : ℕ)
    (hanswers : ∀ answer ∈ f.answers, ∃ seesEnd, answer = .deliver seesEnd) :
    (f.fread wanted).2.error = false := by
  obtain ⟨seesEnd,hhead⟩ : ∃ seesEnd, f.answers.headD (.deliver false) = .deliver seesEnd := by
    cases hcons : f.answers with
    | nil => exact ⟨false,rfl⟩
    | cons answer rest => exact hanswers answer (by simp [hcons])
  simp only [Stream.fread,hhead,h.error]

/-- The size of the buffer for the next read, and the answers of `realloc` from then on: the text
in front of a line makes room, a line that takes the whole buffer needs one of twice the size. -/
def roomFor (size : ℕ) (held : Bytes) (reallocs : List Bool) : Option (ℕ × List Bool) :=
  if (begun held).length < held.length then some (size,reallocs)
  else if size < size*2 % 2^64 ∧ reallocs.headD true = true then
    some (size*2 % 2^64,reallocs.tail)
  else none

/-- Where reading ends in an error, told from the text and the answers to come: what is left of the
file then, from the line on that has been begun. The buffer of `size` bytes holds `held`. -/
def stopsAt : ℕ → ℕ → Bytes → Stream → List Bool → Option Bytes
  | 0,_,_,_,_ => none
  | rounds+1,size,held,f,reallocs =>
    match roomFor size held reallocs with
    | none => some (begun held ++ f.contents)
    | some (size,reallocs) =>
      let read := f.fread (size-(begun held).length)
      if read.2.error then some (begun held ++ f.contents)
      else if read.2.eof then none
      else stopsAt rounds size (begun held ++ read.1) read.2 reallocs

theorem roomFor_lt {size : ℕ} {held : Bytes} {reallocs : List Bool} {room : ℕ × List Bool}
    (h : roomFor size held reallocs = some room) (hfits : held.length ≤ size) :
    (begun held).length < room.1 := by
  have hle := begun_length_le held
  rw [roomFor] at h
  split_ifs at h with hfront hgranted
  · obtain rfl := Option.some.inj h
    omega
  · obtain rfl := Option.some.inj h
    have := hgranted.1
    omega

theorem stopsAt_congr {held held' : Bytes} (hbegun : begun held = begun held')
    (hlength : held.length = held'.length) (rounds size : ℕ) (f : Stream) (reallocs : List Bool) :
    stopsAt rounds size held f reallocs = stopsAt rounds size held' f reallocs := by
  cases rounds with
  | zero => rfl
  | succ rounds => simp only [stopsAt,roomFor,hbegun,hlength]

/-- Every round takes something from the file, so that its length bounds them. -/
theorem stopsAt_rounds {n m size : ℕ} {held : Bytes} {f : Stream} (hlive : f.Live)
    (hfits : held.length ≤ size) (hn : f.contents.length < n) (hm : f.contents.length < m)
    (reallocs : List Bool) :
    stopsAt n size held f reallocs = stopsAt m size held f reallocs := by
  induction n generalizing m size held f reallocs with
  | zero => omega
  | succ n ih =>
    obtain ⟨m,rfl⟩ : ∃ k, m = k+1 := Nat.exists_eq_add_of_le' (by omega)
    simp only [stopsAt]
    cases hroom : roomFor size held reallocs with
    | none => rfl
    | some room =>
      have hlt := roomFor_lt hroom hfits
      simp only
      split_ifs with herror heof
      · rfl
      · rfl
      · obtain ⟨hgot,hleft,-,hend⟩ := hlive.fread (by simpa using herror)
        rw [if_neg heof] at hend
        have hlength := congrArg List.length hleft
        rw [List.length_drop] at hlength
        refine ih hend.2 ?_ (by omega) (by omega) room.2
        rw [hgot,List.length_append,List.length_take]
        omega

namespace LineReader

def unread (lr : LineReader) : Bytes := (lr.f.map Stream.contents).getD []

def toCome (lr : LineReader) : List Bytes := lineRuns (lr.data.drop lr.lineStart ++ lr.unread)

/-- The buffer is the text before the line, the part of the line that has been searched, and what
is behind it, beginning with the NUL that ends the line. -/
structure Cut (lr : LineReader) (before part rest : Bytes) : Prop where
  data : lr.data = before ++ part ++ rest
  lineStart : lr.lineStart = before.length
  lineEnd : lr.lineEnd = before.length+part.length
  unbroken : ∀ c ∈ part, isEol c = false
  ended : ∀ c ∈ rest.head?, c = 0

theorem Cut.toCome {lr : LineReader} {before part rest : Bytes} (h : lr.Cut before part rest) :
    lr.toCome = lineRuns (part ++ rest ++ lr.unread) := by
  rw [LineReader.toCome,h.data,h.lineStart,List.append_assoc before,List.drop_left]

/-- The search goes on behind the part that was searched before. It may replace a CR or LF by the
NUL of a string, which changes no line. -/
theorem findEol_cut {lr : LineReader} {before part tail : Bytes} (hnull : lr.nullSeparator = false)
    (hdata : lr.data = before ++ part ++ tail) (hstart : lr.lineStart = before.length)
    (hend : lr.lineEnd = before.length+part.length) (hpart : ∀ c ∈ part, isEol c = false) :
    ∃ part' rest, lr.findEol.Cut before part' rest ∧ rest.length ≤ tail.length ∧
      lineRuns (part' ++ rest ++ lr.unread) = lineRuns (part ++ tail ++ lr.unread) ∧
      begun lr.findEol.data = begun lr.data := by
  have hfind {n : ℕ} (hn : strcspn tail [13,10] = n) :
      lr.findEol = { lr with lineEnd := lr.lineEnd+n,data := lr.data.set (lr.lineEnd+n) 0 } := by
    have htail : lr.data.drop lr.lineEnd = tail := by
      rw [hdata,hend,← List.length_append,List.drop_left]
    simp only [findEol,hnull,htail,Bool.false_eq_true,if_false,hn]
  have happend {run : Bytes} (hrun : ∀ c ∈ run, isEol c = false) :
      ∀ c ∈ part ++ run, isEol c = false :=
    fun c hc => (List.mem_append.mp hc).elim (hpart c) (hrun c)
  rcases unbroken_or_cut isEol tail with hrun | ⟨run,a,rest,rfl,hrun,ha⟩
  · rw [hfind (strcspn_unbroken hrun)]
    have hsame : lr.data.set (lr.lineEnd+tail.length) 0 = lr.data :=
      List.set_eq_of_length_le (by simp [hdata,hend,Nat.add_assoc])
    refine ⟨part ++ tail,[],⟨?_,hstart,?_,happend hrun,by simp⟩,by simp,by simp [unread],?_⟩
    · rw [hsame,hdata]
      simp
    · rw [hend,List.length_append,Nat.add_assoc]
    · rw [hsame]
  · rw [hfind (strcspn_cut hrun ha rest)]
    have hcut : lr.data = (before ++ (part ++ run)) ++ a::rest := by simp [hdata]
    have hset : lr.data.set (lr.lineEnd+run.length) 0 = (before ++ (part ++ run)) ++ 0::rest := by
      rw [hcut,show lr.lineEnd+run.length = (before ++ (part ++ run)).length by
        simp [hend,Nat.add_assoc]]
      simp
    refine ⟨part ++ run,0::rest,⟨hset,hstart,?_,happend hrun,by simp⟩,by simp,?_,?_⟩
    · rw [hend,List.length_append,Nat.add_assoc]
    · have hother : lineRuns (part ++ run ++ 0::(rest ++ lr.unread)) =
        lineRuns (part ++ run ++ a::(rest ++ lr.unread)) := runs_other_sep (by decide) ha
      simpa [unread] using hother
    · rw [hset,hcut,begun_append_eol _ (by decide),begun_append_eol _ ha]

structure Moved (lr lr' : LineReader) : Prop where
  f : lr'.f = lr.f
  length : lr'.data.length = lr.data.length
  buffLength : lr'.buffLength = lr.buffLength
  nullSeparator : lr'.nullSeparator = lr.nullSeparator
  reallocs : lr'.reallocs = lr.reallocs
  requests : lr'.requests = lr.requests

theorem Moved.trans {lr₁ lr₂ lr₃ : LineReader} (h : Moved lr₁ lr₂) (h' : Moved lr₂ lr₃) :
    Moved lr₁ lr₃ :=
  ⟨h'.f.trans h.f,h'.length.trans h.length,h'.buffLength.trans h.buffLength,
    h'.nullSeparator.trans h.nullSeparator,h'.reallocs.trans h.reallocs,h'.requests.trans h.requests⟩

@[simp] theorem findEol_length (lr : LineReader) : lr.findEol.data.length = lr.data.length := by
  simp [findEol]

/-- One round of the search: what was searched is a line, and the search begins anew behind it. -/
theorem findEol_next {lr : LineReader} (hnull : lr.nullSeparator = false)
    {before part rest : Bytes} (hcut : lr.Cut before part (0::rest)) {next : LineReader}
    (hnext : next = { lr with lineStart := lr.lineEnd+1,lineEnd := lr.lineEnd+1 }.findEol) :
    Moved lr next ∧ cstr (next.data.drop lr.lineStart) = part ∧
      lr.toCome = (if part = [] then [] else [part]) ++ next.toCome ∧
      begun next.data = begun lr.data ∧ ∃ before' part' rest', next.Cut before' part' rest' ∧
        begun before' = [] ∧ rest'.length ≤ rest.length := by
  have hstart : lr.lineEnd+1 = (before ++ part ++ [0]).length := by
    simp [hcut.lineEnd,Nat.add_assoc]
  obtain ⟨part',rest',hcut',hle,hruns,hbegun⟩ := @findEol_cut
    { lr with lineStart := lr.lineEnd+1,lineEnd := lr.lineEnd+1 } _ _ rest hnull
    (show lr.data = (before ++ part ++ [0]) ++ [] ++ rest by simp [hcut.data]) hstart hstart (by simp)
  rw [← hnext] at hcut' hbegun
  have hmoved : Moved lr next := by
    rw [hnext]
    exact ⟨rfl,findEol_length _,rfl,rfl,rfl,rfl⟩
  have hunread : next.unread = lr.unread := by simp [unread,hmoved.f]
  refine ⟨hmoved,?_,?_,hbegun,_,part',rest',hcut',begun_append_eol _ (by decide) [],hle⟩
  · rw [hcut'.data,hcut.lineStart,show before ++ part ++ [0] ++ part' ++ rest' =
      before ++ (part ++ 0::(part' ++ rest')) by simp,List.drop_left]
    exact (cstr_unbroken hcut.unbroken _).1
  · have hsplit : lineRuns (part ++ 0::(rest ++ lr.unread)) =
        lineRuns part ++ lineRuns (rest ++ lr.unread) := runs_append_sep (by decide)
    rw [hcut.toCome,hcut'.toCome,hunread]
    calc lineRuns (part ++ 0::rest ++ lr.unread)
        = lineRuns part ++ lineRuns (rest ++ lr.unread) := by simpa using hsplit
      _ = (if part = [] then [] else [part]) ++ lineRuns (part' ++ rest' ++ lr.unread) := by
        rw [lineRuns,runs_unbroken hcut.unbroken]
        exact congrArg _ hruns.symm

/-- The buffer gives the first of the lines to come, or holds no end of a line any more. -/
theorem bufferedLine_spec (rounds : ℕ) {lr : LineReader} (hnull : lr.nullSeparator = false)
    {before part rest : Bytes} (hcut : lr.Cut before part rest) (hrounds : rest.length ≤ rounds) :
    Moved lr (lr.bufferedLine rounds).2 ∧
      lr.toCome = (lr.bufferedLine rounds).1.toList ++ (lr.bufferedLine rounds).2.toCome ∧
      begun (lr.bufferedLine rounds).2.data = begun lr.data ∧
      ∃ before' part' rest', (lr.bufferedLine rounds).2.Cut before' part' rest' ∧
        (begun before = [] → begun before' = []) ∧
        ((lr.bufferedLine rounds).1 = none → rest' = []) := by
  induction rounds generalizing lr before part rest with
  | zero =>
    have hrest : rest = [] := List.eq_nil_of_length_eq_zero (by omega)
    exact ⟨⟨rfl,rfl,rfl,rfl,rfl,rfl⟩,rfl,rfl,before,part,rest,hcut,id,fun _ => hrest⟩
  | succ rounds ih =>
    cases rest with
    | nil =>
      have hlast : ¬lr.lineEnd < lr.data.length := by
        rw [hcut.lineEnd,hcut.data]
        simp
      simp only [bufferedLine,if_neg hlast]
      exact ⟨⟨rfl,rfl,rfl,rfl,rfl,rfl⟩,rfl,trivial,before,part,[],hcut,id,fun _ => rfl⟩
    | cons c rest =>
      obtain rfl : c = 0 := hcut.ended c (by simp)
      have hmore : lr.lineEnd < lr.data.length := by
        rw [hcut.lineEnd,hcut.data]
        simp
      obtain ⟨next,hnext⟩ : ∃ next : LineReader,
        next = { lr with lineStart := lr.lineEnd+1,lineEnd := lr.lineEnd+1 }.findEol := ⟨_,rfl⟩
      obtain ⟨hmoved,hline,hcome,hbegun,before',part',rest',hcut',hbefore,hle⟩ :=
        findEol_next hnull hcut hnext
      have hround : lr.bufferedLine (rounds+1) =
          if part ≠ [] then (some part,next) else next.bufferedLine rounds := by
        have hnull' : next.nullSeparator = false := hmoved.nullSeparator.trans hnull
        simp only [bufferedLine,if_pos hmore,← hnext,hline,hnull',Bool.false_eq_true,false_or]
      rw [hround]
      by_cases hpart : part = []
      · rw [if_pos hpart] at hcome
        rw [if_neg (not_not_intro hpart),hcome]
        obtain ⟨hmoved',hcome',hbegun',before'',part'',rest'',hcut'',hbefore',hsearched⟩ :=
          ih (hmoved.nullSeparator.trans hnull) hcut' (by simp at hrounds; omega)
        exact ⟨hmoved.trans hmoved',hcome',hbegun'.trans hbegun,before'',part'',rest'',hcut'',
          fun _ => hbefore' hbefore,hsearched⟩
      · rw [if_neg hpart] at hcome
        rw [if_pos hpart]
        exact ⟨hmoved,hcome,hbegun,before',part',rest',hcut',fun _ => hbefore,by simp⟩

/-- The reader between two steps. A file that is open is read on only when the buffer is full, or
for the first time. -/
structure Sound (lr : LineReader) : Prop where
  nullSeparator : lr.nullSeparator = false
  cut : ∃ before part rest, lr.Cut before part rest ∧ (lr.f ≠ none → begun before = [])
  fits : lr.data.length ≤ lr.buffLength
  full : lr.f ≠ none → lr.data.length = lr.buffLength ∨ lr.data.length = 0 ∧ lr.buffLength < 2^63
  nonempty : 0 < lr.buffLength
  live : ∀ f ∈ lr.f, f.Live
  requests : ∀ wanted ∈ lr.requests, 0 < wanted

theorem Sound.moved {lr lr' : LineReader} (h : lr.Sound) (hmoved : Moved lr lr')
    (hcut : ∃ before part rest, lr'.Cut before part rest ∧ (lr'.f ≠ none → begun before = [])) :
    lr'.Sound where
  nullSeparator := hmoved.nullSeparator.trans h.nullSeparator
  cut := hcut
  fits := by rw [hmoved.length,hmoved.buffLength]; exact h.fits
  full := by rw [hmoved.length,hmoved.buffLength,hmoved.f]; exact h.full
  nonempty := by rw [hmoved.buffLength]; exact h.nonempty
  live := by rw [hmoved.f]; exact h.live
  requests := by rw [hmoved.requests]; exact h.requests

/-- No read fails, no `realloc` is refused, and the lines are short enough for sizes that a
`size_t` can double. -/
structure Untroubled (lr : LineReader) : Prop where
  reads : ∀ f ∈ lr.f, ∀ answer ∈ f.answers, ∃ seesEnd, answer = .deliver seesEnd
  memory : ∀ granted ∈ lr.reallocs, granted = true
  lines : ∀ run ∈ lr.toCome, run.length < 2^63

theorem Untroubled.of_suffix {lr lr' : LineReader} (h : lr.Untroubled)
    (hanswers : ∀ f' ∈ lr'.f, ∃ f ∈ lr.f, f'.answers <:+ f.answers)
    (hreallocs : lr'.reallocs <:+ lr.reallocs) (hcome : lr'.toCome <:+ lr.toCome) :
    lr'.Untroubled where
  reads f' hf' answer ha := by
    obtain ⟨f,hf,hsuffix⟩ := hanswers f' hf'
    exact h.reads f hf answer (hsuffix.subset ha)
  memory granted hg := h.memory granted (hreallocs.subset hg)
  lines run hrun := h.lines run (hcome.subset hrun)

theorem Sound.buffLength_lt {lr : LineReader} (h : lr.Sound) (hopen : lr.f ≠ none) {part : Bytes}
    (hcut : lr.Cut [] part []) (hlines : ∀ run ∈ lr.toCome, run.length < 2^63) :
    lr.buffLength < 2^63 := by
  rcases h.full hopen with hfull | hfirst
  · have hlength : part.length = lr.buffLength := by rw [← hfull,hcut.data]; simp
    have hne : part ≠ [] := List.ne_nil_of_length_pos (by rw [hlength]; exact h.nonempty)
    obtain ⟨run,hrun,hle⟩ := exists_run_of_prefix hne hcut.unbroken lr.unread
    have hcome : run ∈ lr.toCome := by
      rw [hcut.toCome,List.append_nil]
      exact hrun
    have := hlines run hcome
    omega
  · exact hfirst.2

structure Room (lr : LineReader) (part : Bytes) (lr' : LineReader) : Prop where
  cut : lr'.Cut [] part []
  f : lr'.f = lr.f
  nullSeparator : lr'.nullSeparator = false
  requests : lr'.requests = lr.requests
  roomFor : roomFor lr.buffLength lr.data lr.reallocs = some (lr'.buffLength,lr'.reallocs)

theorem makeRoom_requests (lr : LineReader) : lr.makeRoom.2.requests = lr.requests := by
  simp only [makeRoom]
  split_ifs <;> rfl

theorem roomFor_suffix {size : ℕ} {held : Bytes} {reallocs : List Bool} {room : ℕ × List Bool}
    (h : roomFor size held reallocs = some room) : room.2 <:+ reallocs := by
  rw [ArchiveTarBuilder.roomFor] at h
  split_ifs at h
  · obtain rfl := Option.some.inj h
    exact List.suffix_rfl
  · obtain rfl := Option.some.inj h
    exact List.tail_suffix _

theorem Cut.begun {lr : LineReader} {before part : Bytes} (h : lr.Cut before part [])
    (hbefore : begun before = []) : begun lr.data = part := by
  rw [h.data,List.append_nil,begun_append_unbroken _ h.unbroken,hbefore,List.nil_append]

/-- The buffer has room for more exactly where the text and the answers say so. -/
theorem makeRoom_spec {lr : LineReader} (h : lr.Sound) (hopen : lr.f ≠ none) {before part : Bytes}
    (hcut : lr.Cut before part []) (hbefore : begun before = []) :
    if lr.makeRoom.1 = true then Room lr part lr.makeRoom.2
      else ¬lr.Untroubled ∧ roomFor lr.buffLength lr.data lr.reallocs = none := by
  have hlength : lr.data.length = before.length+part.length := by simp [hcut.data]
  have hroom : roomFor lr.buffLength lr.data lr.reallocs =
      if 0 < lr.lineStart then some (lr.buffLength,lr.reallocs)
      else if lr.buffLength < lr.buffLength*2 % 2^64 ∧ lr.reallocs.headD true = true then
        some (lr.buffLength*2 % 2^64,lr.reallocs.tail)
      else none := by
    rw [ArchiveTarBuilder.roomFor,hcut.begun hbefore,hlength,hcut.lineStart]
    simp
  by_cases hstart : 0 < lr.lineStart
  · rw [if_pos hstart] at hroom
    rw [makeRoom,if_pos hstart,if_pos rfl]
    refine ⟨⟨?_,rfl,?_,hcut.unbroken,by simp⟩,rfl,h.nullSeparator,rfl,hroom⟩
    · rw [hcut.data,hcut.lineStart,List.append_assoc,List.drop_left]
      simp
    · rw [hcut.lineEnd,hcut.lineStart]
      simp
  · obtain rfl : before = [] := by
      rw [hcut.lineStart] at hstart
      exact List.eq_nil_of_length_eq_zero (by omega)
    rw [if_neg hstart] at hroom
    rw [makeRoom,if_neg hstart]
    by_cases hwrap : lr.buffLength*2 % 2^64 ≤ lr.buffLength
    · rw [if_neg fun hlt => absurd hlt.1 (by omega)] at hroom
      rw [if_pos hwrap,if_neg (by simp)]
      refine ⟨fun hno => ?_,hroom⟩
      have := h.buffLength_lt hopen hcut hno.lines
      have := h.nonempty
      omega
    · simp only [if_neg hwrap]
      split_ifs with hgranted
      · rw [if_pos ⟨by omega,hgranted⟩] at hroom
        exact ⟨⟨hcut.data,hcut.lineStart,hcut.lineEnd,hcut.unbroken,by simp⟩,rfl,h.nullSeparator,rfl,
          hroom⟩
      · rw [if_neg fun hlt => hgranted hlt.2] at hroom
        refine ⟨fun hno => ?_,hroom⟩
        cases hreallocs : lr.reallocs with
        | nil => simp [hreallocs] at hgranted
        | cons granted rest =>
          exact hgranted (by simpa [hreallocs] using hno.memory granted (by simp [hreallocs]))

def toRead (lr : LineReader) : ℕ := (lr.f.map fun f => f.contents.length+1).getD 0

def stops (lr : LineReader) : Option Bytes :=
  lr.f.bind fun f => stopsAt (f.contents.length+1) lr.buffLength lr.data f lr.reallocs

/-- What a read that succeeds makes of a buffer that holds `part`: the text goes on where it ended,
and so does the search; and either the file has been closed or all the room is taken. -/
structure Filled (lr : LineReader) (f : Stream) (part : Bytes) (wanted : ℕ) (lr' : LineReader) :
    Prop where
  cut : ∃ part' rest, lr'.Cut [] part' rest
  toCome : lr'.toCome = lineRuns (part ++ f.contents)
  length : lr'.data.length = part.length+min wanted f.contents.length
  begun : begun lr'.data = begun (part ++ (f.fread wanted).1)
  stream : lr'.f = if (f.fread wanted).2.eof then none else some (f.fread wanted).2
  buffLength : lr'.buffLength = lr.buffLength
  nullSeparator : lr'.nullSeparator = false
  reallocs : lr'.reallocs = lr.reallocs

@[simp] theorem fill_requests (lr : LineReader) (f : Stream) :
    (lr.fill f).2.requests = lr.requests ++ [lr.buffLength-lr.data.length] := by
  simp only [fill]
  split_ifs <;> rfl

theorem fill_error (lr : LineReader) (f : Stream) :
    (lr.fill f).1 = !(f.fread (lr.buffLength-lr.data.length)).2.error := by
  simp only [fill]
  split_ifs with herror <;> simp [herror]

theorem fill_filled {lr : LineReader} {f : Stream} (hlive : f.Live)
    (hnull : lr.nullSeparator = false) {part : Bytes} (hcut : lr.Cut [] part []) {wanted : ℕ}
    (hwanted : wanted = lr.buffLength-part.length) (hok : (f.fread wanted).2.error = false) :
    Filled lr f part wanted (lr.fill f).2 := by
  have hdata : lr.data = part := by simpa using hcut.data
  obtain ⟨hgot,hleft,-,hend⟩ := hlive.fread hok
  obtain ⟨r,hr⟩ : ∃ r, r = f.fread wanted := ⟨_,rfl⟩
  rw [← hr] at hok hgot hleft hend
  -- the bytes that were read are searched
  obtain ⟨next,hnext⟩ : ∃ next : LineReader, next = { lr with
    f := some r.2
    data := lr.data ++ r.1
    requests := lr.requests ++ [wanted] } := ⟨_,rfl⟩
  obtain ⟨part',rest,hcut',-,hruns,hbegun⟩ := findEol_cut
    (show next.nullSeparator = false by rw [hnext,hnull])
    (show next.data = [] ++ part ++ r.1 by simp [hnext,hdata]) (by rw [hnext,hcut.lineStart])
    (by rw [hnext,hcut.lineEnd]) hcut.unbroken
  obtain ⟨g,hg⟩ : ∃ g, g = if r.2.eof then none else some r.2 := ⟨_,rfl⟩
  have hfill : (lr.fill f).2 = { next.findEol with f := g } := by
    rw [← hdata] at hwanted
    simp only [fill,← hwanted,← hr,← hnext,hok,Bool.false_eq_true,if_false,hg]
    split_ifs
    · rfl
    · simp [findEol,hnext]
  have hunread : (g.map Stream.contents).getD [] = r.2.contents := by
    rw [hg]
    split_ifs with heof
    · rw [if_pos heof] at hend
      simp [hend]
    · rfl
  have hcut'' : LineReader.Cut { next.findEol with f := g } [] part' rest :=
    ⟨hcut'.data,hcut'.lineStart,hcut'.lineEnd,hcut'.unbroken,hcut'.ended⟩
  rw [hfill]
  refine ⟨⟨_,_,hcut''⟩,?_,by simp [hnext,hdata,hgot],?_,by rw [← hr]; exact hg,
    by simp [findEol,hnext],by simp [findEol,hnext,hnull],by simp [findEol,hnext]⟩
  · have hnow : next.unread = r.2.contents := by simp [unread,hnext]
    rw [hnow,hgot,hleft,List.append_assoc part,List.take_append_drop] at hruns
    rw [hcut''.toCome,unread,hunread,hleft,hruns]
  · rw [hbegun,hnext,hdata,hr]

section
variable {lr : LineReader} {f : Stream} {part : Bytes} {wanted : ℕ} {lr' : LineReader}
  (h : Filled lr f part wanted lr') (hlive : f.Live) (hok : (f.fread wanted).2.error = false)
include h hlive hok

theorem Filled.sound (hroom : part.length+wanted = lr.buffLength) (hpos : 0 < wanted)
    (hreq : ∀ wanted ∈ lr'.requests, 0 < wanted) : lr'.Sound where
  nullSeparator := h.nullSeparator
  cut := by
    obtain ⟨part',rest,hcut⟩ := h.cut
    exact ⟨[],part',rest,hcut,fun _ => rfl⟩
  fits := by rw [h.length,h.buffLength]; omega
  full hopen := by
    obtain ⟨-,-,-,hend⟩ := hlive.fread hok
    rw [h.stream] at hopen
    split_ifs at hopen hend
    · exact absurd rfl hopen
    · exact .inl (by rw [h.length,h.buffLength]; omega)
  nonempty := by rw [h.buffLength]; omega
  live f' hf' := by
    obtain ⟨-,-,-,hend⟩ := hlive.fread hok
    rw [h.stream] at hf'
    split_ifs at hf' hend
    · simp at hf'
    · obtain rfl := Option.some.inj hf'
      exact hend.2
  requests := hreq

theorem Filled.answers : ∀ f' ∈ lr'.f, f'.answers <:+ f.answers := by
  intro f' hf'
  obtain ⟨-,-,hanswers,-⟩ := hlive.fread hok
  rw [h.stream] at hf'
  split_ifs at hf'
  · simp at hf'
  · obtain rfl := Option.some.inj hf'
    rw [hanswers]
    exact List.tail_suffix _

theorem Filled.toRead_lt (hpos : 0 < wanted) : lr'.toRead < f.contents.length+1 := by
  obtain ⟨-,hleft,-,hend⟩ := hlive.fread hok
  rw [toRead,h.stream]
  split_ifs at hend ⊢
  · simp
  · simp only [Option.map_some,Option.getD_some,hleft,List.length_drop]
    omega

theorem Filled.stops (hroom : part.length+wanted = lr.buffLength) (hpos : 0 < wanted) :
    lr'.stops = if (f.fread wanted).2.eof then none else
      stopsAt f.contents.length lr.buffLength (part ++ (f.fread wanted).1) (f.fread wanted).2
        lr.reallocs := by
  obtain ⟨hgot,hleft,-,hend⟩ := hlive.fread hok
  rw [LineReader.stops,h.stream]
  split_ifs at hend ⊢
  · rfl
  · have hleft' := congrArg List.length hleft
    rw [List.length_drop] at hleft'
    have hlength : lr'.data.length = (part ++ (f.fread wanted).1).length := by
      rw [h.length,hgot,List.length_append,List.length_take]
    rw [Option.bind_some,h.buffLength,h.reallocs,stopsAt_congr h.begun hlength]
    refine stopsAt_rounds hend.2 ?_ (by omega) (by omega) _
    rw [← hlength,h.length]
    omega

end

/-- A call gives the first of the lines to come, or `NULL` when there is none, or comes to the
error. -/
def Gives (lr lr' : LineReader) : NextLine → Prop
  | .line text => lr.toCome = text::lr'.toCome ∧ lr'.Sound ∧ lr'.toRead ≤ lr.toRead ∧
    lr'.stops = lr.stops ∧ (lr.Untroubled → lr'.Untroubled)
  | .done => lr.toCome = [] ∧ lr.stops = none ∧ ∀ wanted ∈ lr'.requests, 0 < wanted
  | .failed => ¬lr.Untroubled ∧ (∃ rest, lr.stops = some rest ∧ lineRuns rest = lr.toCome) ∧
    ∀ wanted ∈ lr'.requests, 0 < wanted

theorem Gives.later {lr lr₁ lr' : LineReader} {next : NextLine} (h : lr₁.Gives lr' next)
    (hcome : lr₁.toCome = lr.toCome) (hread : lr₁.toRead ≤ lr.toRead)
    (hstops : lr₁.stops = lr.stops) (hno : lr.Untroubled → lr₁.Untroubled) : lr.Gives lr' next := by
  cases next with
  | line text =>
    exact ⟨hcome ▸ h.1,h.2.1,h.2.2.1.trans hread,h.2.2.2.1.trans hstops,h.2.2.2.2 ∘ hno⟩
  | done => exact ⟨hcome ▸ h.1,hstops ▸ h.2.1,h.2.2⟩
  | failed => exact ⟨h.1 ∘ hno,by rw [← hstops,← hcome]; exact h.2.1,h.2.2⟩

theorem atEnd_spec {lr : LineReader} (h : lr.Sound) (hclosed : lr.f = none) {before part : Bytes}
    (hcut : lr.Cut before part []) :
    if lr.lineStart = lr.data.length then lr.Gives lr .done
    else lr.Gives { lr with lineStart := lr.data.length } (.line (cstr (lr.data.drop lr.lineStart))) := by
  have hlength : lr.data.length = before.length+part.length := by simp [hcut.data]
  have hcome : lr.toCome = if part = [] then [] else [part] := by
    rw [hcut.toCome,unread,hclosed,lineRuns]
    simpa using runs_unbroken hcut.unbroken
  have hstops (n : ℕ) : LineReader.stops { lr with lineStart := n } = none := by
    rw [stops,hclosed]
    rfl
  split_ifs with hempty
  · have hpart : part = [] := List.eq_nil_of_length_eq_zero (by
      rw [hcut.lineStart] at hempty
      omega)
    exact ⟨by rw [hcome,if_pos hpart],hstops lr.lineStart,h.requests⟩
  · have hpart : part ≠ [] := by
      rintro rfl
      exact hempty (by rw [hcut.lineStart,hlength]; simp)
    have hcut' : LineReader.Cut { lr with lineStart := lr.data.length } lr.data [] [] :=
      ⟨by simp,rfl,by simp [hcut.lineEnd,hlength],by simp,by simp⟩
    have hline : cstr (lr.data.drop lr.lineStart) = part := by
      rw [hcut.data,hcut.lineStart,List.append_nil,List.drop_left]
      exact (cstr_unbroken hcut.unbroken []).2
    have hcome' : LineReader.toCome { lr with lineStart := lr.data.length } = [] := by
      rw [hcut'.toCome,unread,hclosed]
      simp [lineRuns]
    refine ⟨?_,h.moved ⟨rfl,rfl,rfl,rfl,rfl,rfl⟩ ⟨_,_,_,hcut',absurd hclosed⟩,le_refl _,
      (hstops _).trans (hstops lr.lineStart).symm,fun hno => ?_⟩
    · rw [hcome,if_neg hpart,hline,hcome']
    · exact hno.of_suffix (fun f hf => ⟨f,hf,List.suffix_rfl⟩) List.suffix_rfl
        (by rw [hcome']; exact List.nil_suffix)

/-- Reading on gives a reader with the same lines to come, or ends in the error. -/
theorem refill_spec {lr : LineReader} (h : lr.Sound) {f : Stream} (hf : lr.f = some f)
    {before part : Bytes} (hcut : lr.Cut before part []) (hbefore : begun before = []) :
    let filled := lr.makeRoom.2.fill f
    if lr.makeRoom.1 = true ∧ filled.1 = true then filled.2.Sound ∧ filled.2.toCome = lr.toCome ∧
      filled.2.toRead < lr.toRead ∧ filled.2.stops = lr.stops ∧ (lr.Untroubled → filled.2.Untroubled)
    else ¬lr.Untroubled ∧ lr.stops = some (part ++ f.contents) ∧
      (lr.makeRoom.1 = true → ∀ wanted ∈ filled.2.requests, 0 < wanted) := by
  have hlive := h.live f (by simp [hf])
  have hroom := makeRoom_spec h (by simp [hf]) hcut hbefore
  have hcome : lr.toCome = lineRuns (part ++ f.contents) := by
    rw [hcut.toCome,unread,hf,List.append_nil]
    rfl
  have hstops : lr.stops = stopsAt (f.contents.length+1) lr.buffLength lr.data f lr.reallocs := by
    rw [stops,hf]
    rfl
  rw [stopsAt,hcut.begun hbefore] at hstops
  by_cases hmade : lr.makeRoom.1 = true
  · rw [if_pos hmade] at hroom
    generalize lr.makeRoom.2 = room at hroom ⊢
    have hdata : room.data = part := by simpa using hroom.cut.data
    have hlt : part.length < room.buffLength := by
      simpa only [hcut.begun hbefore] using roomFor_lt hroom.roomFor h.fits
    obtain ⟨wanted,hwanted⟩ : ∃ wanted, wanted = room.buffLength-part.length := ⟨_,rfl⟩
    have hreq : ∀ n ∈ (room.fill f).2.requests, 0 < n := by
      simp only [fill_requests,hdata,hroom.requests,List.mem_append,List.mem_singleton]
      rintro n (hn | rfl)
      · exact h.requests n hn
      · omega
    have hread := room.fill_error f
    rw [hdata,← hwanted] at hread
    simp only [hroom.roomFor,← hwanted] at hstops
    by_cases hok : (f.fread wanted).2.error = false
    · have hfilled := fill_filled hlive hroom.nullSeparator hroom.cut hwanted hok
      have hsame : (room.fill f).2.toCome = lr.toCome := hfilled.toCome.trans hcome.symm
      rw [hok,if_neg Bool.false_ne_true] at hstops
      simp only
      rw [if_pos ⟨hmade,by rw [hread,hok]; rfl⟩]
      refine ⟨hfilled.sound hlive hok (by omega) (by omega) hreq,hsame,?_,?_,fun hno => ?_⟩
      · rw [toRead,toRead,hf]
        exact hfilled.toRead_lt hlive hok (by omega)
      · rw [hfilled.stops hlive hok (by omega) (by omega),hstops]
      · refine hno.of_suffix (fun f' hf' => ⟨f,hf,hfilled.answers hlive hok f' hf'⟩) ?_
          (hsame ▸ List.suffix_rfl)
        rw [hfilled.reallocs]
        exact roomFor_suffix hroom.roomFor
    · rw [if_pos (by simpa using hok)] at hstops
      simp only
      rw [if_neg fun hboth => hok (by rw [hread] at hboth; simpa using hboth.2)]
      exact ⟨fun hno => hok (hlive.fread_delivers wanted (hno.reads f hf)),hstops,fun _ => hreq⟩
  · rw [if_neg hmade] at hroom
    rw [hroom.2] at hstops
    simp only
    rw [if_neg fun hboth => hmade hboth.1]
    exact ⟨hroom.1,hstops,fun hno => absurd hno hmade⟩

/-- One call. Every round that does not end it takes something from the file or closes it. -/
theorem lafeLineReaderNext_spec (rounds : ℕ) {lr : LineReader} (h : lr.Sound)
    (hrounds : lr.toRead < rounds) :
    ∃ next lr', lafeLineReaderNext rounds lr = some (next,lr') ∧ lr.Gives lr' next := by
  induction rounds generalizing lr with
  | zero => omega
  | succ rounds ih =>
    obtain ⟨before,part,rest,hcut,hbefore⟩ := h.cut
    have hrest : rest.length ≤ lr.data.length-lr.lineEnd := by
      rw [hcut.data,hcut.lineEnd,List.length_append,List.length_append]
      omega
    obtain ⟨hmoved,hcome,hbegun,before',part',rest',hcut',hbefore',hsearched⟩ :=
      bufferedLine_spec (lr.data.length-lr.lineEnd) h.nullSeparator hcut hrest
    obtain ⟨buffered,hb⟩ : ∃ buffered,
      buffered = lr.bufferedLine (lr.data.length-lr.lineEnd) := ⟨_,rfl⟩
    rw [← hb] at hmoved hcome hbegun hcut' hsearched
    have hboundary : buffered.2.f ≠ none → begun before' = [] := by
      rw [hmoved.f]
      exact fun hopen => hbefore' (hbefore hopen)
    have hsound : buffered.2.Sound := h.moved hmoved ⟨before',part',rest',hcut',hboundary⟩
    have hread : buffered.2.toRead = lr.toRead := by rw [toRead,toRead,hmoved.f]
    have hstops : buffered.2.stops = lr.stops := by
      rw [stops,stops,hmoved.f,hmoved.buffLength,hmoved.reallocs]
      exact Option.bind_congr fun f _ => stopsAt_congr hbegun hmoved.length _ _ f _
    have hno (hcome' : buffered.2.toCome <:+ lr.toCome) (hno : lr.Untroubled) :
        buffered.2.Untroubled :=
      hno.of_suffix (fun f hf => ⟨f,hmoved.f ▸ hf,List.suffix_rfl⟩)
        (hmoved.reallocs ▸ List.suffix_rfl) hcome'
    simp only [lafeLineReaderNext,← hb]
    cases hline : buffered.1 with
    | some line =>
      rw [hline] at hcome
      exact ⟨_,_,rfl,hcome,hsound,hread.le,hstops,hno (hcome ▸ List.suffix_cons _ _)⟩
    | none =>
      obtain rfl : rest' = [] := hsearched hline
      have hcome' : buffered.2.toCome = lr.toCome := by rw [hcome,hline]; rfl
      have hlater {next : NextLine} {lr' : LineReader} (hgives : buffered.2.Gives lr' next) :
          lr.Gives lr' next :=
        hgives.later hcome' hread.le hstops (hno (hcome' ▸ List.suffix_rfl))
      cases hf : buffered.2.f with
      | none =>
        have hend := atEnd_spec hsound hf hcut'
        simp only
        split_ifs with hempty
        · rw [if_pos hempty] at hend
          exact ⟨_,_,rfl,hlater hend⟩
        · rw [if_neg hempty] at hend
          exact ⟨_,_,by rw [← hf],hlater hend⟩
      | some f =>
        have hrefill := refill_spec hsound hf hcut' (hboundary (by simp [hf]))
        have hrest : lineRuns (part' ++ f.contents) = buffered.2.toCome := by
          rw [hcut'.toCome,unread,hf,List.append_nil]
          rfl
        simp only at hrefill ⊢
        by_cases hmade : buffered.2.makeRoom.1 = true
        · by_cases hok : (buffered.2.makeRoom.2.fill f).1 = true
          · rw [if_pos ⟨hmade,hok⟩] at hrefill
            obtain ⟨hfilled,hcome'',hread'',hstops'',hno''⟩ := hrefill
            obtain ⟨next,lr',hnext,hgives⟩ := ih hfilled (by omega)
            rw [if_pos hmade,if_pos hok]
            exact ⟨next,lr',hnext,hlater (hgives.later hcome'' hread''.le hstops'' hno'')⟩
          · rw [if_neg fun hboth => hok hboth.2] at hrefill
            rw [if_pos hmade,if_neg hok]
            exact ⟨_,_,rfl,hlater ⟨hrefill.1,⟨_,hrefill.2.1,hrest⟩,hrefill.2.2 hmade⟩⟩
        · rw [if_neg fun hboth => hmade hboth.1] at hrefill
          rw [if_neg hmade]
          exact ⟨_,_,rfl,hlater ⟨hrefill.1,⟨_,hrefill.2.1,hrest⟩,
            by rw [makeRoom_requests]; exact hsound.requests⟩⟩

end LineReader

/-- What the calls up to the first `NULL` have to give for a file: each line once and in order. They
stop short of that only where memory is refused. -/
structure LinesRead (contents : Bytes) (reallocs : List Bool) (lines : List Bytes) (last : NextLine)
    (lr : LineReader) : Prop where
  returned : lines <+: lineRuns contents
  complete : last = .done → lines = lineRuns contents
  stopped : last = .done ∨ last = .failed ∧
    ¬((∀ granted ∈ reallocs, granted = true) ∧ ∀ run ∈ lineRuns contents, run.length < 2^63)
  room : ∀ wanted ∈ lr.requests, 0 < wanted

/-- The calls give all lines to come, or those in front of the place where the reader stops. -/
theorem readLines_spec {rounds calls : ℕ} {lr : LineReader} (h : lr.Sound)
    (hrounds : lr.toRead < rounds) (hcalls : lr.toCome.length < calls) :
    ∃ lines last lr', readLines rounds calls lr = some (lines,last,lr') ∧
      (last = .done ∧ lines = lr.toCome ∧ lr.stops = none ∨ last = .failed ∧ ¬lr.Untroubled ∧
        ∃ rest, lr.stops = some rest ∧ lines ++ lineRuns rest = lr.toCome) ∧
      ∀ wanted ∈ lr'.requests, 0 < wanted := by
  induction calls generalizing lr with
  | zero => omega
  | succ calls ih =>
    obtain ⟨next,lr₁,hnext,hgives⟩ := LineReader.lafeLineReaderNext_spec rounds h hrounds
    cases next with
    | line text =>
      obtain ⟨hcome,hsound,hread,hstops,hno⟩ := hgives
      obtain ⟨lines,last,lr',hlines,hends,hreq⟩ := ih hsound (by omega)
        (by rw [hcome] at hcalls; simpa using hcalls)
      refine ⟨text::lines,last,lr',by simp [readLines,hnext,hlines],?_,hreq⟩
      rw [hcome,← hstops]
      rcases hends with ⟨hlast,rfl,hnone⟩ | ⟨hlast,htrouble,rest,hrest,hsplit⟩
      · exact .inl ⟨hlast,rfl,hnone⟩
      · exact .inr ⟨hlast,htrouble ∘ hno,rest,hrest,by rw [List.cons_append,hsplit]⟩
    | done =>
      exact ⟨[],.done,lr₁,by simp [readLines,hnext],.inl ⟨rfl,hgives.1.symm,hgives.2.1⟩,hgives.2.2⟩
    | failed =>
      exact ⟨[],.failed,lr₁,by simp [readLines,hnext],.inr ⟨rfl,hgives.1,hgives.2.1⟩,hgives.2.2⟩

/-- Where the reader stops in a file that has been opened. -/
def Stream.stops (f : Stream) (reallocs : List Bool) : Option Bytes :=
  stopsAt (f.contents.length+1) 8192 [] f reallocs

/-- The calls for a file: they come to its end with all of its lines, or to the error. -/
theorem readLines_ends (contents : Bytes) (answers : List FreadAnswer) (reallocs : List Bool)
    (rounds calls : ℕ) (hrounds : contents.length+2 ≤ rounds)
    (hcalls : (lineRuns contents).length < calls) :
    ∃ lines last lr,
      readLines rounds calls (lafeLineReader ⟨contents,answers,false,false⟩ false reallocs) =
        some (lines,last,lr) ∧
      (last = .done ∧ lines = lineRuns contents ∧
          Stream.stops ⟨contents,answers,false,false⟩ reallocs = none ∨
        last = .failed ∧
          ¬((∀ answer ∈ answers, ∃ seesEnd, answer = .deliver seesEnd) ∧
            (∀ granted ∈ reallocs, granted = true) ∧ ∀ run ∈ lineRuns contents, run.length < 2^63) ∧
          ∃ rest, Stream.stops ⟨contents,answers,false,false⟩ reallocs = some rest ∧
            lines ++ lineRuns rest = lineRuns contents) ∧
      ∀ wanted ∈ lr.requests, 0 < wanted := by
  obtain ⟨reader,hreader⟩ : ∃ reader, reader =
    lafeLineReader ⟨contents,answers,false,false⟩ false reallocs := ⟨_,rfl⟩
  have hcome : reader.toCome = lineRuns contents := by
    rw [hreader]
    rfl
  have hsound : reader.Sound := by
    rw [hreader]
    refine ⟨rfl,⟨[],[],[],⟨rfl,rfl,rfl,by simp,by simp⟩,fun _ => rfl⟩,by simp [lafeLineReader],
      fun _ => .inr ⟨rfl,by norm_num [lafeLineReader]⟩,by simp [lafeLineReader],?_,
      by simp [lafeLineReader]⟩
    intro f hf
    obtain rfl := Option.some.inj hf
    exact ⟨rfl,rfl⟩
  obtain ⟨lines,last,lr,hlines,hends,hreq⟩ := @readLines_spec rounds calls
    reader hsound (by rw [hreader]; exact hrounds) (by rwa [hcome])
  have hstops : reader.stops = Stream.stops ⟨contents,answers,false,false⟩ reallocs := by
    rw [hreader,LineReader.stops,Stream.stops,lafeLineReader,Option.bind_some]
  rw [hcome,hstops] at hends
  rw [← hreader]
  refine ⟨lines,last,lr,hlines,hends.imp_right ?_,hreq⟩
  rintro ⟨hlast,htrouble,hrest⟩
  refine ⟨hlast,fun hno => htrouble ⟨fun f hf => ?_,?_,?_⟩,hrest⟩
  · rw [hreader] at hf
    obtain rfl := Option.some.inj hf
    exact hno.1
  · rw [hreader]
    exact hno.2.1
  · rw [hcome]
    exact hno.2.2

/-- The lines of a file are its non-empty maximal runs without CR, LF and NUL, in whatever portions
the file is read, and they come to an end. -/
theorem readLines_lineRuns (contents : Bytes) (answers : List FreadAnswer) (reallocs : List Bool)
    (hread : ∀ answer ∈ answers, ∃ seesEnd, answer = .deliver seesEnd) (rounds calls : ℕ)
    (hrounds : contents.length+2 ≤ rounds) (hcalls : (lineRuns contents).length < calls) :
    ∃ lines last lr,
      readLines rounds calls (lafeLineReader ⟨contents,answers,false,false⟩ false reallocs) =
        some (lines,last,lr) ∧ LinesRead contents reallocs lines last lr := by
  obtain ⟨lines,last,lr,hlines,hends,hreq⟩ := readLines_ends contents answers reallocs rounds calls
    hrounds hcalls
  refine ⟨lines,last,lr,hlines,?_⟩
  rcases hends with ⟨rfl,rfl,-⟩ | ⟨rfl,htrouble,rest,-,hsplit⟩
  · exact ⟨List.prefix_rfl,fun _ => rfl,.inl rfl,hreq⟩
  · exact ⟨⟨_,hsplit⟩,by simp,.inr ⟨rfl,fun hmemory => htrouble ⟨hread,hmemory⟩⟩,hreq⟩

/-- A CRLF, an empty line and a last line without an end, in a file that shows its end late. -/
theorem readLines_lineRuns_crlf : ∃ lines last lr,
    readLines 10 4 (lafeLineReader ⟨[97,13,10,98,99,10,10,100],[.deliver false,.deliver true],
      false,false⟩ false [true]) = some (lines,last,lr) ∧
    LinesRead [97,13,10,98,99,10,10,100] [true] lines last lr :=
  readLines_lineRuns _ _ _ (by simp) 10 4 (by decide) (by decide +kernel)

end ArchiveTarBuilder
