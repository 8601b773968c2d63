import ArchiveTarBuilder.Memory
import ArchiveTarBuilder.Path
import ArchiveTarBuilder.Stack

/-! `b_string.c`, `b_path.c` and what makes strings elsewhere, on the objects that the strings and
the stacks lie in: every access is checked, and any request for memory may be refused. A `char *` is
what its object holds from there on; `none` stands for `NULL`. -/
namespace ArchiveTarBuilder
namespace Objects
open CString Memory

abbrev Program := Mem UInt8

/-- `str` is the object that the pointer points to the start of. -/
structure BString where
  str : Bytes
  len : ℕ
  deriving DecidableEq, Repr

def malloc (n : ℕ) : Program (Option Bytes) := alloc maxObject n

def sizeofString : ℕ := 2*pointerSize

def sizeofStack : ℕ := 5*pointerSize

def strlen (p : Bytes) : Program ℕ := if 0 ∈ p then pure (cstr p).length else fault

def strEq (p q : Bytes) : Program Bool := if 0 ∈ p then pure (decide (cstr p = q)) else fault

def strncpy (dst : Bytes) (off : ℕ) (src : Bytes) (n : ℕ) : Program Bytes :=
  let text := cstr (src.take n)
  if 0 ∈ src ∨ n ≤ src.length then store dst off (text ++ zeros (n-text.length)) else fault

def memcpy (dst : Bytes) (off : ℕ) (src : Bytes) (n : ℕ) : Program Bytes := do
  let bytes ← load src 0 n
  store dst off bytes

def bStringNewLen (str : Bytes) (len : ℕ) : Program (Option BString) := do
  match ← malloc sizeofString with
  | none => return none
  | some _ =>
    match ← malloc (sizeT (len+1)) with
    | none => return none
    | some obj =>
      let obj ← strncpy obj 0 str len
      let obj ← store obj len [0]
      return some ⟨obj,len⟩

def bStringNew (str : Bytes) : Program (Option BString) := do
  let len ← strlen str
  bStringNewLen str len

def bStringDup (string : BString) : Program (Option BString) := bStringNewLen string.str string.len

/-- The string as it stands behind the end of `b_string_append_str`. -/
def appendLen (string : BString) (add : Bytes) (addLen : ℕ) : Program (Option BString) := do
  if addLen = 0 then return some string
  else
    let newlen := sizeT (string.len+addLen)
    match ← realloc maxObject string.str (sizeT (newlen+1)) with
    | none => return none
    | some tmp =>
      let tmp ← strncpy tmp string.len add addLen
      let tmp ← store tmp newlen [0]
      return some ⟨tmp,newlen⟩

def bStringAppendStr (string : BString) (addStr : Bytes) : Program (Option BString) := do
  let addLen ← strlen addStr
  appendLen string addStr addLen

def literal (s : Bytes) : Bytes := s ++ [0]

abbrev Pointers := BStack (Option BString)

def stackNew {α : Type} (growBy : ℕ) : Program (Option (BStack α)) := do
  match ← malloc sizeofStack with
  | none => return none
  | some _ =>
    if ← ask then
      match bStackNew growBy with
      | none =>
        refuse
        return none
      | some stack => return some stack
    else
      refuse
      return none

def stackStep {α : Type} (fresh : ℕ → Option α) (stack : BStack α) (op : StackOp α) :
    Program (Option α × BStack α) := do
  let granted ← ask
  match stack.step fresh (op,granted) with
  | none => fault
  | some (item,stack) =>
    if stack.refused then
      refuse
      return (item,stack)
    else return (item,stack)

-- what a slot holds that nothing has been written to
variable (fresh : ℕ → Option (Option BString))

def stackPush (stack : Pointers) (item : Option BString) : Program (Option BString × Pointers) := do
  let granted ← (if stack.count = stack.size then ask else pure true)
  match stack.push fresh granted item with
  | none => fault
  | some (none,stack) =>
    refuse
    return (none,stack)
  | some (some pushed,stack) => return (pushed,stack)

def stackItemAt (stack : Pointers) (index : ℕ) : Program (Option BString) :=
  match stack.itemAt index with
  | none => fault
  | some item => pure item.join

def joinLength (items : Pointers) : ℕ → ℕ → ℕ → Program (Option ℕ)
  | 0,_,len => return some len
  | left+1,i,len => do
    match ← stackItemAt items i with
    | none => return none
    | some item => joinLength items left (i+1) (sizeT (len+item.len))

def copyBehind (str : Bytes) (off : ℕ) (src : Bytes) (n : ℕ) : Program (ℕ × Bytes) := do
  let str ← memcpy str off src n
  return (sizeT (off+n),str)

def joinCopy (sep : Bytes) (seplen : ℕ) (items : Pointers) :
    ℕ → ℕ → ℕ → Bytes → Program (Option Bytes)
  | 0,_,_,str => return some str
  | left+1,i,off,str => do
    match ← stackItemAt items i with
    | none => return none
    | some item =>
      let (off,str) ← (if 0 < seplen ∧ i ≠ 0 then copyBehind str off sep seplen else pure (off,str))
      let (off,str) ← (if 0 < item.len then copyBehind str off item.str item.len else pure (off,str))
      joinCopy sep seplen items left (i+1) off str

def bStringJoin (sep : Bytes) (items : Pointers) : Program (Option BString) := do
  match ← malloc sizeofString with
  | none => return none
  | some _ =>
    let count := items.count
    let seplen ← strlen sep
    let len := if count ≠ 0 then sizeT (seplen*(count-1)) else 0
    match ← joinLength items count 0 len with
    | none => return none
    | some len =>
      match ← malloc (sizeT (len+1)) with
      | none => return none
      | some str =>
        match ← joinCopy sep seplen items count 0 0 str with
        | none => return none
        | some str =>
          let str ← store str len [0]
          return some ⟨str,len⟩

/-- `strtok_r(s, "/", &ctx)` with `pos` where `s` or `ctx` points: the token, the object and `ctx`.
-/
def strtokR (obj : Bytes) (pos : ℕ) : Program (Option ℕ × Bytes × ℕ) :=
  if 0 ∉ obj.drop pos then fault
  else
    let start := pos+((obj.drop pos).takeWhile (· = slash)).length
    let stop := start+((obj.drop start).takeWhile fun c => c ≠ slash ∧ c ≠ 0).length
    if stop = start then pure (none,obj,start)
    else if (obj.drop stop).headD 0 = 0 then pure (some start,obj,stop)
    else do
      let obj ← store obj stop [0]
      return (some start,obj,stop+1)

def startsAtRoot (string : BString) : Program Bool := do
  let first ← load string.str 0 1
  return decide (first = [slash])

def pushEmpty (string : BString) (ret : Pointers) : Program Pointers := do
  if ret.count = 0 then
    if ← startsAtRoot string then
      let empty ← bStringNew (literal [])
      let (_,ret) ← stackPush fresh ret empty
      return ret
    else return ret
  else return ret

def pathLoop (string : BString) : ℕ → Bytes → ℕ → Pointers → Program (Option Pointers)
  | 0,_,_,_ => fault
  | left+1,dup,pos,ret => do
    match ← strtokR dup pos with
    | (none,_,_) => return some ret
    | (some item,dup,pos) =>
      let skipped ← (if 0 < ret.count then strEq (dup.drop item) dot else pure false)
      if skipped then pathLoop string left dup pos ret
      else
        let ret ← pushEmpty fresh string ret
        match ← bStringNew (dup.drop item) with
        | none => return none
        | some copy =>
          let (pushed,ret) ← stackPush fresh ret (some copy)
          if pushed = none then return none
          else pathLoop string left dup pos ret

def pushSlash (string : BString) (ret : Pointers) : Program (Option Pointers) := do
  if ret.count = 0 then
    if ← startsAtRoot string then
      let root ← bStringNew (literal [slash])
      let (pushed,ret) ← stackPush fresh ret root
      if pushed = none then return none
      else return some ret
    else return some ret
  else return some ret

def bPathNew (string : BString) : Program (Option Pointers) := do
  match ← stackNew 0 with
  | none => return none
  | some ret =>
    match ← malloc (sizeT (string.len+1)) with
    | none => return none
    | some dup =>
      let dup ← memcpy dup 0 string.str string.len
      let dup ← store dup string.len [0]
      match ← pathLoop fresh string (string.len+1) dup 0 ret with
      | none => return none
      | some ret => pushSlash fresh string ret

def bPathClean (string : BString) : Program (Option BString) := do
  match ← bPathNew fresh string with
  | none => return none
  | some parts => bStringJoin (literal [slash]) parts

end Objects
end ArchiveTarBuilder
