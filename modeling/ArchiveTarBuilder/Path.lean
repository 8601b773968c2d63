import ArchiveTarBuilder.Header

/-! `b_path.c`, `b_string_join` and `path_split`: paths as stacks of items. A stack is the list
of its items, bottom first. -/
namespace ArchiveTarBuilder
open CString

def slash : UInt8 := 47
def dot : Bytes := [46]

/-- All the tokens that `strtok_r(s, "/", ...)` yields: it never yields an empty one. -/
def strtok (s : Bytes) : List Bytes := (s.splitOn slash).filter (· ≠ [])

def bStringJoin (sep : Bytes) (items : List Bytes) : Bytes := sep.intercalate items

def isAbsolute (path : Bytes) : Bool := path.head? = some slash

/-- The tokenizer loop of `b_path_new` over the tokens still to come. -/
def pathItems (absolute : Bool) : List Bytes → List Bytes → List Bytes
  | [], stack => stack
  | item::rest, stack =>
    if stack ≠ [] ∧ item = dot then pathItems absolute rest stack
    else
      let stack := if stack = [] ∧ absolute then stack ++ [[]] else stack
      pathItems absolute rest (stack ++ [item])

def bPathNew (path : Bytes) : List Bytes :=
  let items := pathItems (isAbsolute path) (strtok (cstr path)) []
  if items = [] ∧ isAbsolute path then [[slash]] else items

def bPathClean (path : Bytes) : Bytes := bStringJoin [slash] (bPathNew path)

/-- The locals of `path_split`; the two stacks list their items bottom first. -/
structure SplitState where
  prefixItems : List Bytes
  suffixItems : List Bytes
  prefixSize : ℕ
  suffixSize : ℕ
  addToPrefix : Bool
  deriving DecidableEq, Repr

/-- One round of the loop of `path_split` for the item just popped. -/
def splitStep (directory : Bool) (s : SplitState) (item : Bytes) : SplitState :=
  let addToPrefix := s.addToPrefix ||
    (decide (s.suffixSize ≠ 0) && decide (bHeaderSuffixSize ≤ s.suffixSize+item.length)) ||
    (directory && decide (bHeaderSuffixSize ≤ s.suffixSize+item.length+1))
  if addToPrefix then
    { s with
      prefixItems := s.prefixItems ++ [item]
      prefixSize := (if s.prefixSize ≠ 0 then s.prefixSize+1 else s.prefixSize)+item.length
      addToPrefix := addToPrefix }
  else
    { s with
      suffixItems := s.suffixItems ++ [item]
      suffixSize := (if s.suffixSize ≠ 0 then s.suffixSize+1 else s.suffixSize)+item.length }

/-- The popping loop: it takes the items of `parts` from the last to the first. -/
def splitLoop (directory : Bool) (parts : List Bytes) : SplitState :=
  parts.reverse.foldl (splitStep directory) ⟨[],[],0,0,false⟩

structure PathData where
  pathPrefix : Bytes
  suffix : Bytes
  truncated : Bool
  deriving DecidableEq, Repr

def splitParts (path : Bytes) : List Bytes :=
  match bPathNew path with
  | []::rest => rest
  | parts => parts

def pathSplit (path : Bytes) (st : Stat) : Option PathData :=
  if bPathNew path = [] then none
  else
    let directory := decide (st.ifmt = sIfdir)
    let s := splitLoop directory (splitParts path)
    let suffix := bStringJoin [slash] s.suffixItems.reverse
    let suffixSize := if directory then s.suffixSize+1 else s.suffixSize
    some {
      pathPrefix := bStringJoin [slash] s.prefixItems.reverse
      suffix := if directory then suffix ++ [slash] else suffix
      truncated := decide (bHeaderSuffixSize < suffixSize) ||
        decide (bHeaderPrefixSize < s.prefixSize) }

end ArchiveTarBuilder
