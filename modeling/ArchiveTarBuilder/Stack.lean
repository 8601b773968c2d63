import ArchiveTarBuilder.Buffer
import ArchiveTarBuilder.Refinement

/-! `b_stack.c`: a stack in an array that grows and shrinks by whole growth factors. The items are
pointers that are not `NULL`; `none` stands for `NULL`. An operation that uses an index outside of
the array has no result. -/
namespace ArchiveTarBuilder

def sizeSub (a b : ℕ) : ℕ := sizeT (a+(2^64-sizeT b))

/-- `refused` says that a `realloc` has failed. -/
structure BStack (α : Type*) where
  size : ℕ
  count : ℕ
  growthFactor : ℕ
  items : List (Option α)
  refused : Bool
  deriving DecidableEq, Repr

def maxObject : ℕ := 2^63-1

def pointerSize : ℕ := 8

def bStackDefaultGrowthFactor : ℕ := 128

section
variable {α : Type*}

def bStackNew (growBy : ℕ) : Option (BStack α) :=
  let growthFactor := if 0 < growBy then growBy else bStackDefaultGrowthFactor
  if growthFactor*pointerSize ≤ maxObject then
    some ⟨growthFactor,0,growthFactor,List.replicate growthFactor none,false⟩
  else none

namespace BStack

def readItem (s : BStack α) (i : ℕ) : Option (Option α) := if i < s.size then s.items[i]? else none

def writeItem (s : BStack α) (i : ℕ) (item : Option α) : Option (BStack α) :=
  if i < s.size ∧ i < s.items.length then some { s with items := s.items.set i item } else none

-- what a slot holds that nothing has been written to
variable (fresh : ℕ → Option α)

def realloc (items : List (Option α)) (bytes : ℕ) : List (Option α) :=
  (List.range (bytes/pointerSize)).map fun i => items.getD i (fresh i)

def resize (granted : Bool) (s : BStack α) (newsize : ℕ) : Bool × BStack α :=
  if newsize = 0 then (true,s)
  else
    let bytes := sizeT (newsize*pointerSize)
    if granted ∧ 0 < bytes ∧ bytes ≤ maxObject then
      (true,{ s with size := newsize,items := realloc fresh s.items bytes })
    else (false,{ s with refused := true })

def push (granted : Bool) (s : BStack α) (item : α) : Option (Option α × BStack α) :=
  let r := if s.count = s.size then s.resize fresh granted (sizeT (s.size+s.growthFactor)) else (true,s)
  if r.1 then
    (r.2.writeItem r.2.count (some item)).map fun s => (some item,{ s with count := s.count+1 })
  else some (none,r.2)

/-- The end of `b_stack_pop` and `b_stack_shift`, which have taken `item` and left `index` items. -/
def shrink (granted : Bool) (s : BStack α) (index : ℕ) (item : Option α) : Option α × BStack α :=
  if index = sizeSub s.size (sizeT (s.growthFactor*2)) then
    let r := s.resize fresh granted (sizeSub s.size s.growthFactor)
    if r.1 then (item,r.2) else (none,r.2)
  else (item,s)

def pop (granted : Bool) (s : BStack α) : Option (Option α × BStack α) :=
  if s.count = 0 then some (none,s)
  else
    let index := s.count-1
    (s.readItem index).bind fun item => (s.writeItem index none).map fun s =>
      shrink fresh granted { s with count := s.count-1 } index item

def shiftLoop : ℕ → ℕ → BStack α → Option (BStack α)
  | 0,_,s => some s
  | left+1,i,s =>
    (s.readItem i).bind fun item => (s.writeItem (i-1) item).bind fun s => shiftLoop left (i+1) s

def shift (granted : Bool) (s : BStack α) : Option (Option α × BStack α) :=
  if s.count = 0 then some (none,s)
  else
    let last := s.count-1
    (s.readItem 0).bind fun item => (shiftLoop (s.count-1) 1 s).bind fun s =>
      (s.writeItem last none).map fun s =>
        shrink fresh granted { s with count := s.count-1 } last item

def top (s : BStack α) : Option (Option α) :=
  if s.count = 0 then some none else s.readItem (s.count-1)

def itemAt (s : BStack α) (index : ℕ) : Option (Option α) :=
  if s.count ≤ index then some none else s.readItem index

def reverseLoop : ℕ → ℕ → BStack α → Option (BStack α)
  | 0,_,s => some s
  | left+1,i,s =>
    let opposite := s.count-1-i
    (s.readItem i).bind fun tmp => (s.readItem opposite).bind fun item =>
      (s.writeItem i item).bind fun s => (s.writeItem opposite tmp).bind fun s =>
        reverseLoop left (i+1) s

def reverse (s : BStack α) : Option (BStack α) := reverseLoop (s.count/2) 0 s

end BStack

/-- A call, with whether memory is granted if it needs any. -/
inductive StackOp (α : Type*)
  | push (item : α) | pop | shift | reverse | top | itemAt (index : ℕ)
  deriving DecidableEq, Repr

/-- What a call returns; the stack that `b_stack_reverse` returns is left out. -/
def BStack.step (fresh : ℕ → Option α) (s : BStack α) (op : StackOp α × Bool) :
    Option (Option α × BStack α) :=
  match op.1 with
  | .push item => s.push fresh op.2 item
  | .pop => s.pop fresh op.2
  | .shift => s.shift fresh op.2
  | .reverse => s.reverse.map fun s => (none,s)
  | .top => s.top.map fun item => (item,s)
  | .itemAt index => (s.itemAt index).map fun item => (item,s)

def listStep (xs : List α) (op : StackOp α × Bool) : Option α × List α :=
  match op.1 with
  | .push item => (some item,xs ++ [item])
  | .pop => (xs.getLast?,xs.dropLast)
  | .shift => (xs.head?,xs.tail)
  | .reverse => (none,xs.reverse)
  | .top => (xs.getLast?,xs)
  | .itemAt index => (xs[index]?,xs)

end

end ArchiveTarBuilder
