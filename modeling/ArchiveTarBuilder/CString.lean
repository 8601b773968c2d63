import ArchiveTarBuilder.Region

/-! Byte strings of C and the calls that store them in fixed-size fields. A field is a list
with its length, so that no store can grow or shrink it. -/
namespace ArchiveTarBuilder

abbrev Bytes := List UInt8

namespace CString
open Region

def zeros (n : ℕ) : Bytes := List.replicate n 0

@[simp] theorem zeros_length (n : ℕ) : (zeros n).length = n := by simp [zeros]

/-- What a reader of a `char *` sees: everything in front of the first NUL. -/
def cstr (s : Bytes) : Bytes := s.takeWhile (· ≠ 0)

theorem cstr_append_zero (s rest : Bytes) (h : 0 ∉ s) : cstr (s ++ 0::rest) = s := by
  have hs : ∀ c ∈ s, decide (c ≠ 0) = true := by
    intro c hc
    simpa using fun hz : c = 0 => h (hz ▸ hc)
  rw [cstr,List.takeWhile_append_of_pos hs]
  simp

theorem cstr_of_not_mem (s : Bytes) (h : 0 ∉ s) : cstr s = s := by
  rw [cstr,List.takeWhile_eq_self_iff]
  intro c hc
  simpa using fun hz : c = 0 => h (hz ▸ hc)

theorem cstr_append_zeros (s : Bytes) (n : ℕ) (h : 0 ∉ s) : cstr (s ++ zeros n) = s := by
  cases n with
  | zero => simpa [zeros] using cstr_of_not_mem s h
  | succ n => exact cstr_append_zero s (zeros n) h

@[simp] theorem zero_notMem_cstr (s : Bytes) : 0 ∉ cstr s := by
  intro h
  simpa using List.mem_takeWhile_imp h

structure Field (n : ℕ) where
  bytes : Bytes
  size : bytes.length = n
  deriving DecidableEq

namespace Field

attribute [simp] Field.size

variable {n : ℕ}

theorem ext_bytes {f g : Field n} (h : f.bytes = g.bytes) : f = g := by
  cases f; cases g; simpa using h

theorem drop_bytes (f : Field n) {m : ℕ} (h : n ≤ m) : f.bytes.drop m = [] :=
  List.drop_eq_nil_of_le (by simp [h])

theorem take_bytes (f : Field n) {m : ℕ} (h : n ≤ m) : f.bytes.take m = f.bytes :=
  List.take_of_length_le (by simp [h])

def zero (n : ℕ) : Field n := ⟨zeros n,zeros_length n⟩

def fit (n : ℕ) (s : Bytes) : Field n :=
  ⟨s.take n ++ zeros (n-(s.take n).length),by simp⟩

theorem fit_bytes (s : Bytes) (h : s.length = n) : (fit n s).bytes = s := by
  subst h
  simp [fit,zeros]

/-- `strncpy(field, s, n)`: the string, cut at `n`, with the rest of the field zeroed. -/
def strncpy (n : ℕ) (s : Bytes) : Field n := fit n (cstr s)

/-- `snprintf(field, size, ...)` with result `text`: at most `size - 1` characters and a NUL; the
bytes of the field behind the NUL keep what they held. -/
def snprintf (f : Field n) (size : ℕ) (text : Bytes) : Field n :=
  fit n (overwrite f.bytes 0 ((text.take (size-1) ++ [0]).take size))

theorem strncpy_bytes (s : Bytes) (h : 0 ∉ s) (hl : s.length ≤ n) :
    (strncpy n s).bytes = s ++ zeros (n-s.length) := by
  simp only [strncpy,fit,cstr_of_not_mem s h]
  rw [List.take_of_length_le hl]

theorem cstr_strncpy (s : Bytes) (h : 0 ∉ s) (hl : s.length ≤ n) : cstr (strncpy n s).bytes = s := by
  rw [strncpy_bytes s h hl,cstr_append_zeros s _ h]

theorem snprintf_bytes (f : Field n) (size : ℕ) (text : Bytes) (h : text.length < size)
    (hs : size ≤ n) : (snprintf f size text).bytes = text ++ 0::f.bytes.drop (text.length+1) := by
  have htake : (text.take (size-1) ++ [0]).take size = text ++ [0] := by
    rw [List.take_of_length_le (by omega : text.length ≤ size-1),
      List.take_of_length_le (by simp; omega)]
  have hover : overwrite f.bytes 0 (text ++ [0]) = text ++ 0::f.bytes.drop (text.length+1) := by
    simp [overwrite]
  rw [snprintf,htake,hover]
  apply fit_bytes
  simp only [List.length_append,List.length_cons,List.length_drop,Field.size]
  omega

end Field
end CString
end ArchiveTarBuilder
