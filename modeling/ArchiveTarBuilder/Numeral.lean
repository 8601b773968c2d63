import ArchiveTarBuilder.CString

/-! Numerals as `printf` writes them and as a reader decodes them: most significant digit
first, filled up with zeros to a precision, in any base up to ten. -/
namespace ArchiveTarBuilder
namespace Numeral

def digitChar (d : ℕ) : UInt8 := UInt8.ofNat (48+d)

def numeral (b prec n : ℕ) : Bytes :=
  List.replicate (prec-(Nat.digits b n).length) 48 ++ (Nat.digits b n).reverse.map digitChar

def isDigit (b : ℕ) (c : UInt8) : Bool := 48 ≤ c.toNat && c.toNat < 48+b

def value (b : ℕ) (s : Bytes) : ℕ := Nat.ofDigits b (s.reverse.map fun c => c.toNat-48)

/-- The number at the start of `s`; anything but a digit ends it. -/
def leading (b : ℕ) (s : Bytes) : ℕ := value b (s.takeWhile (isDigit b))

theorem digitChar_toNat {d : ℕ} (h : d < 10) : (digitChar d).toNat = 48+d := by
  simp only [digitChar,UInt8.toNat_ofNat']
  omega

theorem isDigit_digitChar {b d : ℕ} (hb : b ≤ 10) (h : d < b) : isDigit b (digitChar d) = true := by
  simp only [isDigit,digitChar_toNat (h.trans_le hb),Bool.and_eq_true,decide_eq_true_eq]
  omega

section
variable {b : ℕ} (hb : 2 ≤ b) (hten : b ≤ 10)
include hb hten

theorem isDigit_of_mem_numeral {prec n : ℕ} {c : UInt8} (h : c ∈ numeral b prec n) :
    isDigit b c = true := by
  simp only [numeral,List.mem_append,List.mem_map,List.mem_reverse] at h
  rcases h with h | ⟨d,hd,rfl⟩
  · rw [List.eq_of_mem_replicate h]
    simp only [isDigit,UInt8.reduceToNat,Bool.and_eq_true,decide_eq_true_eq]
    omega
  · exact isDigit_digitChar hten (Nat.digits_lt_base hb hd)

theorem value_numeral (prec n : ℕ) : value b (numeral b prec n) = n := by
  have hmap : ((Nat.digits b n).reverse.map digitChar).reverse.map (fun c => c.toNat-48) =
      Nat.digits b n := by
    rw [← List.map_reverse,List.reverse_reverse,List.map_map]
    conv_rhs => rw [← List.map_id (Nat.digits b n)]
    apply List.map_congr_left
    intro d hd
    have hlt := Nat.digits_lt_base hb hd
    simp only [Function.comp_apply,digitChar_toNat (hlt.trans_le hten),id_eq]
    omega
  have hzero : (List.replicate (prec-(Nat.digits b n).length) (48 : UInt8)).reverse.map
      (fun c => c.toNat-48) = List.replicate (prec-(Nat.digits b n).length) 0 := by
    simp
  rw [value,numeral,List.reverse_append,List.map_append,hmap,hzero,Nat.ofDigits_append,
    Nat.ofDigits_replicate_zero]
  simp [Nat.ofDigits_digits]

theorem takeWhile_numeral (prec n : ℕ) (rest : Bytes) (h : ∀ c ∈ rest.head?, isDigit b c = false) :
    (numeral b prec n ++ rest).takeWhile (isDigit b) = numeral b prec n := by
  rw [List.takeWhile_append_of_pos fun c hc => isDigit_of_mem_numeral hb hten hc]
  have hrest : rest.takeWhile (isDigit b) = [] := by
    cases rest with
    | nil => rfl
    | cons c cs => simp [h c (by simp)]
  rw [hrest,List.append_nil]

theorem leading_numeral (prec n : ℕ) (rest : Bytes) (h : ∀ c ∈ rest.head?, isDigit b c = false) :
    leading b (numeral b prec n ++ rest) = n := by
  rw [leading,takeWhile_numeral hb hten prec n rest h]
  exact value_numeral hb hten prec n

end

theorem numeral_length (b prec n : ℕ) :
    (numeral b prec n).length = max prec (Nat.digits b n).length := by
  simp only [numeral,List.length_append,List.length_replicate,List.length_map,List.length_reverse]
  omega

theorem numeral_length_of_lt {b prec n : ℕ} (hb : 2 ≤ b) (h : n < b^prec) :
    (numeral b prec n).length = prec := by
  have hl := (Nat.digits_length_le_iff hb n).mpr h
  rw [numeral_length]
  omega

end Numeral
end ArchiveTarBuilder
