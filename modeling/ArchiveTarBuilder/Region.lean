import Mathlib

/-! Regions of memory as lists: storing over a region, the blank rest of a region, and
rounding lengths up to whole blocks. Nothing here names the archiver. -/
namespace ArchiveTarBuilder
namespace Region

variable {α : Type*}

/-- Store `xs` over `region` from position `off` on; the rest of the region is kept. -/
def overwrite (region : List α) (off : ℕ) (xs : List α) : List α :=
  region.take off ++ xs ++ region.drop (off+xs.length)

def slice (region : List α) (off len : ℕ) : List α := (region.drop off).take len

@[simp] theorem overwrite_nil (region : List α) (off : ℕ) : overwrite region off [] = region := by
  simp [overwrite]

theorem overwrite_length (region : List α) (off : ℕ) (xs : List α)
    (h : off+xs.length ≤ region.length) : (overwrite region off xs).length = region.length := by
  simp only [overwrite,List.length_append,List.length_take,List.length_drop]
  omega

theorem overwrite_append (pre post xs : List α) :
    overwrite (pre ++ post) pre.length xs = pre ++ xs ++ post.drop xs.length := by
  simp [overwrite,List.drop_append]

theorem take_overwrite_add (region : List α) (off k : ℕ) (xs : List α) (h : off ≤ region.length) :
    (overwrite region off xs).take (off+xs.length+k) =
      region.take off ++ xs ++ (region.drop (off+xs.length)).take k := by
  have hl : (region.take off ++ xs).length = off+xs.length := by
    simp only [List.length_append,List.length_take]; omega
  rw [overwrite,← hl,List.take_length_add_append]

theorem drop_overwrite (region : List α) (off k : ℕ) (xs : List α) (h : off ≤ region.length) :
    (overwrite region off xs).drop (off+xs.length+k) = region.drop (off+xs.length+k) := by
  have hl : (region.take off ++ xs).length = off+xs.length := by
    simp only [List.length_append,List.length_take]; omega
  rw [overwrite,← hl,List.drop_length_add_append,hl,List.drop_drop]

@[simp] theorem overwrite_overwrite (region : List α) (off : ℕ) (xs ys : List α)
    (h : off ≤ region.length) (hl : xs.length = ys.length) :
    overwrite (overwrite region off xs) off ys = overwrite region off ys := by
  have hd := drop_overwrite region off 0 xs h
  have ht : (overwrite region off xs).take off = region.take off := by
    rw [overwrite,List.append_assoc,List.take_append_of_le_length (by simp [h]),List.take_take]
    simp
  simp only [Nat.add_zero] at hd
  rw [overwrite,ht,← hl,hd,overwrite,← hl]

def BlankFrom (fill : α) (region : List α) (off : ℕ) : Prop := ∀ x ∈ region.drop off, x = fill

instance [DecidableEq α] (fill : α) (region : List α) (off : ℕ) :
    Decidable (BlankFrom fill region off) := by unfold BlankFrom; infer_instance

theorem BlankFrom.drop_eq {fill : α} {region : List α} {off : ℕ} (h : BlankFrom fill region off) :
    region.drop off = List.replicate (region.length-off) fill := by
  rw [← List.length_drop]
  exact List.eq_replicate_of_mem h

theorem BlankFrom.mono {fill : α} {region : List α} {off off' : ℕ} (h : BlankFrom fill region off)
    (hle : off ≤ off') : BlankFrom fill region off' := by
  intro x hx
  obtain ⟨k,rfl⟩ := Nat.exists_eq_add_of_le hle
  rw [← List.drop_drop] at hx
  exact h x (List.mem_of_mem_drop hx)

theorem blankFrom_replicate (fill : α) (n off : ℕ) : BlankFrom fill (List.replicate n fill) off := by
  intro x hx
  exact List.eq_of_mem_replicate (List.mem_of_mem_drop hx)

theorem BlankFrom.overwrite {fill : α} {region : List α} {off : ℕ} (xs : List α)
    (h : BlankFrom fill region off) (hoff : off ≤ region.length) :
    BlankFrom fill (overwrite region off xs) (off+xs.length) := by
  have hd := drop_overwrite region off 0 xs hoff
  have hm := h.mono (Nat.le_add_right off xs.length)
  simp only [Nat.add_zero] at hd
  intro x hx
  rw [hd] at hx
  exact hm x hx

def roundUp (n len : ℕ) : ℕ := if len % n = 0 then len else len+(n-len % n)

theorem le_roundUp (n len : ℕ) : len ≤ roundUp n len := by
  unfold roundUp; split <;> omega

theorem dvd_roundUp (n len : ℕ) (hn : 0 < n) : n ∣ roundUp n len := by
  unfold roundUp
  split
  · exact Nat.dvd_of_mod_eq_zero ‹_›
  · have hlt := Nat.mod_lt len hn
    have hd := Nat.div_add_mod len n
    refine ⟨len/n+1,?_⟩
    rw [Nat.mul_add,Nat.mul_one]
    omega

@[simp] theorem roundUp_of_dvd {n len : ℕ} (h : n ∣ len) : roundUp n len = len := by
  simp [roundUp,Nat.mod_eq_zero_of_dvd h]

@[simp] theorem roundUp_zero (n : ℕ) : roundUp n 0 = 0 := by simp [roundUp]

theorem roundUp_add_of_dvd {n a : ℕ} (b : ℕ) (h : n ∣ a) : roundUp n (a+b) = a+roundUp n b := by
  obtain ⟨c,rfl⟩ := h
  simp only [roundUp,Nat.mul_add_mod]
  split <;> omega

def padTo (n : ℕ) (fill : α) (xs : List α) : List α :=
  xs ++ List.replicate (roundUp n xs.length-xs.length) fill

@[simp] theorem padTo_length (n : ℕ) (fill : α) (xs : List α) :
    (padTo n fill xs).length = roundUp n xs.length := by
  have h := le_roundUp n xs.length
  simp only [padTo,List.length_append,List.length_replicate]
  omega

@[simp] theorem padTo_nil (n : ℕ) (fill : α) : padTo n fill ([] : List α) = [] := by simp [padTo]

theorem padTo_of_dvd {n : ℕ} (fill : α) {xs : List α} (h : n ∣ xs.length) : padTo n fill xs = xs := by
  simp [padTo,h]

theorem take_padTo (n : ℕ) (fill : α) (xs : List α) : (padTo n fill xs).take xs.length = xs := by
  simp [padTo]

theorem padTo_append {n : ℕ} (fill : α) {xs : List α} (ys : List α) (h : n ∣ xs.length) :
    padTo n fill (xs++ys) = xs ++ padTo n fill ys := by
  simp only [padTo,List.length_append,roundUp_add_of_dvd ys.length h,List.append_assoc]
  rw [Nat.add_sub_add_left]

end Region
end ArchiveTarBuilder
