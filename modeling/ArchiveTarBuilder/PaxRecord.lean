import ArchiveTarBuilder.HeaderReadBack

/-! Pax records. A record starts with its own length, which the three rounds of
`b_header_compute_pax_length` always find. -/
namespace ArchiveTarBuilder
open Region CString Numeral

/-- The number of characters that `%d` prints for a small number. -/
def decimals (n : ℕ) : ℕ := (numeral 10 1 n).length

theorem decimals_le_iff {n k : ℕ} (hk : 0 < k) : decimals n ≤ k ↔ n < 10^k := by
  have h := Nat.digits_length_le_iff (b := 10) (by omega) (k := k) n
  rw [decimals,numeral_length,← h]
  omega

theorem decimals_pos (n : ℕ) : 0 < decimals n := by
  rw [decimals,numeral_length]
  omega

theorem decimals_mono {m n : ℕ} (h : m ≤ n) : decimals m ≤ decimals n :=
  (decimals_le_iff (decimals_pos n)).mpr
    (h.trans_lt ((decimals_le_iff (decimals_pos n)).mp le_rfl))

theorem decimals_add_le (n : ℕ) {k : ℕ} (hk : k ≤ 90) : decimals (n+k) ≤ decimals n+1 := by
  have hpos := decimals_pos n
  have hlt := (decimals_le_iff hpos).mp le_rfl
  have hten : 10 ≤ 10^decimals n := Nat.le_self_pow hpos.ne' 10
  rw [decimals_le_iff (by omega),pow_succ]
  omega

theorem decimals_add_two {n : ℕ} (h : decimals (n+1) = decimals n+1) :
    decimals (n+2) = decimals (n+1) := by
  have hpos := decimals_pos n
  have hlt := (decimals_le_iff hpos).mp le_rfl
  have hge : ¬n+1 < 10^decimals n := by rw [← decimals_le_iff hpos]; omega
  have hten : 10 ≤ 10^decimals n := Nat.le_self_pow hpos.ne' 10
  refine le_antisymm ?_ (decimals_mono (by omega))
  rw [h,decimals_le_iff (by omega),pow_succ]
  omega

theorem formatD_of_lt {n : ℕ} (h : n < 2^31) : formatD n = numeral 10 1 n := by
  simp only [formatD,Nat.mod_eq_of_lt (by omega : n < 2^32),h,if_true]

theorem paxRecord_length (len : ℕ) (key value : Bytes) (hnul : 0 ∉ value) :
    (paxRecord len key value).length = (formatD len).length+(key.length+value.length+3) := by
  simp only [paxRecord,cstr_of_not_mem value hnul,List.length_append,List.length_singleton]
  omega

/-- One round of `b_header_compute_pax_length`: the length of a record with `rest` characters
behind its number, from the number before. -/
def paxRound (rest x : ℕ) : ℕ := snprintfResult ((formatD x).length+rest)

theorem paxRound_of_lt {rest x : ℕ} (hx : x < 2^31) (h : decimals x+rest < 2^31) :
    paxRound rest x = decimals x+rest := by
  have hd : (formatD x).length = decimals x := by rw [formatD_of_lt hx]; rfl
  rw [paxRound,snprintfResult,hd,if_pos h]

theorem paxRound_fails {rest x : ℕ} (h : 2^31 ≤ (formatD x).length+rest) :
    paxRound rest x = 2^64-1 := by
  simp only [paxRound,snprintfResult,not_lt.mpr h,if_false]

theorem computePaxLength_eq {path key : Bytes} (hnul : 0 ∉ path) :
    bHeaderComputePaxLength path key = paxRound (key.length+path.length+3)
      (paxRound (key.length+path.length+3) (paxRound (key.length+path.length+3) path.length)) := by
  simp only [bHeaderComputePaxLength,paxRecord_length _ key path hnul,paxRound]

theorem decimals_le_ten {x : ℕ} (h : x < 2^31) : decimals x ≤ 10 :=
  (decimals_le_iff (by omega)).mpr (by omega)

theorem ten_le_decimals {x : ℕ} (h : 10^9 ≤ x) : 10 ≤ decimals x := by
  have hnine := (decimals_le_iff (n := x) (by omega : 0 < 9)).not.mpr (by omega)
  omega

theorem paxRound_fixed {n rest : ℕ} (hn : n < 2^31) (hrest : n+3 ≤ rest) (hrest' : rest ≤ n+11)
    (hfits : decimals n+rest < 2^31) :
    ∃ x < 2^31, paxRound rest (paxRound rest (paxRound rest n)) = x ∧ decimals x+rest = x := by
  have hnext {x : ℕ} (hx : x < 2^31) (hle : n ≤ x) : decimals x+rest < 2^31 := by
    by_contra hbig
    have hten := decimals_le_ten hx
    have hn' := ten_le_decimals (x := n) (by omega)
    omega
  have hx₁ := paxRound_of_lt hn hfits
  have hfits₁ := hnext hfits (by omega)
  have hx₂ := paxRound_of_lt hfits hfits₁
  have hfits₂ := hnext hfits₁ (by omega)
  have hx₃ := paxRound_of_lt hfits₁ hfits₂
  refine ⟨decimals (decimals (decimals n+rest)+rest)+rest,hfits₂,by rw [hx₁,hx₂,hx₃],?_⟩
  -- the number of digits can grow in the second round, but then it does not in the third
  have hten := decimals_le_ten hn
  have hgrow := decimals_add_le n (k := decimals n+rest-n) (by omega)
  have hmono := decimals_mono (m := n) (n := decimals n+rest) (by omega)
  rw [show n+(decimals n+rest-n) = decimals n+rest by omega] at hgrow
  generalize hx : decimals n+rest = x₁ at *
  rcases (by omega : decimals x₁ = decimals n ∨ decimals x₁ = decimals n+1) with hsame | hmore
  · rw [hsame,hx,hsame,hx,hsame]
    omega
  · have hx₂' : decimals x₁+rest = x₁+1 := by omega
    have hone := decimals_add_le x₁ (k := 1) (by omega)
    have hmono' := decimals_mono (m := x₁) (n := x₁+1) (by omega)
    rw [hx₂']
    rcases (by omega : decimals (x₁+1) = decimals x₁ ∨ decimals (x₁+1) = decimals x₁+1)
      with hsame | hjump
    · rw [hsame,hx₂',hsame]
      omega
    · have hstop := decimals_add_two hjump
      rw [show decimals (x₁+1)+rest = x₁+2 by omega,hstop]
      omega

theorem paxRound_overflow {n rest : ℕ} (hn : n < 2^31) (hrest : rest ≤ n+11)
    (hbig : 2^31 ≤ decimals n+rest) :
    paxRound rest (paxRound rest (paxRound rest n)) = 2^64-1 := by
  have hd : (formatD n).length = decimals n := by rw [formatD_of_lt hn]; rfl
  have hten := decimals_le_ten hn
  have hx₁ : paxRound rest n = 2^64-1 := paxRound_fails (by omega)
  have hminus : (formatD (2^64-1)).length = 2 := by decide +kernel
  rw [hx₁]
  by_cases hfits : 2+rest < 2^31
  · have hx₂ : paxRound rest (2^64-1) = 2+rest := by
      simp only [paxRound,hminus,snprintfResult,hfits,if_true]
    have hd₂ : (formatD (2+rest)).length = decimals (2+rest) := by rw [formatD_of_lt hfits]; rfl
    have hlong := ten_le_decimals (x := 2+rest) (by omega)
    rw [hx₂]
    exact paxRound_fails (by omega)
  · have hx₂ : paxRound rest (2^64-1) = 2^64-1 := paxRound_fails (by omega)
    rw [hx₂,hx₂]

/-- The length of a pax record is the length it states, unless `snprintf` fails. -/
theorem computePaxLength_fixed {path key : Bytes} (hnul : 0 ∉ path) (hkey : key.length ≤ 8)
    (hlen : bHeaderComputePaxLength path key ≠ 2^64-1) :
    bHeaderComputePaxLength path key < 2^31 ∧
      (paxRecord (bHeaderComputePaxLength path key) key path).length =
        bHeaderComputePaxLength path key := by
  rw [computePaxLength_eq hnul] at hlen ⊢
  by_cases hn : path.length < 2^31
  · by_cases hfits : decimals path.length+(key.length+path.length+3) < 2^31
    · obtain ⟨x,hx,heq,hfix⟩ := paxRound_fixed hn (by omega) (by omega) hfits
      rw [heq,paxRecord_length x key path hnul,formatD_of_lt hx]
      exact ⟨hx,hfix⟩
    · exact absurd (paxRound_overflow hn (by omega) (by omega)) hlen
  · have hfails (x : ℕ) : paxRound (key.length+path.length+3) x = 2^64-1 :=
      paxRound_fails (by omega)
    exact absurd (hfails _) hlen

/-- The length is found for every string that leaves room for the rest of its record. -/
theorem computePaxLength_ne {path key : Bytes} (hnul : 0 ∉ path) (hkey : key.length ≤ 8)
    (hlen : path.length+21 < 2^31) : bHeaderComputePaxLength path key ≠ 2^64-1 := by
  have hten := decimals_le_ten (x := path.length) (by omega)
  obtain ⟨x,hx,heq,-⟩ := @paxRound_fixed path.length (key.length+path.length+3)
    (by omega) (by omega) (by omega) (by omega)
  rw [computePaxLength_eq hnul,heq]
  omega

theorem paxRecord_eq {len : ℕ} (hlen : len < 2^31) (key : Bytes) {value : Bytes} (hnul : 0 ∉ value) :
    paxRecord len key value = numeral 10 1 len ++ 32::(key ++ 61::(value ++ [10])) := by
  simp [paxRecord,formatD_of_lt hlen,cstr_of_not_mem value hnul]

theorem nextPaxRecord_append {len : ℕ} {key value : Bytes} (hlen : len < 2^31)
    (hself : (paxRecord len key value).length = len) (hnul : 0 ∉ value) (hkey : 61 ∉ key)
    (rest : Bytes) :
    nextPaxRecord (paxRecord len key value ++ rest) = some ((key,value),rest) := by
  have htext := paxRecord_eq hlen key hnul
  have hnum := takeWhile_numeral (b := 10) (by omega) (by omega) 1 len
    (32::(key ++ 61::(value ++ [10])) ++ rest) (by simp [isDigit])
  have hvalue := value_numeral (b := 10) (by omega) (by omega) 1 len
  have hdigits : (paxRecord len key value ++ rest).takeWhile (isDigit 10) = numeral 10 1 len := by
    rw [htext,List.append_assoc]; exact hnum
  have htake : (paxRecord len key value ++ rest).take len = paxRecord len key value :=
    List.take_left' hself
  have hdrop : (paxRecord len key value ++ rest).drop len = rest := List.drop_left' hself
  have hbody : (paxRecord len key value).drop ((numeral 10 1 len).length+1) =
      key ++ 61::(value ++ [10]) := by
    rw [htext,List.drop_append]
    simp
  have hkeyeq : (key ++ 61::(value ++ [10])).takeWhile (· ≠ 61) = key := by
    have hall : ∀ c ∈ key, decide (c ≠ 61) = true := by
      intro c hc
      simpa using fun he : c = 61 => hkey (he ▸ hc)
    rw [List.takeWhile_append_of_pos hall]
    simp
  have hvalueeq : (key ++ 61::(value ++ [10])).drop (key.length+1) = value ++ [10] := by
    rw [List.drop_append]
    simp
  have hblank : (paxRecord len key value ++ rest).getD (numeral 10 1 len).length 0 = 32 := by
    rw [htext]
    simp [List.getD_eq_getElem?_getD]
  have hlong : (numeral 10 1 len).length < len := by
    have hl := congrArg List.length htext
    rw [hself] at hl
    simp only [List.length_append,List.length_cons] at hl
    omega
  simp only [nextPaxRecord,hdigits,hvalue,htake,hdrop,hbody,hkeyeq,hvalueeq,hblank]
  rw [if_neg]
  · simp
  · simp only [List.length_append,hself,not_or,not_lt,not_le]
    exact ⟨hlong,by omega,by simp,by simp⟩

theorem paxRecords_cons {len fuel : ℕ} {key value rest : Bytes} (hlen : len < 2^31)
    (hself : (paxRecord len key value).length = len) (hnul : 0 ∉ value) (hkey : 61 ∉ key)
    {records : List (Bytes × Bytes)} (hrest : paxRecords fuel rest = some records) :
    paxRecords (fuel+1) (paxRecord len key value ++ rest) = some ((key,value)::records) := by
  have hne : paxRecord len key value ++ rest ≠ [] := by
    intro he
    have hl := congrArg List.length (paxRecord_eq hlen key hnul)
    rw [(List.append_eq_nil_iff.mp he).1] at hl
    simp at hl
  rw [paxRecords,if_neg hne,nextPaxRecord_append hlen hself hnul hkey rest]
  simp [hrest]

theorem paxRecords_nil (fuel : ℕ) : paxRecords (fuel+1) [] = some [] := by simp [paxRecords]

def wantedRecords (path : Bytes) (linkdest : Option Bytes) : List (Bytes × Bytes) :=
  (pathKey,path)::(linkdest.map fun dest => (linkpathKey,dest)).toList

/-- The text of the records: its length is the size field of the pax header, and the reader gets
the records back. -/
theorem paxText_records {path : Bytes} {linkdest : Option Bytes} (hnul : 0 ∉ path)
    (hpath : bHeaderComputePaxLength path pathKey ≠ 2^64-1)
    (hdest : ∀ dest ∈ linkdest, 0 ∉ dest ∧ bHeaderComputePaxLength dest linkpathKey ≠ 2^64-1) :
    (paxText path linkdest).length = paxSize path linkdest ∧ paxSize path linkdest < 8^11 ∧
      paxRecords ((paxText path linkdest).length+1) (paxText path linkdest) =
        some (wantedRecords path linkdest) := by
  obtain ⟨hlt,hself⟩ := computePaxLength_fixed hnul (by decide) hpath
  have hkey : (61 : UInt8) ∉ pathKey := by decide
  have hlkey : (61 : UInt8) ∉ linkpathKey := by decide
  have hpos : 0 < bHeaderComputePaxLength path pathKey := by
    have hl := paxRecord_length (bHeaderComputePaxLength path pathKey) pathKey path hnul
    omega
  cases linkdest with
  | none =>
    have hsize : paxSize path none = bHeaderComputePaxLength path pathKey := by
      simp only [paxSize,Option.map_none,Option.getD_none,Nat.add_zero,sizeT]
      exact Nat.mod_eq_of_lt (by omega)
    have htext : paxText path none = paxRecord (bHeaderComputePaxLength path pathKey) pathKey path := by
      simp only [paxText,hsize]
      exact List.take_of_length_le (by omega)
    obtain ⟨fuel,hfuel⟩ := Nat.exists_eq_add_of_lt hpos
    rw [htext,hsize,hself]
    refine ⟨rfl,by omega,?_⟩
    have h := paxRecords_cons hlt hself hnul hkey (paxRecords_nil fuel)
    rw [List.append_nil] at h
    rw [show bHeaderComputePaxLength path pathKey = fuel+1 by omega] at h ⊢
    exact h
  | some dest =>
    obtain ⟨hdnul,hdlen⟩ := hdest dest rfl
    obtain ⟨hlt',hself'⟩ := computePaxLength_fixed hdnul (by decide) hdlen
    have hpos' : 0 < bHeaderComputePaxLength dest linkpathKey := by
      have hl := paxRecord_length (bHeaderComputePaxLength dest linkpathKey) linkpathKey dest hdnul
      omega
    simp only [paxSize,paxText,wantedRecords,Option.map_some,Option.getD_some,sizeT,
      Option.toList_some]
    generalize bHeaderComputePaxLength path pathKey = len at *
    generalize bHeaderComputePaxLength dest linkpathKey = len' at *
    have hsum : (len+len') % 2^64 = len+len' := Nat.mod_eq_of_lt (by omega)
    have hroom : len'+1 < 2^64 := by omega
    have htext : overwrite ((paxRecord len pathKey path).take (len+len')) len
        ((paxRecord len' linkpathKey dest).take len') =
        paxRecord len pathKey path ++ (paxRecord len' linkpathKey dest ++ []) := by
      rw [List.take_of_length_le (by omega),List.take_of_length_le hself'.le,overwrite,
        List.take_of_length_le hself.le,List.drop_eq_nil_of_le (by omega),List.append_assoc]
    rw [hsum,if_pos hroom,htext]
    refine ⟨by simp only [List.length_append,List.length_nil,hself,hself',Nat.add_zero],by omega,?_⟩
    simp only [List.length_append,List.length_nil,hself,hself',Nat.add_zero]
    obtain ⟨fuel,hfuel⟩ := Nat.exists_eq_add_of_lt (Nat.add_pos_left hpos len')
    obtain ⟨fuel',rfl⟩ : ∃ k, fuel = k+1 := ⟨fuel-1,by omega⟩
    rw [show len+len' = fuel'+1+1 by omega]
    exact paxRecords_cons hlt hself hnul hkey
      (paxRecords_cons hlt' hself' hdnul hlkey (paxRecords_nil fuel'))

end ArchiveTarBuilder
