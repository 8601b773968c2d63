import Mathlib.Data.List.Nodup

/-! A table of answers in front of a service whose answers may change: it is asked for a key once.
-/
namespace MemoTable

structure Memo (κ ν : Type*) where
  table : List (κ × ν)
  asked : List κ
  deriving DecidableEq, Repr

variable {κ ν : Type*} [DecidableEq κ]

/-- The answer for a key; `f n` is what the service answers when it is asked after `n` other times.
-/
def ask (f : ℕ → κ → ν) (m : Memo κ ν) (k : κ) : ν × Memo κ ν :=
  match m.table.lookup k with
  | some v => (v,m)
  | none =>
    let v := f m.asked.length k
    (v,⟨m.table ++ [(k,v)],m.asked ++ [k]⟩)

/-- The service was asked once for every key, and the answers are kept. -/
structure Memo.Once (m : Memo κ ν) : Prop where
  kept : m.table.map Prod.fst = m.asked
  nodup : m.asked.Nodup

/-- The answers that are kept are those of a function. -/
def Memo.Tells (m : Memo κ ν) (g : κ → ν) : Prop := ∀ e ∈ m.table, e.2 = g e.1

variable {f : ℕ → κ → ν} {g : κ → ν} {m : Memo κ ν}

theorem mem_of_lookup {table : List (κ × ν)} {k : κ} {v : ν} (h : table.lookup k = some v) :
    (k,v) ∈ table := by
  obtain ⟨front,back,rfl,-⟩ := List.lookup_eq_some_iff.mp h
  simp

theorem Memo.Once.lookup_eq_none (h : m.Once) {k : κ} : m.table.lookup k = none ↔ k ∉ m.asked := by
  rw [List.lookup_eq_none_iff,← h.kept,List.mem_map]
  constructor
  · rintro hno ⟨e,he,rfl⟩
    exact absurd (hno e he) (by simp)
  · exact fun hno e he => bne_iff_ne.mpr fun hk => hno ⟨e,he,hk.symm⟩

theorem Memo.Once.ask (h : m.Once) (f : ℕ → κ → ν) (k : κ) : (ask f m k).2.Once := by
  rw [MemoTable.ask]
  split
  · exact h
  · rename_i hnone
    have hnew := h.lookup_eq_none.mp hnone
    refine ⟨by simp [h.kept],List.nodup_append.mpr ⟨h.nodup,List.nodup_singleton k,fun a ha b hb => ?_⟩⟩
    rw [List.mem_singleton.mp hb]
    exact fun heq => hnew (heq ▸ ha)

theorem Memo.Once.asked_ask (h : m.Once) (f : ℕ → κ → ν) (k : κ) :
    (MemoTable.ask f m k).2.asked = if k ∈ m.asked then m.asked else m.asked ++ [k] := by
  rw [MemoTable.ask]
  split
  · rename_i v hv
    have hmem : k ∈ m.asked := h.kept ▸ List.mem_map.mpr ⟨(k,v),mem_of_lookup hv,rfl⟩
    rw [if_pos hmem]
  · rename_i hnone
    rw [if_neg (h.lookup_eq_none.mp hnone)]

theorem Memo.Once.mem_asked_ask (h : m.Once) (f : ℕ → κ → ν) (k : κ) {x : κ} :
    x ∈ (MemoTable.ask f m k).2.asked ↔ x ∈ m.asked ∨ x = k := by
  rw [h.asked_ask]
  split_ifs with hk
  · exact ⟨Or.inl,fun hx => hx.elim id fun heq => heq ▸ hk⟩
  · rw [List.mem_append,List.mem_singleton]

theorem prefix_ask (f : ℕ → κ → ν) (m : Memo κ ν) (k : κ) : m.table <+: (ask f m k).2.table := by
  rw [ask]
  split
  · exact List.prefix_refl _
  · exact List.prefix_append _ _

omit [DecidableEq κ] in
theorem Memo.Tells.of_prefix {m' : Memo κ ν} (h : m'.Tells g) (hpre : m.table <+: m'.table) : m.Tells g :=
  fun e he => h e (hpre.subset he)

theorem ask_answer {k : κ} (h : (ask f m k).2.Tells g) : (ask f m k).1 = g k := by
  rw [ask] at h ⊢
  split at h
  · rename_i v hv
    exact h _ (mem_of_lookup hv)
  · exact h _ (List.mem_append_right _ (List.mem_singleton_self _))

theorem Memo.Tells.ask (h : m.Tells g) (hsteady : ∀ n k, f n k = g k) (k : κ) :
    (MemoTable.ask f m k).2.Tells g := by
  rw [MemoTable.ask]
  split
  · exact h
  · intro e he
    rcases List.mem_append.mp he with he | he
    · exact h e he
    · rw [List.mem_singleton.mp he]
      exact hsteady _ _

end MemoTable
