import ArchiveTarBuilder.Find
import ArchiveTarBuilder.LiteralPatterns

/-! What an exclusion of a path says of the paths below it. A match of a path goes on to hold of
those, but where it ends at a `.` that is no component, or at the `/` of the root. -/
namespace ArchiveTarBuilder
open CString

/-- The rest of a clean path: behind every slash stands a component other than `.`. -/
structure Descends (u : Bytes) : Prop where
  slashes : ∀ w, slash::w <:+ u → w ≠ [] ∧ w.headD 0 ≠ slash ∧
    ¬(w.headD 0 = 46 ∧ w.tail.headD 0 = slash) ∧ w ≠ dot
  nul : 0 ∉ u

/-- What is put behind a directory: a relative path without a `.` in front. -/
structure BelowPath (t : Bytes) : Prop where
  nonempty : t ≠ []
  start : t.headD 0 ≠ slash
  dot : t.headD 0 = 46 → t.tail.headD 0 ≠ slash ∧ t.tail.headD 0 ≠ 0

theorem Descends.suffix {u v : Bytes} (h : Descends u) (hv : v <:+ u) : Descends v where
  slashes := fun w hw => h.slashes w (hw.trans hv)
  nul := fun hmem => h.nul (hv.subset hmem)

theorem headD_append {u : Bytes} (hu : u ≠ []) (e : Bytes) : (u ++ e).headD 0 = u.headD 0 := by
  obtain ⟨c,u,rfl⟩ := List.exists_cons_of_ne_nil hu
  rfl

theorem tail_append {u : Bytes} (hu : u ≠ []) (e : Bytes) : (u ++ e).tail = u.tail ++ e := by
  obtain ⟨c,u,rfl⟩ := List.exists_cons_of_ne_nil hu
  rfl

theorem Descends.dot {u : Bytes} (h : Descends u) (hne : u ≠ ArchiveTarBuilder.dot)
    (hdot : u.headD 0 = 46) : u.tail ≠ [] ∧ u.tail.headD 0 ≠ 0 := by
  cases u with
  | nil => simp at hdot
  | cons c u =>
    obtain rfl : c = 46 := hdot
    cases u with
    | nil => exact absurd rfl hne
    | cons d u => exact ⟨List.cons_ne_nil d u,fun hd => h.nul (by simp [show d = 0 from hd])⟩

section
variable {u t : Bytes} (h : Descends u)
include h

theorem Descends.slashskip (hslash : u.headD 0 = slash) (e : Bytes) :
    u.tail ≠ [] ∧ pmSlashskip u = u.tail ∧ pmSlashskip (u ++ e) = u.tail ++ e := by
  cases u with
  | nil => cases hslash
  | cons c w =>
    obtain rfl : c = slash := hslash
    obtain ⟨hne,hhead,hdot,hlone⟩ := h.slashes w List.suffix_rfl
    have hskip {v : Bytes} (hv : v.headD 0 = w.headD 0)
        (hv' : w.headD 0 = 46 → v.tail.headD 0 = w.tail.headD 0) :
        pmSlashskip (slash::v) = v := by
      rw [pmSlashskip,if_pos (.inl rfl)]
      refine pmSlashskip_start (hv ▸ hhead) fun hvdot => ?_
      have hwdot : w.headD 0 = 46 := hv ▸ hvdot
      rw [hv' hwdot]
      exact ⟨fun hs => hdot ⟨hwdot,hs⟩,((h.suffix (List.suffix_cons slash w)).dot hlone hwdot).2⟩
    refine ⟨hne,hskip rfl fun _ => rfl,?_⟩
    refine @hskip (w ++ e) (headD_append hne e) fun hwdot => ?_
    rw [tail_append hne,headD_append ((h.suffix (List.suffix_cons slash w)).dot hlone hwdot).1]

theorem Descends.dotskip (hu : u ≠ []) (hlone : u ≠ ArchiveTarBuilder.dot) (e : Bytes) :
    pmDotskip u ≠ [] ∧ pmDotskip (u ++ e) = pmDotskip u ++ e := by
  by_cases hdot : u.headD 0 = 46
  · obtain ⟨htail,-⟩ := h.dot hlone hdot
    rw [pmDotskip,pmDotskip,headD_append hu,tail_append hu,
      headD_append htail]
    by_cases hslash : u.tail.headD 0 = slash
    · obtain ⟨hne,hskip,hskip'⟩ := (h.suffix (List.tail_suffix u)).slashskip hslash e
      rw [if_pos ⟨hdot,hslash⟩,if_pos ⟨hdot,hslash⟩,hskip,hskip']
      exact ⟨hne,rfl⟩
    · rw [if_neg fun hh => hslash hh.2,if_neg fun hh => hslash hh.2]
      exact ⟨hu,rfl⟩
  · rw [pmDotskip,pmDotskip,headD_append hu,
      if_neg fun hh => hdot hh.1,if_neg fun hh => hdot hh.1]
    exact ⟨hu,rfl⟩

end

theorem mem_behindSlashes {v w : Bytes} (hw : w ∈ behindSlashes v) : slash::w <:+ v := by
  induction v with
  | nil => simp [behindSlashes] at hw
  | cons c v ih =>
    rw [behindSlashes] at hw
    split_ifs at hw with hc hslash
    · simp at hw
    · subst hslash
      rcases List.mem_cons.mp hw with rfl | hw
      · exact List.suffix_rfl
      · exact (ih hw).trans (List.suffix_cons slash v)
    · exact (ih hw).trans (List.suffix_cons c v)

theorem behindSlashes_append {v w e : Bytes} (hv : 0 ∉ v) (hw : w ∈ behindSlashes v) :
    w ++ e ∈ behindSlashes (v ++ e) := by
  induction v with
  | nil => simp [behindSlashes] at hw
  | cons c v ih =>
    obtain ⟨hc,hv'⟩ := not_or.mp (List.mem_cons.not.mp hv)
    rw [behindSlashes,if_neg (Ne.symm hc)] at hw
    rw [List.cons_append,behindSlashes,if_neg (Ne.symm hc)]
    split_ifs at hw ⊢
    · rcases List.mem_cons.mp hw with rfl | hw
      · exact List.mem_cons_self
      · exact List.mem_cons_of_mem _ (ih hv' hw)
    · exact ih hv' hw

theorem Descends.starts {u v : Bytes} (h : Descends u) (hu : u ≠ [])
    (hlone : u ≠ ArchiveTarBuilder.dot) (e : Bytes) (hv : v ∈ elementStarts u) :
    v ≠ [] ∧ v ≠ ArchiveTarBuilder.dot ∧ v <:+ u ∧ v ++ e ∈ elementStarts (u ++ e) := by
  obtain ⟨w,hne,hlone',hsuffix,hstarts,hstarts'⟩ : ∃ w, w ≠ [] ∧ w ≠ ArchiveTarBuilder.dot ∧
      w <:+ u ∧ elementStarts u = w::behindSlashes w ∧
      elementStarts (u ++ e) = (w ++ e)::behindSlashes (w ++ e) := by
    by_cases hslash : u.headD 0 = slash
    · obtain ⟨c,w,rfl⟩ := List.exists_cons_of_ne_nil hu
      obtain rfl : c = slash := hslash
      obtain ⟨hne,-,-,hlone'⟩ := h.slashes w List.suffix_rfl
      exact ⟨w,hne,hlone',List.suffix_cons slash w,rfl,rfl⟩
    · refine ⟨u,hu,hlone,List.suffix_rfl,?_,?_⟩
      · simp only [elementStarts,if_neg hslash]
      · simp only [elementStarts,headD_append hu,if_neg hslash]
  rw [hstarts] at hv
  rw [hstarts']
  rcases List.mem_cons.mp hv with rfl | hv
  · exact ⟨hne,hlone',hsuffix,List.mem_cons_self⟩
  · have hbehind := (mem_behindSlashes hv).trans hsuffix
    obtain ⟨hne',-,-,hlone''⟩ := h.slashes v hbehind
    exact ⟨hne',hlone'',(List.suffix_cons slash v).trans hbehind,
      List.mem_cons_of_mem _ (behindSlashes_append (h.suffix hsuffix).nul hv)⟩

theorem dropWhile_start {s : Bytes} (hslash : s.headD 0 ≠ slash) : s.dropWhile (· = slash) = s := by
  cases s with
  | nil => rfl
  | cons c s => exact List.dropWhile_cons_of_neg (by simpa using hslash)

theorem Descends.dropSlash {u : Bytes} (h : Descends u) (hu : u ≠ [])
    (hlone : u ≠ ArchiveTarBuilder.dot) (e : Bytes) :
    ∃ w, w ≠ [] ∧ w ≠ ArchiveTarBuilder.dot ∧ w <:+ u ∧ u.dropWhile (· = slash) = w ∧
      (u ++ e).dropWhile (· = slash) = w ++ e := by
  by_cases hslash : u.headD 0 = slash
  · cases u with
    | nil => exact absurd rfl hu
    | cons c w =>
      obtain rfl : c = slash := hslash
      obtain ⟨hne,hhead,-,hlone'⟩ := h.slashes w List.suffix_rfl
      refine ⟨w,hne,hlone',List.suffix_cons slash w,?_,?_⟩
      · rw [List.dropWhile_cons_of_pos (by simp),dropWhile_start hhead]
      · rw [List.cons_append,List.dropWhile_cons_of_pos (by simp)]
        exact dropWhile_start (headD_append hne e ▸ hhead)
  · exact ⟨u,hu,hlone,List.suffix_rfl,dropWhile_start hslash,
      dropWhile_start (headD_append hu e ▸ hslash)⟩

theorem places_append {u v e : Bytes} (hu : 0 ∉ u) (hv : v ∈ places u) : v ++ e ∈ places (u ++ e) := by
  induction u with
  | nil => simp [places] at hv
  | cons c u ih =>
    obtain ⟨hc,hu'⟩ := not_or.mp (List.mem_cons.not.mp hu)
    rw [places,if_neg (Ne.symm hc)] at hv
    rw [List.cons_append,places,if_neg (Ne.symm hc)]
    rcases List.mem_cons.mp hv with rfl | hv
    · exact List.mem_cons_self
    · exact List.mem_cons_of_mem _ (ih hu' hv)

def PmAttempt.below (e : Bytes) (a : PmAttempt) : PmAttempt := { a with path := a.path ++ e }

theorem pmCall_below {p u : Bytes} {flags : PathmatchFlags} (h : Descends u) (hu : u ≠ [])
    (hlone : u ≠ dot) (e : Bytes) :
    (pmCall p u flags).path ≠ [] ∧ (pmCall p u flags).path <:+ u ∧
      pmCall p (u ++ e) flags = (pmCall p u flags).below e := by
  obtain ⟨hne,hskip⟩ := h.dotskip hu hlone e
  exact ⟨hne,pmDotskip_suffix u,by rw [pmCall,hskip]; rfl⟩

/-- The calls of `pm` for a path are among those for a path below, each with the path below. -/
theorem pmCalls_below {p u : Bytes} {flags : PathmatchFlags} (h : Descends u) (hu : u ≠ [])
    (hlone : u ≠ dot) (e : Bytes) {a : PmAttempt} (ha : a ∈ pmCalls p u flags) :
    a.path ≠ [] ∧ a.path <:+ u ∧ a.flags.noAnchorEnd = flags.noAnchorEnd ∧
      a.below e ∈ pmCalls p (u ++ e) flags := by
  have hfrom {p : Bytes} {flags : PathmatchFlags} (ha : a ∈ pmCallsFrom p u flags) :
      a.path ≠ [] ∧ a.path <:+ u ∧ a.flags.noAnchorEnd = flags.noAnchorEnd ∧
        a.below e ∈ pmCallsFrom p (u ++ e) flags := by
    rw [pmCallsFrom] at ha
    rw [pmCallsFrom,headD_append hu]
    split_ifs at ha ⊢ with hfail hslash hany
    · simp at ha
    · obtain ⟨w,hne,hlone',hsuffix,hw,hw'⟩ := h.dropSlash hu hlone e
      obtain rfl := List.mem_singleton.mp ha
      rw [hw,hw']
      obtain ⟨hne',hsuffix',hcall⟩ := @pmCall_below (p.dropWhile (· = slash)) w flags
        (h.suffix hsuffix) hne hlone' e
      exact ⟨hne',hsuffix'.trans hsuffix,rfl,by rw [hcall]; simp⟩
    · obtain ⟨v,hv,rfl⟩ := List.mem_map.mp ha
      obtain ⟨hne,hlone',hsuffix,hstart⟩ := h.starts hu hlone e hv
      obtain ⟨hne',hsuffix',hcall⟩ := @pmCall_below p v flags (h.suffix hsuffix) hne hlone' e
      exact ⟨hne',hsuffix'.trans hsuffix,rfl,List.mem_map.mpr ⟨v ++ e,hstart,hcall⟩⟩
    · obtain rfl := List.mem_singleton.mp ha
      obtain ⟨hne',hsuffix',hcall⟩ := @pmCall_below p u flags h hu hlone e
      exact ⟨hne',hsuffix',rfl,by rw [hcall]; simp⟩
  cases p with
  | nil => simp [pmCalls] at ha
  | cons b p =>
    rw [pmCalls] at ha ⊢
    split_ifs at ha ⊢
    · exact hfrom ha
    · exact hfrom ha

structure Classless (p : Bytes) : Prop where
  nul : 0 ∉ p
  plain : 91 ∉ p

theorem Classless.suffix {p q : Bytes} (h : Classless p) (hq : q <:+ p) : Classless q where
  nul := fun hmem => h.nul (hq.subset hmem)
  plain := fun hmem => h.plain (hq.subset hmem)

section
variable (charLe : UInt8 → UInt8 → Bool) (root : Bool)

/-- A round that keeps off what fails for the paths below: to begin anew at a final `.` behind `*`,
to end at a `$`, and to come to the end of the path `/` with more than `*`s left. -/
def openRound (loop : Bytes → Bytes → PathmatchFlags → Bool) (p s : Bytes) (flags : PathmatchFlags) :
    Bool :=
  if root = true ∧ s = [] then onlyStars p
  else if p.headD 0 = 42 ∧ p.tail.dropWhile (· = 42) ≠ [] then
    (places s).any fun t => decide (t ≠ dot) && pathmatchBy loop (p.tail.dropWhile (· = 42)) t flags
  else if p = [36] ∧ flags.noAnchorEnd = true then false
  else pmRound charLe loop p s flags

def openLoop : ℕ → Bytes → Bytes → PathmatchFlags → Bool
  | 0,_,_,_ => false
  | fuel+1,p,s,flags => openRound charLe root (openLoop fuel) p s flags

def openMatch (p s : Bytes) (flags : PathmatchFlags) : Bool :=
  pathmatchBy (openLoop charLe root (p.length+1)) p s flags

end

theorem pmSlashskip_head (s : Bytes) : (pmSlashskip s).headD 0 ≠ slash ∧
    ¬((pmSlashskip s).headD 0 = 46 ∧ (pmSlashskip s).tail.headD 0 = slash) := by
  induction s with
  | nil => exact ⟨by decide,by simp [pmSlashskip]⟩
  | cons c s ih =>
    rw [pmSlashskip]
    split_ifs with hskip
    · exact ih
    · obtain ⟨hslash,hdot⟩ := not_or.mp hskip
      exact ⟨hslash,fun h => hdot ⟨h.1,.inl h.2⟩⟩

section
variable {charLe : UInt8 → UInt8 → Bool} {flags : PathmatchFlags}

theorem openLoop_end (fuel : ℕ) {q : Bytes} (hq : Classless q) (hend : flags.noAnchorEnd = true)
    (h : openLoop charLe false (fuel+1) q [] flags = true) :
    q = [] ∨ onlyStars q = true ∨ q.headD 0 = slash := by
  cases q with
  | nil => exact .inl rfl
  | cons b q =>
    have hb : b ≠ 0 := fun hb => hq.nul (by simp [hb])
    have hclass : b ≠ 91 := fun hb => hq.plain (by simp [hb])
    simp only [openLoop,openRound,Bool.false_eq_true,if_false,List.headD_cons,List.tail_cons,
      places,List.any_nil,hend,and_true] at h
    split_ifs at h with hstars hdollar
    simp only [pmRound,List.headD_nil,List.tail_nil,if_true,if_neg hclass] at h
    by_cases hstar : b = 42
    · subst hstar
      exact .inr (.inl ((Cursor.onlyStars_iff q).mpr (not_not.mp fun hne => hstars ⟨rfl,hne⟩)))
    by_cases hslash : b = slash
    · exact .inr (.inr hslash)
    simp only [if_neg hstar,if_neg hslash] at h
    by_cases hone : b = 63
    · simp [hone] at h
    by_cases hescape : b = 92
    · cases q with
      | nil => simp [hescape] at h
      | cons d q =>
        have hd : d ≠ 0 := fun hd => hq.nul (by simp [hd])
        simp [hescape,hd] at h
    simp only [if_neg hone,if_neg hescape,ne_eq,hb,not_false_eq_true,if_true] at h
    split_ifs at h with hlast
    exact absurd (by rw [hlast.1,hlast.2.1]) hdollar

variable {t : Bytes} (ht : BelowPath t) (hend : flags.noAnchorEnd = true)
include ht hend

theorem openLoop_below_end (fuel : ℕ) {p : Bytes} (hp : Classless p)
    (h : openLoop charLe false fuel p [] flags = true) :
    pmLoop charLe fuel p (slash::t) flags = true := by
  cases fuel with
  | zero => cases h
  | succ fuel =>
    rcases openLoop_end fuel hp hend h with rfl | hstars | hslash
    · simp [pmLoop,pmRound,hend]
    · exact pmLoop_stars fuel hstars _ flags
    · cases p with
      | nil => cases hslash
      | cons b q =>
        obtain rfl : b = slash := hslash
        have hskip : pmSlashskip (slash::t) = t := by
          rw [pmSlashskip,if_pos (.inl rfl)]
          exact pmSlashskip_start ht.start ht.dot
        simp only [openLoop,openRound,Bool.false_eq_true,false_and,if_false,pmLoop,pmRound,
          if_neg (show ¬slash = 63 by decide),show ¬slash = 42 by decide,
          if_neg (show ¬slash = 91 by decide),if_neg (show ¬slash = 92 by decide),if_true,hend,and_true,
          List.headD_nil,List.headD_cons,ne_eq,not_true_eq_false,false_and,and_false,if_false,hskip] at h ⊢
        split_ifs at h ⊢ with hnil
        · rfl
        · -- behind the slashes only `*`s are left
          cases fuel with
          | zero => cases h
          | succ fuel =>
            have hq := hp.suffix ((pmSlashskip_suffix q).trans (List.suffix_cons slash q))
            rcases openLoop_end fuel hq hend h with hnil' | hstars | hslash
            · exact absurd hnil' hnil
            · exact pmLoop_stars fuel hstars t flags
            · exact absurd hslash (pmSlashskip_head q).1

theorem openLoop_below (fuel : ℕ) {p u : Bytes} (hp : Classless p) (hu : Descends u)
    (h : openLoop charLe false fuel p u flags = true) :
    pmLoop charLe fuel p (u ++ slash::t) flags = true := by
  induction fuel generalizing p u flags with
  | zero => cases h
  | succ fuel ih =>
    by_cases hnil : u = []
    · subst hnil
      exact openLoop_below_end ht hend (fuel+1) hp h
    have hhead := headD_append hnil (slash::t)
    have hc : u.headD 0 ≠ 0 := fun hc => hnil ((Cursor.headD_eq_zero hu.nul).mp hc)
    have hon {q : Bytes} (hq : q <:+ p) (hmatch : openLoop charLe false fuel q u.tail flags = true) :
        pmLoop charLe fuel q (u ++ slash::t).tail flags = true := by
      rw [tail_append hnil]
      exact ih hend (hp.suffix hq) (hu.suffix (List.tail_suffix u)) hmatch
    rw [openLoop,openRound,if_neg (by simp)] at h
    cases p with
    | nil =>
      rw [if_neg (by simp),if_neg (by simp)] at h
      simp only [pmLoop,pmRound,hhead,hend,Bool.true_or,hc] at h ⊢
      split_ifs at h ⊢ with hslash
      · rfl
      · exact h
    | cons b q =>
      have hclass : b ≠ 91 := fun hb => hp.plain (by simp [hb])
      have hq := List.suffix_cons b q
      rw [List.headD_cons,List.tail_cons] at h
      by_cases hstars : b = 42 ∧ q.dropWhile (· = 42) ≠ []
      · -- behind `*` it begins anew
        obtain ⟨rfl,hne⟩ := hstars
        rw [if_pos ⟨rfl,hne⟩] at h
        have hrest := (List.dropWhile_suffix (l := q) fun x => decide (x = 42)).trans hq
        obtain ⟨v,hv,hmatch⟩ := List.any_eq_true.mp h
        obtain ⟨hlone,hmatch⟩ := Bool.and_eq_true_iff.mp hmatch
        obtain ⟨hsuffix,hne'⟩ := mem_places hv
        rw [pathmatchBy_any _ hne] at hmatch
        obtain ⟨a,ha,hloop⟩ := List.any_eq_true.mp hmatch
        obtain ⟨-,hpath,hflags,hbelow⟩ := pmCalls_below (hu.suffix hsuffix) hne'
          (of_decide_eq_true hlone) (slash::t) ha
        have hany : (places (u ++ slash::t)).any (fun v =>
            pathmatchBy (pmLoop charLe fuel) (q.dropWhile (· = 42)) v flags) = true := by
          refine List.any_eq_true.mpr ⟨v ++ slash::t,places_append hu.nul hv,?_⟩
          rw [pathmatchBy_any _ hne]
          exact List.any_eq_true.mpr ⟨a.below (slash::t),hbelow,ih (hflags.trans hend)
            (hp.suffix ((mem_pmCalls ha).1.trans hrest)) (hu.suffix (hpath.trans hsuffix)) hloop⟩
        simp only [pmLoop,pmRound,if_neg (show ¬(42 : UInt8) = 63 by decide),if_true,if_neg hne]
        exact hany
      rw [if_neg hstars] at h
      split_ifs at h with hdollar'
      simp only [pmLoop,pmRound,hhead,if_neg hclass] at h ⊢
      by_cases hone : b = 63
      · simp only [if_pos hone,if_neg hc] at h ⊢
        exact hon hq h
      simp only [if_neg hone] at h ⊢
      by_cases hstar : b = 42
      · rw [if_pos hstar,if_pos (not_not.mp fun hne => hstars ⟨hstar,hne⟩)]
      simp only [if_neg hstar] at h ⊢
      by_cases hescape : b = 92
      · simp only [if_pos hescape] at h ⊢
        cases q with
        | nil =>
          simp only at h ⊢
          split_ifs at h ⊢
          exact hon hq h
        | cons d q =>
          simp only at h ⊢
          split_ifs at h ⊢
          exact hon ((List.suffix_cons d q).trans hq) h
      simp only [if_neg hescape] at h ⊢
      by_cases hslash : b = slash
      · simp only [if_pos hslash] at h ⊢
        split_ifs at h ⊢ with hfail hdone
        · rfl
        · have hpath : u.headD 0 = slash := by
            by_contra hpath
            exact hfail ⟨hpath,hc⟩
          obtain ⟨-,hskip,hskip'⟩ := hu.slashskip hpath (slash::t)
          rw [hskip] at h
          rw [hskip']
          exact ih hend (hp.suffix ((pmSlashskip_suffix q).trans hq)) (hu.suffix (List.tail_suffix u)) h
      simp only [if_neg hslash] at h ⊢
      have hdollar : ¬(b = 36 ∧ q = [] ∧ flags.noAnchorEnd = true) := by
        rintro ⟨rfl,rfl,hflag⟩
        exact hdollar' ⟨rfl,hflag⟩
      simp only [if_neg hdollar] at h ⊢
      split_ifs at h ⊢
      exact hon hq h

theorem openMatch_below {p u : Bytes} (hp : Classless p) (hu : Descends u) (hne : u ≠ [])
    (hlone : u ≠ dot) (h : openMatch charLe false p u flags = true) :
    lafePathmatch charLe p (u ++ slash::t) flags = true := by
  by_cases hnil : p = []
  · subst hnil
    rw [openMatch,pathmatchBy,if_pos rfl,decide_eq_true_eq] at h
    exact absurd ((Cursor.headD_eq_zero hu.nul).mp h) hne
  · rw [openMatch,pathmatchBy_any _ hnil] at h
    rw [lafePathmatch,pathmatchBy_any _ hnil]
    obtain ⟨a,ha,hloop⟩ := List.any_eq_true.mp h
    obtain ⟨-,hpath,hflags,hbelow⟩ := pmCalls_below hu hne hlone (slash::t) ha
    exact List.any_eq_true.mpr ⟨a.below (slash::t),hbelow,openLoop_below ht (hflags.trans hend) _
      (hp.suffix (mem_pmCalls ha).1) (hu.suffix hpath) hloop⟩

end

section
variable {charLe : UInt8 → UInt8 → Bool} {flags : PathmatchFlags} {t : Bytes} (ht : BelowPath t)
include ht

theorem BelowPath.slashskip : pmSlashskip (slash::t) = t := by
  rw [pmSlashskip,if_pos (.inl rfl)]
  exact pmSlashskip_start ht.start ht.dot

theorem BelowPath.dotskip : pmDotskip t = t := pmDotskip_start fun h => (ht.dot h).1

theorem pmCalls_root {p : Bytes} {a : PmAttempt} (ha : a ∈ pmCalls p [slash] flags) :
    (a.path = [slash] ∨ a.path = []) ∧ a.flags.noAnchorEnd = flags.noAnchorEnd ∧
      a.below t ∈ pmCalls p (slash::t) flags := by
  have hslash : pmDotskip (slash::t) = slash::t :=
    pmDotskip_start fun h => absurd (show slash = 46 from h) (by decide)
  have hfrom {p : Bytes} {flags : PathmatchFlags} (ha : a ∈ pmCallsFrom p [slash] flags) :
      (a.path = [slash] ∨ a.path = []) ∧ a.flags.noAnchorEnd = flags.noAnchorEnd ∧
        a.below t ∈ pmCallsFrom p (slash::t) flags := by
    rw [pmCallsFrom] at ha
    rw [pmCallsFrom]
    simp only [List.headD_cons,ne_eq,not_true_eq_false,and_false,if_false] at ha ⊢
    split_ifs at ha ⊢ with hslashes hany
    · obtain rfl := List.mem_singleton.mp ha
      refine ⟨.inr rfl,rfl,List.mem_singleton.mpr ?_⟩
      have hdrop : (slash::t).dropWhile (· = slash) = t := by
        rw [List.dropWhile_cons_of_pos (by simp),dropWhile_start ht.start]
      rw [hdrop,pmCall,pmCall,ht.dotskip]
      rfl
    · obtain rfl : a = pmCall p [] flags := by simpa [elementStarts,behindSlashes] using ha
      refine ⟨.inr rfl,rfl,List.mem_map.mpr ⟨t,List.mem_cons_self,?_⟩⟩
      rw [pmCall,pmCall,ht.dotskip]
      rfl
    · obtain rfl := List.mem_singleton.mp ha
      refine ⟨.inl rfl,rfl,List.mem_singleton.mpr ?_⟩
      rw [pmCall,pmCall,hslash]
      rfl
  cases p with
  | nil => simp [pmCalls] at ha
  | cons b p =>
    rw [pmCalls] at ha ⊢
    split_ifs at ha ⊢
    · exact hfrom ha
    · exact hfrom ha

theorem openLoop_root (hend : flags.noAnchorEnd = true) (fuel : ℕ) {p u : Bytes} (hp : Classless p)
    (hu : u = [slash] ∨ u = []) (h : openLoop charLe true fuel p u flags = true) :
    pmLoop charLe fuel p (u ++ t) flags = true := by
  induction fuel generalizing p u flags with
  | zero => cases h
  | succ fuel ih =>
    rcases hu with rfl | rfl
    · have hon {q : Bytes} (hq : q <:+ p) (hmatch : openLoop charLe true fuel q [] flags = true) :
          pmLoop charLe fuel q t flags = true := ih hend (hp.suffix hq) (.inr rfl) hmatch
      rw [openLoop,openRound,if_neg (by simp)] at h
      cases p with
      | nil => simp [pmLoop,pmRound,hend]
      | cons b q =>
        have hclass : b ≠ 91 := fun hb => hp.plain (by simp [hb])
        have hq := List.suffix_cons b q
        rw [List.headD_cons,List.tail_cons] at h
        by_cases hstars : b = 42 ∧ q.dropWhile (· = 42) ≠ []
        · obtain ⟨rfl,hne⟩ := hstars
          rw [if_pos ⟨rfl,hne⟩] at h
          have hrest := (List.dropWhile_suffix (l := q) fun x => decide (x = 42)).trans hq
          obtain ⟨v,hv,hmatch⟩ := List.any_eq_true.mp h
          obtain rfl : v = [slash] := by simpa [places,slash] using hv
          obtain ⟨-,hmatch⟩ := Bool.and_eq_true_iff.mp hmatch
          rw [pathmatchBy_any _ hne] at hmatch
          obtain ⟨a,ha,hloop⟩ := List.any_eq_true.mp hmatch
          obtain ⟨hpath,hflags,hbelow⟩ := pmCalls_root ht ha
          have hany : (places (slash::t)).any (fun v =>
              pathmatchBy (pmLoop charLe fuel) (q.dropWhile (· = 42)) v flags) = true := by
            refine List.any_eq_true.mpr ⟨slash::t,by simp [places,slash],?_⟩
            rw [pathmatchBy_any _ hne]
            exact List.any_eq_true.mpr ⟨a.below t,hbelow,ih (hflags.trans hend)
              (hp.suffix ((mem_pmCalls ha).1.trans hrest)) hpath hloop⟩
          simp only [List.singleton_append,pmLoop,pmRound,if_neg (show ¬(42 : UInt8) = 63 by decide),
            if_true,if_neg hne]
          exact hany
        rw [if_neg hstars] at h
        split_ifs at h with hdollar
        simp only [pmLoop,pmRound,List.singleton_append,List.headD_cons,List.tail_cons,
          if_neg hclass] at h ⊢
        by_cases hone : b = 63
        · simp only [if_pos hone] at h ⊢
          exact hon hq h
        simp only [if_neg hone] at h ⊢
        by_cases hstar : b = 42
        · rw [if_pos hstar,if_pos (not_not.mp fun hne => hstars ⟨hstar,hne⟩)]
        simp only [if_neg hstar] at h ⊢
        by_cases hescape : b = 92
        · simp only [if_pos hescape] at h ⊢
          cases q with
          | nil => exact absurd h (by simp [slash])
          | cons d q =>
            simp only at h ⊢
            by_cases hd : d = slash
            · simp only [hd,ne_eq,not_true_eq_false,if_false] at h ⊢
              exact hon ((List.suffix_cons d q).trans hq) h
            · simp only [ne_eq,hd,not_false_eq_true,if_true] at h
              cases h
        simp only [if_neg hescape] at h ⊢
        by_cases hslash : b = slash
        · simp only [if_pos hslash,ne_eq,not_true_eq_false,false_and,if_false,hend,and_true,
            ht.slashskip] at h ⊢
          by_cases hdone : pmSlashskip q = []
          · rw [if_pos hdone]
          · rw [if_neg hdone] at h ⊢
            exact hon ((pmSlashskip_suffix q).trans hq) h
        simp only [if_neg hslash] at h ⊢
        have hdollar' : ¬(b = 36 ∧ q = [] ∧ flags.noAnchorEnd = true) := by
          rintro ⟨rfl,rfl,hflag⟩
          exact hdollar ⟨rfl,hflag⟩
        simp only [if_neg hdollar',ne_eq,hslash,not_false_eq_true,if_true] at h
        cases h
    · -- only `*`s are left
      rw [openLoop,openRound,if_pos ⟨rfl,rfl⟩] at h
      exact pmLoop_stars fuel h _ flags

theorem openMatch_root (hend : flags.noAnchorEnd = true) {p : Bytes} (hp : Classless p)
    (h : openMatch charLe true p [slash] flags = true) :
    lafePathmatch charLe p (slash::t) flags = true := by
  by_cases hnil : p = []
  · subst hnil
    rw [openMatch,pathmatchBy,if_pos rfl] at h
    exact absurd h (by decide)
  · rw [openMatch,pathmatchBy_any _ hnil] at h
    rw [lafePathmatch,pathmatchBy_any _ hnil]
    obtain ⟨a,ha,hloop⟩ := List.any_eq_true.mp h
    obtain ⟨hpath,hflags,hbelow⟩ := pmCalls_root ht ha
    exact List.any_eq_true.mpr ⟨a.below t,hbelow,openLoop_root ht (hflags.trans hend) _
      (hp.suffix (mem_pmCalls ha).1) hpath hloop⟩

end

theorem getLast?_ne_of_suffix {u v : Bytes} {c : UInt8} (h : u.getLast? ≠ some c) (hv : v <:+ u) :
    v.getLast? ≠ some c := by
  intro hlast
  obtain ⟨pre,rfl⟩ := hv
  refine h ?_
  rw [List.getLast?_append,hlast]
  rfl

theorem any_congr_mem {α : Type*} {l : List α} {f g : α → Bool} (h : ∀ a ∈ l, f a = g a) :
    l.any f = l.any g := by
  induction l with
  | nil => rfl
  | cons a l ih =>
    rw [List.any_cons,List.any_cons,h a List.mem_cons_self,ih fun b hb => h b (List.mem_cons_of_mem a hb)]

section
variable {charLe : UInt8 → UInt8 → Bool} {loop loop' : Bytes → Bytes → PathmatchFlags → Bool}
  {p s : Bytes} (hloop : ∀ q v flags, q <:+ p → v <:+ s → loop q v flags = loop' q v flags)
include hloop

theorem pathmatchBy_agree (flags : PathmatchFlags) :
    pathmatchBy loop p s flags = pathmatchBy loop' p s flags := by
  by_cases hnil : p = []
  · rw [pathmatchBy,pathmatchBy,if_pos hnil,if_pos hnil]
  · rw [pathmatchBy_any _ hnil,pathmatchBy_any _ hnil]
    exact any_congr_mem fun a ha => hloop _ _ _ (mem_pmCalls ha).1 (mem_pmCalls ha).2

theorem pmRound_agree (hplain : 91 ∉ p) (flags : PathmatchFlags) :
    pmRound charLe loop p s flags = pmRound charLe loop' p s flags := by
  cases p with
  | nil => rfl
  | cons b q =>
    have hq := List.suffix_cons b q
    have hon : loop q s.tail flags = loop' q s.tail flags := hloop _ _ _ hq (List.tail_suffix s)
    have hslash : loop (pmSlashskip q) (pmSlashskip s) flags =
        loop' (pmSlashskip q) (pmSlashskip s) flags :=
      hloop _ _ _ ((pmSlashskip_suffix q).trans hq) (pmSlashskip_suffix s)
    have hany : ((places s).any fun t => pathmatchBy loop (q.dropWhile (· = 42)) t flags) =
        (places s).any fun t => pathmatchBy loop' (q.dropWhile (· = 42)) t flags :=
      any_congr_mem fun t ht => pathmatchBy_agree (fun q' v flags hq' hv => hloop q' v flags
        (hq'.trans ((List.dropWhile_suffix _).trans hq)) (hv.trans (mem_places ht).1)) flags
    simp only [pmRound,if_neg (show ¬b = 91 from fun hb => hplain (by simp [hb])),hany,hslash,hon]
    cases q with
    | nil => simp only [hloop [] s.tail flags List.nil_suffix (List.tail_suffix s)]
    | cons d q =>
      simp only [hloop q s.tail flags ((List.suffix_cons d q).trans hq) (List.tail_suffix s)]

end

structure Unanchored (p : Bytes) : Prop extends Classless p where
  last : p.getLast? ≠ some 36

/-- Where the path does not end in `.`, nor the pattern in `$`, there is nothing to keep off. -/
theorem openLoop_eq (charLe : UInt8 → UInt8 → Bool) (fuel : ℕ) {p u : Bytes} (hp : Unanchored p)
    (hu : u.getLast? ≠ some 46) (flags : PathmatchFlags) :
    openLoop charLe false fuel p u flags = pmLoop charLe fuel p u flags := by
  induction fuel generalizing p u flags with
  | zero => rfl
  | succ fuel ih =>
    have hloop (q v : Bytes) (flags : PathmatchFlags) (hq : q <:+ p) (hv : v <:+ u) :
        openLoop charLe false fuel q v flags = pmLoop charLe fuel q v flags :=
      ih ⟨hp.toClassless.suffix hq,getLast?_ne_of_suffix hp.last hq⟩ (getLast?_ne_of_suffix hu hv) flags
    rw [openLoop,openRound,if_neg (by simp),pmLoop,← pmRound_agree hloop hp.plain flags]
    by_cases hstars : p.headD 0 = 42 ∧ p.tail.dropWhile (· = 42) ≠ []
    · rw [if_pos hstars]
      cases p with
      | nil => cases hstars.1
      | cons b q =>
        obtain ⟨hb,hne⟩ := hstars
        obtain rfl : b = 42 := hb
        simp only [pmRound,if_neg (show ¬(42 : UInt8) = 63 by decide),if_true,
          List.tail_cons] at hne ⊢
        rw [if_neg hne]
        refine any_congr_mem fun t ht => ?_
        have hlone : t ≠ dot := by
          rintro rfl
          exact getLast?_ne_of_suffix hu (mem_places ht).1 rfl
        rw [decide_eq_true hlone,Bool.true_and]
    · rw [if_neg hstars,if_neg]
      rintro ⟨rfl,-⟩
      exact hp.last rfl

theorem openMatch_eq (charLe : UInt8 → UInt8 → Bool) {p u : Bytes} (hp : Unanchored p)
    (hu : u.getLast? ≠ some 46) (flags : PathmatchFlags) :
    openMatch charLe false p u flags = lafePathmatch charLe p u flags :=
  pathmatchBy_agree (fun _ _ flags hq hv => openLoop_eq charLe _
    ⟨hp.toClassless.suffix hq,getLast?_ne_of_suffix hp.last hq⟩ (getLast?_ne_of_suffix hu hv) flags) flags

structure PlainPath (s : Bytes) : Prop where
  clean : bPathClean s = s
  nonempty : s ≠ []
  nul : 0 ∉ s
  dot : dot ∉ strtok s

structure RelativePath (t : Bytes) : Prop where
  nonempty : t ≠ []
  relative : isAbsolute t = false
  nul : 0 ∉ t
  dot : dot ∉ strtok t

theorem PlainPath.pathOf {s : Bytes} (h : PlainPath s) : ∃ absolute ds, s = pathOf absolute ds ∧
    ∀ d ∈ ds, PathItem d := by
  have heq := bPathClean_eq h.nul
  rw [h.clean] at heq
  refine ⟨isAbsolute s,components s,heq,fun d hd => ?_⟩
  obtain ⟨hne,hslash⟩ := tokenItems_components s d hd
  exact ⟨hne,fun hdot => h.dot (hdot ▸ mem_dropDots hd),zero_notMem_components h.nul hd,hslash⟩

theorem joinPath_of_slash_suffix {ds : List Bytes} (h : ∀ d ∈ ds, PathItem d) {w : Bytes}
    (hw : slash::w <:+ joinPath ds) : ∃ ds', ds' ≠ [] ∧ ds' <:+ ds ∧ w = joinPath ds' := by
  have hitem {x r : Bytes} (hx : slash ∉ x) (hr : slash::w <:+ x ++ r) : slash::w <:+ r := by
    induction x with
    | nil => exact hr
    | cons b x ih =>
      rcases List.suffix_cons_iff.mp hr with heq | hr
      · exact absurd (List.cons.inj heq).1 fun hb => hx (by simp [← hb])
      · exact ih (fun hmem => hx (List.mem_cons_of_mem b hmem)) hr
  induction ds with
  | nil => exact absurd hw (by simp [joinPath,bStringJoin])
  | cons d ds ih =>
    have hds : ∀ d ∈ ds, PathItem d := fun d' hd' => h d' (List.mem_cons_of_mem d hd')
    rw [joinPath_behind] at hw
    have hbehind := hitem (h d List.mem_cons_self).slash hw
    rw [behindItem] at hbehind
    split_ifs at hbehind with hnil
    · simp at hbehind
    · rcases List.suffix_cons_iff.mp hbehind with heq | hbehind
      · exact ⟨ds,hnil,List.suffix_cons d ds,(List.cons.inj heq).2⟩
      · obtain ⟨ds',hne,hsuffix,hw'⟩ := ih hds hbehind
        exact ⟨ds',hne,hsuffix.trans (List.suffix_cons d ds),hw'⟩

theorem PlainPath.descends {s : Bytes} (h : PlainPath s) (hroot : s ≠ [slash]) : Descends s where
  nul := h.nul
  slashes := by
    obtain ⟨absolute,ds,rfl,hds⟩ := h.pathOf
    intro w hw
    obtain ⟨ds',hne,hsuffix,rfl⟩ : ∃ ds', ds' ≠ [] ∧ ds' <:+ ds ∧ w = joinPath ds' := by
      cases absolute with
      | false => exact joinPath_of_slash_suffix hds hw
      | true =>
        rcases List.suffix_cons_iff.mp hw with heq | hw
        · refine ⟨ds,?_,List.suffix_rfl,(List.cons.inj heq).2⟩
          rintro rfl
          exact hroot rfl
        · exact joinPath_of_slash_suffix hds hw
    have hds' : ∀ d ∈ ds', PathItem d := fun d hd => hds d (hsuffix.subset hd)
    obtain ⟨hslash,hdot⟩ := joinPath_start hds'
    refine ⟨(joinPath_eq_nil fun d hd => (hds' d hd).nonempty).not.mpr hne,hslash,
      fun hh => (hdot hh.1).1 hh.2,fun hlone => ?_⟩
    rw [hlone] at hdot
    exact (hdot rfl).2 rfl

theorem PlainPath.ne_dot {s : Bytes} (h : PlainPath s) : s ≠ ArchiveTarBuilder.dot := by
  rintro rfl
  exact h.dot (by decide +kernel)

/-- No `./` stands in front of a path without a `.` component, and it is not `.`. -/
theorem dot_start {s : Bytes} (hnul : 0 ∉ s) (hdot : dot ∉ strtok s) (h : s.headD 0 = 46) :
    s.tail.headD 0 ≠ slash ∧ s.tail.headD 0 ≠ 0 := by
  cases s with
  | nil => cases h
  | cons c s =>
    obtain rfl : c = 46 := h
    refine ⟨fun hslash => ?_,fun hzero => ?_⟩
    · cases s with
      | nil => cases hslash
      | cons d s =>
        obtain rfl : d = slash := hslash
        rw [show (46 : UInt8)::slash::s = [46] ++ slash::s from rfl,strtok_append] at hdot
        exact hdot (List.mem_append_left _ (by decide))
    · have hnil := (Cursor.headD_eq_zero fun hmem => hnul (List.mem_cons_of_mem 46 hmem)).mp hzero
      rw [show s = [] from hnil] at hdot
      exact hdot (by decide)

theorem RelativePath.below {t : Bytes} (h : RelativePath t) : BelowPath t where
  nonempty := h.nonempty
  start := by
    obtain ⟨c,t,rfl⟩ := List.exists_cons_of_ne_nil h.nonempty
    have hrelative := h.relative
    simpa [isAbsolute] using hrelative
  dot := dot_start h.nul h.dot

theorem pmDotskip_head (s : Bytes) :
    ¬((pmDotskip s).headD 0 = 46 ∧ (pmDotskip s).tail.headD 0 = slash) := by
  rw [pmDotskip]
  split_ifs with hskip
  · exact (pmSlashskip_head s.tail).2
  · exact hskip

section
variable (charLe : UInt8 → UInt8 → Bool)

theorem lafePathmatch_starDot (absolute : Bool) {ds : List Bytes} (hds : ∀ d ∈ ds, PathItem d)
    (hlast : (joinPath ds).getLast? = some 46) :
    lafePathmatch charLe [42,46] (pathOf absolute ds) ⟨true,true⟩ = true := by
  obtain ⟨hslash,hdot⟩ := joinPath_start hds
  have hdrop : (pathOf absolute ds).dropWhile (· = slash) = joinPath ds := by
    cases absolute with
    | false => exact dropWhile_start hslash
    | true =>
      rw [pathOf,if_pos rfl,List.singleton_append,List.dropWhile_cons_of_pos (by simp),
        dropWhile_start hslash]
  have hskip : pmDotskip (joinPath ds) = joinPath ds := pmDotskip_start fun h => (hdot h).1
  have hplace : [46] ∈ places (joinPath ds) := by
    obtain ⟨front,hfront⟩ := List.getLast?_eq_some_iff.mp hlast
    rw [hfront]
    have hnul : 0 ∉ front := by
      have hnul' := zero_notMem_joinPath fun d hd => (hds d hd).nul
      rw [hfront] at hnul'
      exact fun hmem => hnul' (List.mem_append_left _ hmem)
    clear hfront
    induction front with
    | nil => decide
    | cons c front ih =>
      obtain ⟨hc,hfront⟩ := not_or.mp (List.mem_cons.not.mp hnul)
      rw [List.cons_append,places,if_neg (Ne.symm hc)]
      exact List.mem_cons_of_mem _ (ih hfront)
  rw [lafePathmatch,pathmatchBy_any _ (by simp)]
  have hcalls : pmCalls [42,46] (pathOf absolute ds) ⟨true,true⟩ =
      [⟨[42,46],joinPath ds,⟨true,true⟩⟩] := by
    simp only [pmCalls,pmCallsFrom,if_neg (show ¬(42 : UInt8) = 94 by decide),List.headD_cons,
      show ¬(42 : UInt8) = slash by decide,false_and,if_false,true_or,if_true,pmCall,hdrop,hskip]
    rfl
  rw [hcalls,List.any_cons,List.any_nil,Bool.or_false]
  show (places (joinPath ds)).any _ = true
  exact List.any_eq_true.mpr ⟨[46],hplace,rfl⟩

theorem lafePathmatch_starDot_last {s : Bytes} (hnul : 0 ∉ s)
    (h : lafePathmatch charLe [42,46] s ⟨true,true⟩ = true) : s.getLast? = some 46 := by
  rw [lafePathmatch,pathmatchBy_any _ (by simp)] at h
  obtain ⟨a,ha,hloop⟩ := List.any_eq_true.mp h
  obtain rfl : a = pmCall [42,46] (s.dropWhile (· = slash)) ⟨true,true⟩ := by
    simpa [pmCalls,pmCallsFrom,slash] using ha
  have hpath := (mem_pmCalls ha).2
  generalize (pmCall [42,46] (s.dropWhile (· = slash)) ⟨true,true⟩).path = u at hloop hpath
  have hplaces : (places u).any (fun v => pathmatchBy (pmLoop charLe 2) [46] v ⟨true,true⟩) =
      true := hloop
  obtain ⟨v,hv,hmatch⟩ := List.any_eq_true.mp hplaces
  rw [pathmatchBy_any _ (by simp)] at hmatch
  obtain ⟨b,hb,hround⟩ := List.any_eq_true.mp hmatch
  obtain ⟨w,-,rfl⟩ : ∃ w, w ∈ elementStarts v ∧ pmCall [46] w ⟨true,true⟩ = b := by
    simpa [pmCalls,pmCallsFrom,slash] using hb
  have hsuffix : pmDotskip w <:+ s := (mem_pmCalls hb).2.trans ((mem_places hv).1.trans hpath)
  have hround' : pmLoop charLe 2 [46] (pmDotskip w) ⟨true,true⟩ = true := hround
  rw [pmLoop_byte charLe (show LiteralByte 46 by decide +kernel) 1,Bool.and_eq_true,
    decide_eq_true_eq] at hround'
  obtain ⟨hhead,hrest⟩ := hround'
  have hend : (pmDotskip w).tail.headD 0 = 0 := by
    have hslash : (pmDotskip w).tail.headD 0 ≠ slash := fun hs => pmDotskip_head w ⟨hhead.symm,hs⟩
    simpa only [pmLoop,pmRound,if_neg hslash,decide_eq_true_eq] using hrest
  obtain ⟨pre,rfl⟩ := hsuffix
  cases hdot : pmDotskip w with
  | nil => rw [hdot] at hhead; cases hhead
  | cons c rest =>
    rw [hdot] at hhead hend hnul
    obtain rfl : 46 = c := hhead
    have hnil := (Cursor.headD_eq_zero fun hmem => hnul (by simp [show 0 ∈ rest from hmem])).mp hend
    rw [List.tail_cons] at hnil
    simp [hnil]

theorem pmLoop_one (fuel : ℕ) (q s : Bytes) (flags : PathmatchFlags) :
    pmLoop charLe (fuel+1) (63::q) s flags =
      if s.headD 0 = 0 then false else pmLoop charLe fuel q s.tail flags := rfl

/-- As many `?`s as the path has bytes, and a `$`: how a path ends that they match. -/
theorem pmLoop_ones {flags : PathmatchFlags} (hend : flags.noAnchorEnd = true) {s : Bytes}
    (hnul : 0 ∉ s) (v : Bytes) (fuel : ℕ) :
    pmLoop charLe (s.length+(fuel+1)) (s.map (fun _ => 63) ++ [36]) (s ++ v) flags =
      decide ((pmSlashskip v).headD 0 = 0) := by
  induction s with
  | nil =>
    simp only [List.length_nil,Nat.zero_add,List.map_nil,List.nil_append]
    simp [pmLoop,pmRound,hend,slash]
  | cons c s ih =>
    have hc : ¬c = 0 := fun hc => hnul (hc ▸ List.mem_cons_self)
    have hrest := ih fun hmem => hnul (List.mem_cons_of_mem c hmem)
    rw [List.length_cons,Nat.add_right_comm,List.map_cons,List.cons_append,List.cons_append,
      pmLoop_one,
      List.headD_cons,if_neg hc,List.tail_cons]
    exact hrest

theorem pmCalls_anchored {p : Bytes} (hstar : p.headD 0 ≠ 42) (hslash : p.headD 0 ≠ slash)
    (s : Bytes) (flags : PathmatchFlags) :
    pmCalls (94::p) s flags = [pmCall p s { flags with noAnchorStart := false }] := by
  rw [pmCalls,if_pos rfl,pmCallsFrom,if_neg fun h => hslash h.1,
    if_neg (not_or.mpr ⟨hstar,hslash⟩),if_neg Bool.false_ne_true]

/-- Behind a `^` they match the path itself, and with slashes and the like at its end. -/
theorem lafePathmatch_ones {s : Bytes} (hne : s ≠ []) (hnul : 0 ∉ s) (v : Bytes)
    (hdot : (s ++ v).headD 0 = 46 → (s ++ v).tail.headD 0 ≠ slash) :
    lafePathmatch charLe (94::(s.map (fun _ => 63) ++ [36])) (s ++ v) ⟨true,true⟩ =
      decide ((pmSlashskip v).headD 0 = 0) := by
  have hhead : (s.map (fun _ => 63) ++ [36] : Bytes).headD 0 = 63 := by
    obtain ⟨c,s,rfl⟩ := List.exists_cons_of_ne_nil hne
    rfl
  have hpattern : pmDotskip (s.map (fun _ => 63) ++ [36]) = s.map (fun _ => 63) ++ [36] :=
    pmDotskip_start fun h => absurd (hhead.symm.trans h) (by decide)
  have hlength : (94::(s.map (fun _ => 63) ++ [36]) : Bytes).length+1 = s.length+(2+1) := by simp
  rw [lafePathmatch,pathmatchBy_any _ (List.cons_ne_nil _ _),
    pmCalls_anchored (by rw [hhead]; decide) (by rw [hhead]; decide),List.any_cons,List.any_nil,
    Bool.or_false,pmCall,hpattern,pmDotskip_start hdot,hlength]
  exact pmLoop_ones charLe rfl hnul v 2

end

/-- A pattern without a class that does not end in `$`. -/
def OpenEnded (pattern : Bytes) : Prop := 91 ∉ cstr pattern ∧ (cstr pattern).getLast? ≠ some 36

/-- A pattern that `add_pattern` makes end in `$`. -/
def DollarSlash (pattern : Bytes) : Prop := [36,slash] <:+ cstr pattern

/-- Does the pattern, as the only exclusion, exclude the path? -/
def Excludes (p : MatchPlatform) (pattern path : Bytes) : Prop :=
  (lafeExcluded p (lafeExclude none pattern) path).1 = true

/-- If the pattern excludes the path it excludes all that is below. -/
def ExcludesBelow (p : MatchPlatform) (pattern s : Bytes) : Prop :=
  Excludes p pattern s → ∀ t, RelativePath t → Excludes p pattern (bDirItemPath s t)

/-- The pattern matches the path without an end that is none for the paths below: a `$`, the `.`
behind which `*` began anew, or the `/` of the root. -/
def ExcludesOn (p : MatchPlatform) (pattern s : Bytes) : Prop :=
  openMatch p.charLe (decide (s = [slash])) (storedPattern pattern) s ⟨true,true⟩ = true

theorem storedPattern_subset (pattern : Bytes) : storedPattern pattern ⊆ cstr pattern := by
  rw [storedPattern]
  split_ifs
  · exact List.dropLast_subset _
  · exact List.Subset.refl _

theorem lafeExcluded_plain (p : MatchPlatform) {pattern path : Bytes} (hclass : 91 ∉ cstr pattern)
    (hpath : 0 ∉ path) : (lafeExcluded p (lafeExclude none pattern) path).1 =
      lafePathmatch p.charLe (storedPattern pattern) path ⟨true,true⟩ := by
  rw [lafeExcluded_exclude,
    matchExclusion_plain p (fun hmem => zero_notMem_cstr pattern (storedPattern_subset pattern hmem))
      (fun hmem => hclass (storedPattern_subset pattern hmem)) hpath]

theorem OpenEnded.classless {pattern : Bytes} (h : OpenEnded pattern) :
    Classless (storedPattern pattern) where
  nul := fun hmem => zero_notMem_cstr pattern (storedPattern_subset pattern hmem)
  plain := fun hmem => h.1 (storedPattern_subset pattern hmem)

theorem OpenEnded.stored {pattern : Bytes} (h : OpenEnded pattern) (hdollar : ¬DollarSlash pattern) :
    Unanchored (storedPattern pattern) where
  toClassless := h.classless
  last := by
    rw [storedPattern]
    split_ifs with hslash
    · intro hlast
      obtain ⟨front,hfront⟩ := List.getLast?_eq_some_iff.mp hslash
      rw [hfront,List.dropLast_concat] at hlast
      obtain ⟨pre,rfl⟩ := List.getLast?_eq_some_iff.mp hlast
      exact hdollar ⟨pre,by rw [hfront,List.append_assoc]; rfl⟩
    · exact h.2

theorem bDirItemPath_append {s : Bytes} (h : s ≠ [slash]) (t : Bytes) : bDirItemPath s t =
    s ++ slash::t := by
  rw [bDirItemPath,if_neg h,List.append_assoc,List.singleton_append]

section
variable (p : MatchPlatform) {s : Bytes} (hs : PlainPath s)
include hs

theorem excludesBelow_of_on {pattern : Bytes} (hopen : OpenEnded pattern)
    (h : ExcludesOn p pattern s) : ExcludesBelow p pattern s := by
  intro _ t ht
  have hclassless := hopen.classless
  by_cases hroot : s = [slash]
  · subst hroot
    rw [ExcludesOn,decide_eq_true rfl] at h
    have hnul : 0 ∉ bDirItemPath [slash] t := by
      have hnul' := ht.nul
      simp [bDirItemPath,slash,hnul']
    rw [Excludes,lafeExcluded_plain p hopen.1 hnul]
    exact openMatch_root ht.below rfl hclassless h
  · rw [ExcludesOn,decide_eq_false hroot] at h
    have hnul : 0 ∉ s ++ slash::t := by
      have hnul' := hs.nul
      have hnul'' := ht.nul
      simp [slash,hnul',hnul'']
    rw [Excludes,bDirItemPath_append hroot,lafeExcluded_plain p hopen.1 hnul]
    exact openMatch_below ht.below rfl hclassless (hs.descends hroot) hs.nonempty hs.ne_dot h

/-- So it is for all but the root, the paths that end in `.`, and the patterns that end in `$/`. -/
theorem excludesOn_of_excludes {pattern : Bytes} (hopen : OpenEnded pattern)
    (hdollar : ¬DollarSlash pattern) (hroot : s ≠ [slash]) (hlast : s.getLast? ≠ some 46)
    (h : Excludes p pattern s) : ExcludesOn p pattern s := by
  rw [Excludes,lafeExcluded_plain p hopen.1 hs.nul] at h
  rw [ExcludesOn,decide_eq_false hroot,openMatch_eq p.charLe (hopen.stored hdollar) hlast]
  exact h

theorem exists_not_excludesBelow (h : s = [slash] ∨ s.getLast? = some 46) :
    ∃ pattern, OpenEnded pattern ∧ ¬DollarSlash pattern ∧ ¬ExcludesBelow p pattern s := by
  have hone : RelativePath [98] := ⟨by decide,by decide,by decide,by decide +kernel⟩
  by_cases hroot : s = [slash]
  · -- `//` is stored as `/`
    subst hroot
    refine ⟨[47,47],⟨by decide,by decide⟩,by unfold DollarSlash; decide,fun hbelow => ?_⟩
    have hfail := hbelow (by rw [Excludes,lafeExcluded_plain p (by decide) (by decide)]; rfl) [98] hone
    rw [Excludes,lafeExcluded_plain p (by decide) (by decide)] at hfail
    exact Bool.false_ne_true hfail
  · have hlast := h.resolve_left hroot
    refine ⟨[42,46],⟨by decide,by decide⟩,by unfold DollarSlash; decide,fun hbelow => ?_⟩
    have hnul : 0 ∉ s ++ slash::[98] := by
      have hnul' := hs.nul
      simpa [slash] using hnul'
    have hmatch : lafePathmatch p.charLe (storedPattern [42,46]) s ⟨true,true⟩ = true := by
      obtain ⟨absolute,ds,rfl,hds⟩ := hs.pathOf
      refine lafePathmatch_starDot p.charLe absolute hds ?_
      cases absolute with
      | false => exact hlast
      | true =>
        have hnil : joinPath ds ≠ [] := fun hnil => hroot (by simp [pathOf,hnil])
        rwa [pathOf,if_pos rfl,List.getLast?_append_of_ne_nil _ hnil] at hlast
    have hfail := hbelow (by rwa [Excludes,lafeExcluded_plain p (by decide) hs.nul]) [98] hone
    rw [Excludes,bDirItemPath_append hroot,lafeExcluded_plain p (by decide) hnul] at hfail
    have hend := lafePathmatch_starDot_last p.charLe hnul hfail
    rw [List.getLast?_append_of_ne_nil _ (List.cons_ne_nil _ _)] at hend
    exact absurd hend (by decide)

theorem exists_dollarSlash : ∃ pattern, OpenEnded pattern ∧ DollarSlash pattern ∧
    ¬ExcludesBelow p pattern s := by
  have hone : RelativePath [98] := ⟨by decide,by decide,by decide,by decide +kernel⟩
  have hnul : 0 ∉ (94::(s.map (fun _ => 63) ++ [36]) : Bytes) := by simp
  have hcstr : cstr (94::(s.map (fun _ => 63) ++ [36]) ++ [slash]) =
      94::(s.map (fun _ => 63) ++ [36]) ++ [slash] := cstr_of_not_mem _ (by simp [slash])
  have hclass : 91 ∉ cstr (94::(s.map (fun _ => 63) ++ [36]) ++ [slash]) := by
    rw [hcstr]
    simp [slash]
  have hlast : (cstr (94::(s.map (fun _ => 63) ++ [36]) ++ [slash])).getLast? ≠ some 36 := by
    rw [hcstr,List.getLast?_concat]
    decide
  have hdollar : DollarSlash (94::(s.map (fun _ => 63) ++ [36]) ++ [slash]) := by
    rw [DollarSlash,hcstr]
    exact ⟨94::s.map (fun _ => 63),by simp⟩
  refine ⟨_,⟨hclass,hlast⟩,hdollar,fun hbelow => ?_⟩
  obtain ⟨v,hv,hend,hpath⟩ : ∃ v, 0 ∉ v ∧ (pmSlashskip v).headD 0 ≠ 0 ∧
    bDirItemPath s [98] = s ++ v := by
    by_cases hroot : s = [slash]
    · exact ⟨[98],by decide,by decide,by rw [bDirItemPath,if_pos hroot]⟩
    · exact ⟨slash::[98],by decide,by decide,bDirItemPath_append hroot _⟩
  have hdot (h : (s ++ v).headD 0 = 46) : (s ++ v).tail.headD 0 ≠ slash := by
    obtain ⟨c,rest,hs'⟩ := List.exists_cons_of_ne_nil hs.nonempty
    have hstart := dot_start hs.nul hs.dot
    rw [hs'] at h hstart ⊢
    obtain ⟨hslash,hzero⟩ := hstart h
    cases rest with
    | nil => exact absurd rfl hzero
    | cons d rest => exact hslash
  have hself := lafePathmatch_ones p.charLe hs.nonempty hs.nul [] fun h => by
    rw [List.append_nil] at h ⊢
    exact (dot_start hs.nul hs.dot h).1
  rw [List.append_nil] at hself
  have hfail := hbelow (by rwa [Excludes,lafeExcluded_plain p hclass hs.nul,storedPattern_slash hnul])
    [98] hone
  rw [Excludes,hpath,lafeExcluded_plain p hclass (by simp [hs.nul,hv]),storedPattern_slash hnul,
    lafePathmatch_ones p.charLe hs.nonempty hs.nul v hdot,decide_eq_false hend] at hfail
  exact Bool.false_ne_true hfail

/-- A pattern that excludes a path excludes what is below it when it does so without one of the ends
that fail there. Only the root, the paths that end in `.`, and the patterns that end in `$/` ask for
more than that it excludes the path, and each of these kinds does fail. -/
theorem excludesBelow_iff :
    (∀ pattern, OpenEnded pattern → ¬Excludes p pattern s ∨ ExcludesOn p pattern s →
      ExcludesBelow p pattern s) ∧
    (s ≠ [slash] → s.getLast? ≠ some 46 → ∀ pattern, OpenEnded pattern → ¬DollarSlash pattern →
      ¬Excludes p pattern s ∨ ExcludesOn p pattern s) ∧
    (s = [slash] ∨ s.getLast? = some 46 →
      ∃ pattern, OpenEnded pattern ∧ ¬DollarSlash pattern ∧ ¬ExcludesBelow p pattern s) ∧
    ∃ pattern, OpenEnded pattern ∧ DollarSlash pattern ∧ ¬ExcludesBelow p pattern s :=
  ⟨fun _ hopen h => h.elim (fun hnot hex => absurd hex hnot) (excludesBelow_of_on p hs hopen),
    fun hroot hlast _ hopen hdollar => (em _).elim
      (fun hex => .inr (excludesOn_of_excludes p hs hopen hdollar hroot hlast hex)) .inl,
    exists_not_excludesBelow p hs,exists_dollarSlash p hs⟩

end

/-- `a.` excludes the path `a.` and all below. -/
theorem excludesBelow_iff_of_dotted :
    ExcludesOn ⟨fun a b => decide (a ≤ b),fun _ => []⟩ [97,46] [97,46] ∧
      ExcludesBelow ⟨fun a b => decide (a ≤ b),fun _ => []⟩ [97,46] [97,46] := by
  have hon : ExcludesOn ⟨fun a b => decide (a ≤ b),fun _ => []⟩ [97,46] [97,46] := by
    unfold ExcludesOn
    decide +kernel
  exact ⟨hon,(excludesBelow_iff _ ⟨by decide +kernel,by decide,by decide,by decide +kernel⟩).1 [97,46]
    ⟨by decide,by decide⟩ (.inr hon)⟩

/-- `*.` excludes `a.` and does not exclude `a./b`. -/
theorem excludes_dotted_only :
    Excludes ⟨fun a b => decide (a ≤ b),fun _ => []⟩ [42,46] [97,46] ∧
    ¬Excludes ⟨fun a b => decide (a ≤ b),fun _ => []⟩ [42,46] (bDirItemPath [97,46] [98]) ∧
    ¬ExcludesOn ⟨fun a b => decide (a ≤ b),fun _ => []⟩ [42,46] [97,46] ∧
    ¬ExcludesBelow ⟨fun a b => decide (a ≤ b),fun _ => []⟩ [42,46] [97,46] := by
  have hex : Excludes ⟨fun a b => decide (a ≤ b),fun _ => []⟩ [42,46] [97,46] := by
    unfold Excludes
    decide +kernel
  have hnot : ¬Excludes ⟨fun a b => decide (a ≤ b),fun _ => []⟩ [42,46] (bDirItemPath [97,46] [98]) := by
    unfold Excludes
    decide +kernel
  exact ⟨hex,hnot,by unfold ExcludesOn; decide +kernel,fun h => hnot (h hex [98]
    ⟨by decide,by decide,by decide,by decide +kernel⟩)⟩

end ArchiveTarBuilder
