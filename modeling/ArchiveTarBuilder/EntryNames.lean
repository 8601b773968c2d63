import ArchiveTarBuilder.Entries
import ArchiveTarBuilder.MemberName

/-! The member names that a traversal makes of the paths of its entries. The length of the root is
cut off a path, and what is left goes behind the member name of the root. -/
namespace ArchiveTarBuilder
open CString

abbrev chainNames (chain : List (Bytes × Probe)) : List Bytes := chain.map Prod.fst

/-- An entry below a directory has the names joined behind what stands in front of them. -/
theorem entryPath_eq (dir : Bytes) {chain : List (Bytes × Probe)} (hne : chain ≠ [])
    (hnames : ∀ e ∈ chain, e.1 ≠ []) :
    entryPath dir chain = dirPrefix dir ++ joinPath (chainNames chain) := by
  induction chain generalizing dir with
  | nil => exact absurd rfl hne
  | cons e chain ih =>
    have he := hnames e List.mem_cons_self
    by_cases hnil : chain = []
    · subst hnil
      simp [entryPath,chainNames,bDirItemPath_eq,joinPath,bStringJoin]
    · have hrest := ih (bDirItemPath dir e.1) hnil fun x hx => hnames x (List.mem_cons_of_mem _ hx)
      rw [dirPrefix_of_ne (bDirItemPath_ne_slash dir he),bDirItemPath_eq] at hrest
      simp only [entryPath,chainNames,List.map_cons,List.foldl_cons,bDirItemPath_eq] at hrest ⊢
      rw [hrest,joinPath_cons (by simpa using hnil)]
      simp

theorem dropDots_append {xs ys : List Bytes} (h : dot ∉ ys) : dropDots (xs ++ ys) =
    dropDots xs ++ ys := by
  have hfilter : ys.filter (· ≠ dot) = ys := by
    rw [List.filter_eq_self]
    intro y hy
    simpa using fun he : y = dot => h (he ▸ hy)
  cases xs with
  | cons x xs => simp only [List.cons_append,dropDots,List.filter_append,hfilter]
  | nil =>
    cases ys with
    | nil => rfl
    | cons y ys =>
      have hrest : ys.filter (· ≠ dot) = ys := by
        rw [List.filter_eq_self]
        intro z hz
        simpa using fun he : z = dot => h (he ▸ List.mem_cons_of_mem _ hz)
      simp only [List.nil_append,dropDots,hrest]

theorem components_append {a : Bytes} {names : List Bytes} (htok : TokenItems names)
    (hdot : dot ∉ names) : components (a ++ slash::joinPath names) = components a ++ names := by
  rw [components,strtok_append,strtok_joinPath htok,dropDots_append hdot,← components]

theorem joinPath_glue (xs : List Bytes) (x n : Bytes) (ns : List Bytes) :
    joinPath (xs ++ [x]) ++ joinPath (n::ns) = joinPath (xs ++ (x ++ n)::ns) := by
  have hlast : x ++ joinPath (n::ns) = joinPath ((x ++ n)::ns) := by
    by_cases hnil : ns = []
    · subst hnil
      simp [joinPath,bStringJoin]
    · rw [joinPath_cons hnil,joinPath_cons hnil,List.append_assoc]
  induction xs with
  | nil => simpa [joinPath,bStringJoin] using hlast
  | cons y xs ih =>
    have hleft : xs ++ [x] ≠ [] := by simp
    have hright : xs ++ (x ++ n)::ns ≠ [] := by simp
    rw [List.cons_append,List.cons_append,joinPath_cons hleft,joinPath_cons hright,
      List.append_assoc,List.cons_append,ih]

theorem length_dropDots_le (items : List Bytes) : (dropDots items).length ≤ items.length := by
  cases items with
  | nil => exact le_rfl
  | cons first rest =>
    have hle := List.length_filter_le (· ≠ dot) rest
    simp only [dropDots,List.length_cons]
    omega

theorem components_glued {comps names : List Bytes} (hcomps : TokenItems comps)
    (hnames : TokenItems names) (hne : comps ≠ []) (hne' : names ≠ []) :
    (components (joinPath comps ++ joinPath names)).length < comps.length+names.length := by
  obtain ⟨n,ns,rfl⟩ := List.exists_cons_of_ne_nil hne'
  obtain ⟨xs,x,rfl⟩ : ∃ xs x, comps = xs ++ [x] :=
    ⟨comps.dropLast,comps.getLast hne,(List.dropLast_append_getLast hne).symm⟩
  have htok : TokenItems (xs ++ (x ++ n)::ns) := by
    intro y hy
    rcases List.mem_append.mp hy with hy | hy
    · exact hcomps y (List.mem_append_left _ hy)
    · rcases List.mem_cons.mp hy with rfl | hy
      · have hx := hcomps x (by simp)
        have hn := hnames n (by simp)
        exact ⟨by simp [hx.1],by simp [hx.2,hn.2]⟩
      · exact hnames y (List.mem_cons_of_mem _ hy)
  rw [joinPath_glue,components,strtok_joinPath htok]
  have hle := length_dropDots_le (xs ++ (x ++ n)::ns)
  simp only [List.length_append,List.length_cons,List.length_nil] at hle ⊢
  omega

/-- The root is `/` and the name for it is neither `/` nor empty: no slash is left between the two
parts of a member name. -/
def Glued (path memberName : Bytes) : Prop :=
  bPathClean path = [slash] ∧ bPathClean memberName ≠ [slash] ∧ bPathClean memberName ≠ []

instance (path memberName : Bytes) : Decidable (Glued path memberName) := by
  unfold Glued; infer_instance

theorem substMemberName_components (path memberName : Bytes) {names : List Bytes}
    (htok : TokenItems names) (hdot : dot ∉ names) (hne : names ≠ []) :
    components ((substMemberName (bPathClean path) (bPathClean memberName)
        (dirPrefix (bPathClean path) ++ joinPath names)).getD
          (dirPrefix (bPathClean path) ++ joinPath names)) =
      components (bPathClean memberName) ++ names ↔ ¬Glued path memberName := by
  have hnames : components (joinPath names) = names := by
    have happend := components_append (a := []) htok hdot
    rwa [List.nil_append,components_slash_append] at happend
  by_cases hsame : bPathClean path = bPathClean memberName
  · have hnot : ¬Glued path memberName := fun h => h.2.1 (hsame ▸ h.1)
    refine iff_of_true ?_ hnot
    rw [substMemberName,if_neg (by simpa using hsame),Option.getD_none,← hsame]
    by_cases hroot : bPathClean path = [slash]
    · rw [hroot,dirPrefix,if_pos rfl,List.singleton_append,components_slash_append,hnames]
      rfl
    · rw [dirPrefix_of_ne hroot,List.append_assoc,List.singleton_append,
        components_append htok hdot]
  · rw [substMemberName,if_pos hsame,Option.getD_some]
    by_cases hroot : bPathClean path = [slash]
    · have hcut : (dirPrefix (bPathClean path) ++ joinPath names).drop (bPathClean path).length =
          joinPath names := by
        rw [hroot,dirPrefix,if_pos rfl]
        rfl
      rw [hcut]
      by_cases hempty : bPathClean memberName = []
      · refine iff_of_true ?_ fun h => h.2.2 hempty
        rw [hempty,List.nil_append,hnames]
        rfl
      · have hglued : Glued path memberName := ⟨hroot,fun h => hsame (hroot.trans h.symm),hempty⟩
        refine iff_of_false (fun hcomponents => ?_) (not_not.mpr hglued)
        have hlength := congrArg List.length hcomponents
        have htok' := tokenItems_components (cstr memberName)
        have hclean := bPathClean_eq (zero_notMem_cstr memberName)
        rw [bPathClean_cstr] at hclean
        have hjoined := components_joinPath (cstr memberName)
        by_cases hcomps : components (cstr memberName) = []
        · rw [hcomps] at hclean
          split at hclean
          · exact hglued.2.1 hclean
          · exact hempty hclean
        · have hlt := components_glued htok' htok hcomps hne
          split at hclean
          · rw [hclean,List.singleton_append,List.cons_append,components_slash_append,
              components_slash_append,hjoined,
              List.length_append] at hlength
            omega
          · rw [hclean,List.nil_append,hjoined,List.length_append] at hlength
            omega
    · have hcut : (dirPrefix (bPathClean path) ++ joinPath names).drop (bPathClean path).length =
          slash::joinPath names := by
        rw [dirPrefix_of_ne hroot,List.append_assoc,List.drop_left]
        rfl
      rw [hcut,components_append htok hdot]
      exact iff_of_true rfl fun h => hroot h.1

section
variable {σ : Type*} (w : FindWorld σ) (flags : FindFlags)

/-- Every call for an entry below the root passes a name that denotes the entry under the member
name of the root, unless the two are glued together. -/
theorem memberName_denotes_iff (path memberName : Bytes) (tree : Tree) (world : σ)
    (hproper : tree.listing.Proper) :
    ∀ c ∈ (bFind w flags path memberName tree world).2.trace.tail,
      ∃ chain, tree.listing.Chain chain ∧ c.path = entryPath (bPathClean path) chain ∧
        (components c.memberName = components (bPathClean memberName) ++ chainNames chain ↔
          ¬Glued path memberName) := by
  intro c hc
  cases hentered : bFindEntered w flags path memberName tree world with
  | none =>
    rw [bFind_not_entered w flags hentered] at hc
    cases hc
  | some s =>
    obtain ⟨-,call,htrace,-⟩ := bFind_walk w flags hentered
    rw [htrace,List.tail_cons] at hc
    obtain ⟨chain,hchain,hpath,hname,hdots⟩ := walk_about w flags _ _ _ _ _ c hc
    have hnames := hchain.proper hproper
    refine ⟨chain,hchain,hpath,?_⟩
    rw [hname,hpath,entryPath_eq _ hchain.ne_nil fun e he => (hnames e he).1]
    apply substMemberName_components
    · intro x hx
      obtain ⟨e,he,rfl⟩ := List.mem_map.mp hx
      exact hnames e he
    · intro hdot
      obtain ⟨e,he,heq⟩ := List.mem_map.mp hdot
      exact (hdots e he).1 heq
    · simpa using hchain.ne_nil

end

def oneFile : Tree :=
  ⟨answers ⟨sIfdir+0o755,0,0,0,0,0,0,7,1⟩ (.ok ()),
    .entry [102] (answers ⟨sIfreg+0o644,0,0,3,0,0,0,8,1⟩ (.ok ())) .eof .eof⟩

/-- `archive_as("./d/" => "m")`. -/
theorem memberName_denotes_relative :
    ∃ c ∈ (bFind easyWorld ⟨false,false⟩ [46,47,100,47] [109] oneFile ()).2.trace.tail,
      ∃ chain, oneFile.listing.Chain chain ∧
        components c.memberName = components (bPathClean [109]) ++ chainNames chain := by
  have hpaths : (bFind easyWorld ⟨false,false⟩ [46,47,100,47] [109] oneFile ()).2.trace.tail.map
      (fun c => c.path) = [[46,47,100,47,102]] := by
    decide +kernel
  obtain ⟨c,hc,-⟩ := List.mem_map.mp (hpaths ▸ List.mem_singleton_self [46,47,100,47,102])
  obtain ⟨chain,hchain,-,hiff⟩ := memberName_denotes_iff easyWorld ⟨false,false⟩ [46,47,100,47] [109]
    oneFile () ⟨by decide,by decide,by decide,trivial,trivial⟩ c hc
  exact ⟨c,hc,chain,hchain,hiff.mpr (by decide +kernel)⟩

/-- `archive_as("/" => "m")`: the file `/f` is called `mf`. -/
theorem not_denotes_root :
    ¬∀ c ∈ (bFind easyWorld ⟨false,false⟩ [47] [109] oneFile ()).2.trace.tail,
      ∃ chain, oneFile.listing.Chain chain ∧ c.path = entryPath (bPathClean [47]) chain ∧
        components c.memberName = components (bPathClean [109]) ++ chainNames chain := by
  intro h
  have hnames : (bFind easyWorld ⟨false,false⟩ [47] [109] oneFile ()).2.trace.tail.map
      (fun c => c.memberName) = [[109,102]] := by decide +kernel
  obtain ⟨c,hc,hname⟩ := List.mem_map.mp (hnames ▸ List.mem_singleton_self [109,102])
  obtain ⟨chain,hchain,-,hcomponents⟩ := h c hc
  have hlength := congrArg List.length hcomponents
  have hpos := List.length_pos_iff.mpr hchain.ne_nil
  have hone : (components ([109,102] : Bytes)).length = 1 := by decide +kernel
  have hroot : (components (bPathClean [109])).length = 1 := by decide +kernel
  rw [hname,hone,List.length_append,hroot,List.length_map] at hlength
  omega

end ArchiveTarBuilder
