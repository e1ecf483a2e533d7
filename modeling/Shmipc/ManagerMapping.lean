import Shmipc.ManagerRun

namespace Shmipc

open ByteMemory BufferManager

variable {cap M had maxSliceSize : ℕ} {pairs : List SizePercentPair} {m m' : Mem}

def Consecutive (stop : ℕ) : ℕ → List SizeClass → Prop
  | start, [] => start ≤ stop
  | start, k :: ks => k.list.offsetInShm = start ∧ start < k.stop ∧ Consecutive stop k.stop ks

theorem consecutive_layout (hfit : had + used cap pairs ≤ M) : Consecutive M had (layout cap pairs had) := by
  induction pairs generalizing had with
  | nil => exact hfit
  | cons pair pairs ih =>
    have hcons : used cap (pair :: pairs) = need cap pair + used cap pairs := rfl
    have hpos : 0 < need cap pair := by
      rw [need]
      omega
    refine ⟨rfl, ?_, ?_⟩
    · rw [stop_classAt]
      omega
    · rw [stop_classAt]
      exact ih (by omega)

theorem mapping_list (hM : M < 4294967296) {pair : SizePercentPair} (hfit : had + need cap pair ≤ M)
    (hcap : (classAt cap pair had).list.capLoad m = bufferNum cap pair)
    (hper : (classAt cap pair had).list.capPerBuffer m = pair.size) :
    BufferList.mapping m M had = .ok (classAt cap pair had).list := by
  have hcap' : (⟨had, 0, 0⟩ : BufferList).capLoad m = bufferNum cap pair := hcap
  have hper' : (⟨had, 0, 0⟩ : BufferList).capPerBuffer m = pair.size := hper
  have hdef : need cap pair = 36 + bufferNum cap pair * (pair.size + 20) := rfl
  have hneed : u64 (36 + bufferNum cap pair * (pair.size + 20)) = need cap pair := Nat.mod_eq_of_lt (need_lt cap pair)
  have hlow : u32 (had + 36) = had + 36 := Nat.mod_eq_of_lt (by omega)
  have hhigh : u32 (had + need cap pair) = had + need cap pair := Nat.mod_eq_of_lt (by omega)
  have hlen : u32sub (need cap pair) 36 = bufferNum cap pair * (pair.size + 20) := by
    rw [u32sub, hdef]
    omega
  rw [BufferList.mapping, kBufferListHeaderSize_eq, kBufferHeaderSize_eq, if_neg (by omega)]
  simp only [hcap', hper', hneed]
  rw [if_neg (by omega), hlow, hhigh, if_neg (by omega), hlen]
  rfl

theorem mappingLists_eq (hM : M < 4294967296) (hfit : had + used cap pairs ≤ M)
    (hpos : ∀ p ∈ pairs, 0 < bufferNum cap p)
    (hwords : ∀ k ∈ layout cap pairs had, k.list.capLoad m = k.num ∧ k.list.capPerBuffer m = k.cap) :
    mappingLists m M 0 pairs.length had = .ok ((layout cap pairs had).map SizeClass.list) := by
  induction pairs generalizing had with
  | nil => rfl
  | cons pair pairs ih =>
    have hcons : used cap (pair :: pairs) = need cap pair + used cap pairs := rfl
    obtain ⟨hcap, hper⟩ := hwords (classAt cap pair had) List.mem_cons_self
    have hnum := hpos pair List.mem_cons_self
    have hat : u32 (0 + had) = had := by
      rw [u32]
      omega
    have hnext : u32 (had + need cap pair) = had + need cap pair := Nat.mod_eq_of_lt (by omega)
    have hlist : BufferList.mapping m M had = .ok (classAt cap pair had).list := mapping_list hM (by omega) hcap hper
    have hrest := @ih (had + need cap pair) (by omega) (fun p hp => hpos p (List.mem_cons_of_mem _ hp))
      fun k hk => hwords k (List.mem_cons_of_mem _ hk)
    have hcount : countBufferListMemSize ((classAt cap pair had).list.capLoad m) ((classAt cap pair had).list.capPerBuffer m) =
        need cap pair := by
      rw [hcap, hper]
      exact countBufferListMemSize_eq hnum (by omega)
    rw [List.length_cons, mappingLists, hat, hlist]
    simp only [hcount, hnext, hrest]
    rfl

theorem shapes_layout (cap had : ℕ) (pairs : List SizePercentPair) :
    (layout cap pairs had).map (fun k => (k.num, k.cap)) = pairs.map fun p => (bufferNum cap p, p.size) := by
  induction pairs generalizing had with
  | nil => rfl
  | cons pair pairs ih =>
    rw [layout, List.map_cons, List.map_cons, ih]
    rfl

theorem Pool.Free.outside {P : Pool} {e : Bool} {free : ℕ → Prop} (h : P.Free e m free)
    (hbehind : ∀ k ∈ P.classes, 8 ≤ k.list.offsetInShm) (hout : ∀ lo hi, 8 ≤ lo → SameOn m m' lo hi) : P.Free e m' free := by
  obtain ⟨F, hF, hfree⟩ := h
  have hheader : ∀ k ∈ P.classes, SameOn m m' k.list.offsetInShm (k.list.offsetInShm + 36) :=
    fun k hk => hout _ _ (hbehind k hk)
  have hchain : ∀ k ∈ P.classes, ∀ x ∈ F k, SameOn m m' x (x + 20) :=
    fun k hk x hx => hout _ _ ((hF.slot k hk x hx).1.behind hbehind)
  refine ⟨F, ⟨fun k hk => (hF.chain k hk).congr (hheader k hk) (hchain k hk), hF.slot, hF.apart, ?_, hF.unmixed,
    fun he k hk => (hF.counts he k hk).congr (hheader k hk) (hchain k hk)⟩, hfree⟩
  intro c a ha
  rw [BufferHeader.cap_congr (hout _ _ (ha.behind hbehind))]
  exact hF.caps c a ha

def createdMem (cap : ℕ) (pairs : List SizePercentPair) (m : Mem) : Mem :=
  store32 (laid (layout cap pairs 8) (store16 m 0 pairs.length)) 4 (used cap pairs)

def createdManager (cap M : ℕ) (pairs : List SizePercentPair) : MappedManager :=
  ⟨⟨(layout cap pairs 8).map SizeClass.list, (pairs.getLast?.map SizePercentPair.size).getD 0, M⟩,
    (pairs.head?.map SizePercentPair.size).getD 0⟩

theorem start_eq : u32 (kBufferManagerHeaderSize + 0) = 8 := rfl

theorem create_eq (h8 : 8 ≤ M) (hM : M < 4294967296) (hfit : 8 + used cap pairs ≤ M)
    (hcap : cap = bufferRegionCap M 0 pairs.length)
    (hlists : createLists cap M pairs 0 8 (store16 m 0 pairs.length) = .ok ((layout cap pairs 8).map SizeClass.list,
      8 + used cap pairs, laid (layout cap pairs 8) (store16 m 0 pairs.length))) :
    create pairs m M 0 = .ok (createdManager cap M pairs, createdMem cap pairs m) := by
  have hsub : u32sub (8 + used cap pairs) 8 = used cap pairs := by
    rw [u32sub]
    omega
  rw [create, if_neg (by omega), ← hcap, start_eq, hlists]
  simp only [kBufferManagerHeaderSize_eq, hsub]
  rfl

theorem create_ok {r : MappedManager × Mem} (h8 : 8 ≤ M) (hM : M < 4294967296)
    (hcap : cap = bufferRegionCap M 0 pairs.length) (h : create pairs m M 0 = .ok r) :
    r = (createdManager cap M pairs, createdMem cap pairs m) ∧ Laid cap M pairs 0 8 := by
  cases hlists : createLists cap M pairs 0 8 (store16 m 0 pairs.length) with
  | error err =>
    rw [create, if_neg (by omega), ← hcap, start_eq, hlists] at h
    cases h
  | ok x =>
    obtain ⟨ls, had', m'⟩ := x
    obtain ⟨rfl, rfl, rfl, hl⟩ := createLists_ok hM hlists
    rw [create_eq h8 hM (hl.fits h8) hcap hlists] at h
    cases h
    exact ⟨rfl, hl⟩

theorem layout_behind : ∀ k ∈ layout cap pairs 8, 8 ≤ k.list.offsetInShm := by
  intro k hk
  obtain ⟨p, -, off, rfl, hle, -⟩ := mem_layout hk
  exact hle

section Created

variable (hM : M < 4294967296) (hpos : ∀ p ∈ pairs, 0 < bufferNum cap p ∧ 0 < p.size) (hfit : 8 + used cap pairs ≤ M)
include hM hpos hfit

theorem created_inv (maxSliceSize : ℕ) (m : Mem) {e : Bool}
    (he : e = true → Unmixed (layout cap pairs 8)) :
    ManagerRun.Inv (laidPool hM hpos hfit maxSliceSize) e (createdMem cap pairs m) (createdMem cap pairs m) [] := by
  have hfree := laidPool_free hM hpos hfit maxSliceSize (store16 m 0 pairs.length) he
  have hout : ∀ lo hi, 8 ≤ lo → SameOn (laid (layout cap pairs 8) (store16 m 0 pairs.length)) (createdMem cap pairs m) lo hi :=
    fun lo hi hlo => sameOn_store32 _ _ _ (by omega)
  refine ⟨?_, nofun, List.nodup_nil, .refl _ _⟩
  exact (hfree.outside layout_behind hout).congr_free fun a => ⟨fun hr => hr.1, fun hs => ⟨hs, nofun⟩⟩

theorem created_lists (m : Mem) : ∀ k ∈ layout cap pairs 8,
    FreeList k.list k.num k.cap (createdMem cap pairs m) (k.list.slots k.num k.cap) := by
  intro k hk
  set P := laidPool hM hpos hfit 0
  have hlist : FreeList k.list k.num k.cap (laid (layout cap pairs 8) (store16 m 0 pairs.length)) (k.list.slots k.num k.cap) :=
    laid_freeList (fun k hk => ⟨(P.geometry k hk).num_pos, (P.geometry k hk).small⟩) P.order k hk
  have hle := layout_behind k hk
  refine hlist.congr (sameOn_store32 _ _ _ (by omega)) fun a ha => sameOn_store32 _ _ _ ?_
  have hlow := (BufferList.mem_slots.mp ha).le
  rw [BufferList.bufferRegion_eq] at hlow
  omega

theorem created_header (m : Mem) (hlen : pairs.length < 65536) :
    load16 (createdMem cap pairs m) 0 = pairs.length ∧ load32 (createdMem cap pairs m) 4 = used cap pairs := by
  set P := laidPool hM hpos hfit 0
  have hlaid : SameOn (store16 m 0 pairs.length) (laid (layout cap pairs 8) (store16 m 0 pairs.length)) 0 2 :=
    sameOn_laid (fun k hk => ⟨(P.geometry k hk).num_pos, (P.geometry k hk).small⟩) fun k hk =>
      le_trans (by omega) (layout_behind k hk)
  constructor
  · have hstore : SameOn (laid (layout cap pairs 8) (store16 m 0 pairs.length)) (createdMem cap pairs m) 0 2 :=
      sameOn_store32 _ _ _ (by omega)
    rw [load16_congr (hlaid.trans hstore), load16_store16_of_lt m 0 hlen]
  · exact load32_store32_of_lt _ 4 (by omega)

omit hM hpos hfit in
theorem mapping_ok {lists : List BufferList} (hM : kBmCapOffset < M)
    (hlen : u32 (kBufferManagerHeaderSize + load32 m (0 + kBmCapOffset)) ≤ M) (hnum : load16 m 0 ≠ 0)
    (hlists : mappingLists m M 0 (load16 m 0) kBufferManagerHeaderSize = .ok lists) :
    BufferManager.mapping m M 0 = .ok ⟨⟨lists, (lists.getLast?.map fun l => l.capPerBuffer m).getD 0, M⟩,
      (lists.head?.map fun l => l.capPerBuffer m).getD 0⟩ := by
  rw [BufferManager.mapping, if_neg (by omega)]
  refine (if_neg (not_or.mpr ⟨not_lt.mpr hlen, hnum⟩)).trans ?_
  rw [hlists]

theorem words_of_run {s : ManagerRun.State}
    (hrun : (ManagerRun.system (createdManager cap M pairs).toBufferManager (createdMem cap pairs m)).Run s) :
    (∀ k ∈ layout cap pairs 8, k.list.capLoad s.mem = k.num ∧ k.list.capPerBuffer s.mem = k.cap) ∧
      SameOn (createdMem cap pairs m) s.mem 0 8 := by
  have hstart : ManagerRun.Inv (laidPool hM hpos hfit ((pairs.getLast?.map SizePercentPair.size).getD 0)) false
      (createdMem cap pairs m) (createdMem cap pairs m) [] := created_inv hM hpos hfit _ m nofun
  have hinv := hstart.run layout_behind hrun
  refine ⟨fun k hk => ?_, hinv.keeps.header⟩
  obtain ⟨F, hF, -⟩ := hinv.pool
  refine ⟨?_, (hF.chain k hk).per⟩
  rw [hinv.keeps.caps k hk]
  exact (created_lists hM hpos hfit m k hk).cap

omit hM hpos hfit in
theorem sizes_layout (hwords : ∀ k ∈ layout cap pairs had, k.list.capPerBuffer m = k.cap) :
    ((layout cap pairs had).map SizeClass.list).map (fun l => l.capPerBuffer m) = pairs.map SizePercentPair.size := by
  have hshapes := congrArg (List.map Prod.snd) (shapes_layout cap had pairs)
  rw [List.map_map, List.map_map] at hshapes
  rw [List.map_map]
  exact (List.map_congr_left hwords).trans hshapes

theorem mapping_of_words (hne : pairs ≠ []) (h16 : load16 m 0 = pairs.length) (h32 : load32 m 4 = used cap pairs)
    (hwords : ∀ k ∈ layout cap pairs 8, k.list.capLoad m = k.num ∧ k.list.capPerBuffer m = k.cap) :
    BufferManager.mapping m M 0 = .ok (createdManager cap M pairs) := by
  have hlists : mappingLists m M 0 (load16 m 0) 8 = .ok ((layout cap pairs 8).map SizeClass.list) := by
    rw [h16]
    exact mappingLists_eq hM hfit (fun p hp => (hpos p hp).1) hwords
  have hlen : u32 (8 + load32 m 4) ≤ M := by
    rw [h32]
    exact (Nat.mod_le _ _).trans hfit
  have hnum : load16 m 0 ≠ 0 := by
    rw [h16]
    exact (List.length_pos_iff.mpr hne).ne'
  have hmap := mapping_ok (show 4 < M by omega) hlen hnum hlists
  rw [← List.head?_map, ← List.getLast?_map, sizes_layout fun k hk => (hwords k hk).2, List.head?_map,
    List.getLast?_map] at hmap
  exact hmap

theorem mapping_of_run (hne : pairs ≠ []) (hlength : pairs.length < 65536) {s : ManagerRun.State}
    (hrun : (ManagerRun.system (createdManager cap M pairs).toBufferManager (createdMem cap pairs m)).Run s) :
    BufferManager.mapping s.mem M 0 = .ok (createdManager cap M pairs) := by
  obtain ⟨hwords, hsame⟩ := words_of_run hM hpos hfit hrun
  obtain ⟨hnum, hlen⟩ := created_header hM hpos hfit m hlength
  refine mapping_of_words hM hpos hfit hne ?_ ?_ hwords
  · rw [load16_congr (hsame.mono le_rfl (by omega)), hnum]
  · rw [load32_congr (hsame.mono (by omega) (by omega)), hlen]

end Created

def shareOf (M lists : ℕ) (p : SizePercentPair) : ℤ := ((M : ℤ) - 8 - 36 * lists) * p.percent / 100 / (p.size + 20)

theorem bufferRegionCap_eq {n : ℕ} (hM : M < 4294967296) (hfit : 8 + 36 * n ≤ M) :
    bufferRegionCap M 0 n = M - 8 - 36 * n := by
  rw [bufferRegionCap, kBufferListHeaderSize_eq, kBufferManagerHeaderSize_eq, Int.emod_eq_of_lt]
  all_goals omega

theorem shareOf_eq {n : ℕ} {p : SizePercentPair} (hM : M < 4294967296) (hfit : 8 + 36 * n ≤ M) (hp : p.percent ≤ 100) :
    shareOf M n p = bufferNum (bufferRegionCap M 0 n) p := by
  rw [bufferRegionCap_eq hM hfit]
  have hle : (M - 8 - 36 * n) * p.percent ≤ (M - 8 - 36 * n) * 100 := Nat.mul_le_mul_left _ hp
  have hdiv : (M - 8 - 36 * n) * p.percent / 100 / (p.size + 20) ≤ (M - 8 - 36 * n) * p.percent / 100 := Nat.div_le_self _ _
  have hnum : bufferNum (M - 8 - 36 * n) p = (M - 8 - 36 * n) * p.percent / 100 / (p.size + 20) := by
    rw [bufferNum, kBufferHeaderSize_eq, u64, Nat.mod_eq_of_lt (by omega)]
    exact Nat.mod_eq_of_lt (by omega)
  have hcast : ((M - 8 - 36 * n : ℕ) : ℤ) = (M : ℤ) - 8 - 36 * n := by omega
  rw [hnum, shareOf, ← hcast]
  norm_cast

theorem shareOf_of_small {n : ℕ} (hsmall : M < 8 + 36 * n) (p : SizePercentPair) : shareOf M n p < 1 := by
  have hneg : ((M : ℤ) - 8 - 36 * n) * p.percent ≤ 0 := Int.mul_nonpos_of_nonpos_of_nonneg (by omega) (by omega)
  have hdiv : ((M : ℤ) - 8 - 36 * n) * p.percent / 100 ≤ 0 := Int.ediv_le_of_le_mul (by omega) (by omega)
  have hdiv' : ((M : ℤ) - 8 - 36 * n) * p.percent / 100 / (p.size + 20) ≤ 0 :=
    Int.ediv_le_of_le_mul (by omega) (by omega)
  rw [shareOf]
  omega

theorem percent_le {p : SizePercentPair} (hp : p ∈ pairs) : p.percent ≤ percents pairs :=
  List.single_le_sum (fun _ _ => Nat.zero_le _) _ (List.mem_map_of_mem hp)

theorem length_le_used (cap : ℕ) (pairs : List SizePercentPair) : 36 * pairs.length ≤ used cap pairs := by
  induction pairs with
  | nil => exact Nat.zero_le _
  | cons pair pairs ih =>
    have hcons : used cap (pair :: pairs) = 36 + bufferNum cap pair * (pair.size + 20) + used cap pairs := rfl
    rw [hcons, List.length_cons]
    omega

/-- A pair with no share gets no slot, so at most a hundred pairs pass. -/
theorem length_le_percents (hpos : ∀ p ∈ pairs, 0 < bufferNum cap p) : pairs.length ≤ percents pairs := by
  induction pairs with
  | nil => exact Nat.zero_le _
  | cons pair pairs ih =>
    have hcons : percents (pair :: pairs) = pair.percent + percents pairs := rfl
    have hrest := ih fun p hp => hpos p (List.mem_cons_of_mem _ hp)
    have hpercent : 0 < pair.percent := by
      by_contra hzero
      have hnum := hpos pair List.mem_cons_self
      rw [bufferNum, show pair.percent = 0 by omega, Nat.mul_zero] at hnum
      simp [u64, u32] at hnum
    rw [hcons, List.length_cons]
    omega

theorem create_iff (hM : M < 4294967296) (h8 : 8 ≤ M) (hne : pairs ≠ []) (hsum : percents pairs < 4294967296) (m : Mem) :
    (∃ r, create pairs m M 0 = .ok r) ↔
      percents pairs ≤ 100 ∧ ∀ p ∈ pairs, 0 < p.size ∧ 1 ≤ shareOf M pairs.length p := by
  constructor
  · rintro ⟨r, hr⟩
    obtain ⟨-, hl⟩ := create_ok h8 hM rfl hr
    have hpercents : percents pairs ≤ 100 := by
      have hle := hl.percent (by omega) (by omega)
      omega
    have hfit := hl.fits h8
    have hlen := length_le_used (bufferRegionCap M 0 pairs.length) pairs
    refine ⟨hpercents, fun p hp => ⟨(hl.positive p hp).2, ?_⟩⟩
    rw [shareOf_eq hM (by omega) ((percent_le hp).trans hpercents)]
    exact_mod_cast (hl.positive p hp).1
  · rintro ⟨hpercents, hpairs⟩
    have hsmall : 8 + 36 * pairs.length ≤ M := by
      obtain ⟨p, hp⟩ := List.exists_mem_of_ne_nil pairs hne
      by_contra hlt
      have hshare := shareOf_of_small (not_le.mp hlt) p
      exact absurd (hpairs p hp).2 (not_le.mpr hshare)
    have hpos : ∀ p ∈ pairs, 0 < bufferNum (bufferRegionCap M 0 pairs.length) p ∧ 0 < p.size := by
      intro p hp
      have hshare := (hpairs p hp).2
      rw [shareOf_eq hM hsmall ((percent_le hp).trans hpercents)] at hshare
      exact ⟨by exact_mod_cast hshare, (hpairs p hp).1⟩
    have hfit : 8 + used (bufferRegionCap M 0 pairs.length) pairs ≤ M := by
      have hused := used_le (bufferRegionCap M 0 pairs.length) pairs
      have hshare := Nat.mul_le_mul_left (bufferRegionCap M 0 pairs.length) hpercents
      rw [bufferRegionCap_eq hM hsmall] at hused hshare ⊢
      omega
    exact ⟨_, create_eq h8 hM hfit rfl (createLists_eq hM (by omega) hpos hfit)⟩

theorem create_mapping_agree (hlow : 2 ^ 20 ≤ M) (hhigh : M < 2 ^ 32) (hne : pairs ≠ []) (hsum : percents pairs < 2 ^ 32)
    (m : Mem) :
    ((∃ r, create pairs m M 0 = .ok r) ↔
      percents pairs ≤ 100 ∧ ∀ p ∈ pairs, 0 < p.size ∧ 1 ≤ shareOf M pairs.length p) ∧
    ∀ bm m', create pairs m M 0 = .ok (bm, m') → ∃ classes : List SizeClass,
      bm.lists = classes.map SizeClass.list ∧
      classes.map (fun k => ((k.num : ℤ), k.cap)) = pairs.map (fun p => (shareOf M pairs.length p, p.size)) ∧
      Consecutive M 8 classes ∧
      ∀ s, (ManagerRun.system bm.toBufferManager m').Run s → BufferManager.mapping s.mem M 0 = .ok bm ∧
        ∀ k ∈ classes, k.list.capLoad s.mem = k.num ∧ k.list.capPerBuffer s.mem = k.cap := by
  refine ⟨create_iff hhigh (by omega) hne hsum m, fun bm m' hr => ?_⟩
  obtain ⟨hpercents, -⟩ := (create_iff hhigh (by omega) hne hsum m).mp ⟨_, hr⟩
  obtain ⟨heq, hl⟩ := create_ok (by omega) hhigh rfl hr
  rw [Prod.mk.injEq] at heq
  obtain ⟨rfl, rfl⟩ := heq
  have hfit := hl.fits (by omega)
  have hlen := length_le_percents fun p hp => (hl.positive p hp).1
  have hused := length_le_used (bufferRegionCap M 0 pairs.length) pairs
  refine ⟨layout (bufferRegionCap M 0 pairs.length) pairs 8, rfl, ?_, consecutive_layout hfit, fun s hs => ?_⟩
  · have hshapes := congrArg (List.map fun x : ℕ × ℕ => ((x.1 : ℤ), x.2)) (shapes_layout (bufferRegionCap M 0 pairs.length) 8 pairs)
    rw [List.map_map, List.map_map] at hshapes
    refine hshapes.trans (List.map_congr_left fun p hp => ?_)
    rw [Function.comp_apply, shareOf_eq hhigh (by omega) ((percent_le hp).trans hpercents)]
  · exact ⟨mapping_of_run hhigh hl.positive hfit hne (by omega) hs, (words_of_run hhigh hl.positive hfit hs).1⟩

def defaultPairs : List SizePercentPair := [⟨8172, 50⟩, ⟨32748, 30⟩, ⟨131052, 20⟩]

theorem create_mapping_default : ∃ bm m', create defaultPairs ⟨fun _ => 0⟩ 1048576 0 = .ok (bm, m') ∧
    BufferManager.mapping m' 1048576 0 = .ok bm := by
  have hagree := @create_mapping_agree 1048576 defaultPairs (by norm_num) (by norm_num) (by decide) (by decide) ⟨fun _ => 0⟩
  obtain ⟨⟨bm, m'⟩, hr⟩ := hagree.1.mpr (by decide)
  obtain ⟨classes, -, -, -, hmap⟩ := hagree.2 bm m' hr
  exact ⟨bm, m', hr, (hmap ⟨m', []⟩ (.initial rfl)).1⟩

end Shmipc
