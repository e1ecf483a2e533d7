import Shmipc.Pool

namespace Shmipc

open ByteMemory

def kBufferManagerHeaderSize : ℕ := 8
def kBmCapOffset : ℕ := 4

structure SizePercentPair where
  size : ℕ
  percent : ℕ
deriving DecidableEq

structure MappedManager extends BufferManager where
  minSliceSize : ℕ
deriving DecidableEq

def BufferList.mapping (m : Mem) (memLen offsetInShm : ℕ) : Result BufferList :=
  if memLen < offsetInShm + kBufferListHeaderSize then
    .error (.other ("mapping buffer list failed, mem's size is at least " ++
      toString (u32 (offsetInShm + kBufferListHeaderSize))))
  else
    let b : BufferList := ⟨offsetInShm, 0, 0⟩
    let needSize := u64 (kBufferListHeaderSize + b.capLoad m * (b.capPerBuffer m + kBufferHeaderSize))
    if needSize > 4294967295 then
      .error (.other "mapping buffer list failed: corrupted header (size overflow)")
    else if u32 (offsetInShm + needSize) > memLen ∨
        u32 (offsetInShm + needSize) < u32 (offsetInShm + kBufferListHeaderSize) then
      .error (.other ("mapping buffer list failed, size:" ++ toString (b.sizeLoad m) ++ " cap:" ++
        toString (b.capLoad m) ++ " head:" ++ toString (b.headLoad m) ++ " tail:" ++ toString (b.tailLoad m) ++
        " cap_per_buffer:" ++ toString (b.capPerBuffer m) ++ " err: mem's size is at least " ++ toString needSize ++
        " but:" ++ toString memLen))
    else
      .ok ⟨offsetInShm, u32sub needSize kBufferListHeaderSize, u32 (offsetInShm + kBufferListHeaderSize)⟩

namespace BufferManager

/-- The subtraction is one of unsigned 64-bit values. -/
def bufferRegionCap (memSize offset lists : ℕ) : ℕ :=
  (((memSize : ℤ) - offset - kBufferListHeaderSize * lists - kBufferManagerHeaderSize) % 18446744073709551616).toNat

def bufferNum (bufferRegionCap : ℕ) (pair : SizePercentPair) : ℕ :=
  u32 (u64 (bufferRegionCap * pair.percent) / 100 / (pair.size + kBufferHeaderSize))

def createLists (bufferRegionCap memSize : ℕ) : List SizePercentPair → ℕ → ℕ → Mem → Result (List BufferList × ℕ × Mem)
  | [], _, hadUsedOffset, m => .ok ([], hadUsedOffset, m)
  | pair :: pairs, sumPercent, hadUsedOffset, m =>
    let sumPercent := u32 (sumPercent + pair.percent)
    if sumPercent > 100 then
      .error (.other "the sum of all size_percent_pairs's percent must be equals 100")
    else
      let num := bufferNum bufferRegionCap pair
      let needSize := countBufferListMemSize num pair.size
      match BufferList.create num pair.size m memSize hadUsedOffset with
      | .error err => .error err
      | .ok (l, m) =>
        match createLists bufferRegionCap memSize pairs sumPercent (u32 (hadUsedOffset + needSize)) m with
        | .error err => .error err
        | .ok (ls, hadUsedOffset, m) => .ok (l :: ls, hadUsedOffset, m)

def create (pairs : List SizePercentPair) (m : Mem) (memSize offset : ℕ) : Result (MappedManager × Mem) :=
  if memSize ≤ offset then
    .error (.other ("mem's size is at least: " ++ toString (u32 (offset + 1)) ++ ", but: " ++ toString memSize))
  else
    match createLists (bufferRegionCap memSize offset pairs.length) memSize pairs 0
      (u32 (kBufferManagerHeaderSize + offset)) (store16 m offset pairs.length) with
    | .error err => .error err
    | .ok (lists, hadUsedOffset, m) =>
      .ok (⟨⟨lists, (pairs.getLast?.map SizePercentPair.size).getD 0, memSize⟩,
        (pairs.head?.map SizePercentPair.size).getD 0⟩,
        store32 m (offset + kBmCapOffset) (u32sub hadUsedOffset kBufferManagerHeaderSize))

def mappingLists (m : Mem) (memSize start : ℕ) : ℕ → ℕ → Result (List BufferList)
  | 0, _ => .ok []
  | n + 1, hadUsedOffset =>
    match BufferList.mapping m memSize (u32 (start + hadUsedOffset)) with
    | .error err => .error err
    | .ok l =>
      match mappingLists m memSize start n
        (u32 (hadUsedOffset + countBufferListMemSize (l.capLoad m) (l.capPerBuffer m))) with
      | .error err => .error err
      | .ok ls => .ok (l :: ls)

def mapping (m : Mem) (memSize start : ℕ) : Result MappedManager :=
  if memSize ≤ start + kBmCapOffset ∨ memSize ≤ start then
    .error (.other ("mem's size is at least:" ++ toString (u32 (start + kBmCapOffset + 1)) ++ " but:" ++
      toString memSize ++ " buffer_region_start_offset:" ++ toString start))
  else
    let listNum := load16 m start
    let length := load32 m (start + kBmCapOffset)
    if memSize < u32 (kBufferManagerHeaderSize + length) ∨ listNum = 0 then
      .error (.other ("could not mapping buffer manager ,list_num:" ++ toString listNum ++ " len(mem) at least:" ++
        toString (u32 (kBufferManagerHeaderSize + length)) ++ " but:" ++ toString memSize))
    else
      match mappingLists m memSize start listNum kBufferManagerHeaderSize with
      | .error err => .error err
      | .ok lists =>
        .ok ⟨⟨lists, (lists.getLast?.map fun l => l.capPerBuffer m).getD 0, memSize⟩,
          (lists.head?.map fun l => l.capPerBuffer m).getD 0⟩

end BufferManager

open BufferManager

variable {cap M sum had had' : ℕ} {pair : SizePercentPair} {pairs : List SizePercentPair} {m m' : Mem}
  {ls : List BufferList}

theorem kBufferListHeaderSize_eq : kBufferListHeaderSize = 36 := rfl

theorem kBufferManagerHeaderSize_eq : kBufferManagerHeaderSize = 8 := rfl

theorem kBmCapOffset_eq : kBmCapOffset = 4 := rfl

def need (cap : ℕ) (pair : SizePercentPair) : ℕ := 36 + bufferNum cap pair * (pair.size + 20)

def used (cap : ℕ) (pairs : List SizePercentPair) : ℕ := (pairs.map (need cap)).sum

def classAt (cap : ℕ) (pair : SizePercentPair) (had : ℕ) : SizeClass :=
  ⟨⟨had, bufferNum cap pair * (pair.size + 20), had + 36⟩, bufferNum cap pair, pair.size⟩

def layout (cap : ℕ) : List SizePercentPair → ℕ → List SizeClass
  | [], _ => []
  | pair :: pairs, had => classAt cap pair had :: layout cap pairs (had + need cap pair)

def laid (classes : List SizeClass) (m : Mem) : Mem :=
  classes.foldl (fun m k => k.list.created k.num k.cap m) m

theorem stop_classAt (cap : ℕ) (pair : SizePercentPair) (had : ℕ) : (classAt cap pair had).stop = had + need cap pair := by
  rw [SizeClass.stop, BufferList.bufferRegion_eq, classAt, need, add_assoc]

theorem bufferNum_mul_le (cap : ℕ) (pair : SizePercentPair) :
    bufferNum cap pair * (pair.size + 20) ≤ u64 (cap * pair.percent) / 100 := by
  calc bufferNum cap pair * (pair.size + 20)
      ≤ u64 (cap * pair.percent) / 100 / (pair.size + 20) * (pair.size + 20) :=
        Nat.mul_le_mul_right _ (Nat.mod_le _ _)
    _ ≤ u64 (cap * pair.percent) / 100 := Nat.div_mul_le_self _ _

theorem need_lt (cap : ℕ) (pair : SizePercentPair) : need cap pair < 18446744073709551616 := by
  have hle := bufferNum_mul_le cap pair
  have hlt : u64 (cap * pair.percent) < 18446744073709551616 := Nat.mod_lt _ (by decide)
  rw [need]
  omega

theorem create_list (cap had : ℕ) (pair : SizePercentPair) (m : Mem) (hM : M < 4294967296) :
    BufferList.create (bufferNum cap pair) pair.size m M had =
        .ok ((classAt cap pair had).list, (classAt cap pair had).list.created (bufferNum cap pair) pair.size m) ∧
      0 < bufferNum cap pair ∧ 0 < pair.size ∧ had + need cap pair ≤ M ∨
    (∃ err, BufferList.create (bufferNum cap pair) pair.size m M had = .error err) ∧
      ¬(0 < bufferNum cap pair ∧ 0 < pair.size ∧ had + need cap pair ≤ M) := by
  have hneed : u64 (36 + bufferNum cap pair * (pair.size + 20)) = need cap pair := Nat.mod_eq_of_lt (need_lt cap pair)
  have hM' : u32 M = M := Nat.mod_eq_of_lt hM
  by_cases hok : 0 < bufferNum cap pair ∧ 0 < pair.size ∧ had + need cap pair ≤ M
  · left
    obtain ⟨hnum, hsize, hfit⟩ := hok
    have hslot : 0 < bufferNum cap pair * (pair.size + 20) := Nat.mul_pos hnum (by omega)
    have hdef : need cap pair = 36 + bufferNum cap pair * (pair.size + 20) := rfl
    have hlow : u32 (had + 36) = had + 36 := Nat.mod_eq_of_lt (by omega)
    have hhigh : u32 (had + need cap pair) = had + need cap pair := Nat.mod_eq_of_lt (by omega)
    refine ⟨BufferList.create_eq hnum hsize ?_ ?_ ?_ ?_ ?_ ?_, hnum, hsize, hfit⟩
    · rw [hneed]
      omega
    · rw [hneed]
      exact hfit
    · rw [hM']
      omega
    · rw [hneed, hM']
      omega
    · rw [hneed, hlow, hhigh]
      omega
    · have hlen : u32sub (need cap pair) 36 = bufferNum cap pair * (pair.size + 20) := by
        rw [u32sub, hdef]
        omega
      rw [hneed, hlow, hlen]
      rfl
  · right
    refine ⟨?_, hok⟩
    cases hres : BufferList.create (bufferNum cap pair) pair.size m M had with
    | error err => exact ⟨err, rfl⟩
    | ok r =>
      obtain ⟨hnum, hsize, -, hfit, -⟩ := BufferList.create_eq_ok hres
      rw [hneed] at hfit
      exact absurd ⟨hnum, hsize, hfit⟩ hok

theorem countBufferListMemSize_eq (hnum : 0 < bufferNum cap pair) (hlt : need cap pair < 4294967296) :
    countBufferListMemSize (bufferNum cap pair) pair.size = need cap pair := by
  have hdef : need cap pair = 36 + bufferNum cap pair * (pair.size + 20) := rfl
  have hle : pair.size + 20 ≤ bufferNum cap pair * (pair.size + 20) := Nat.le_mul_of_pos_left _ hnum
  rw [countBufferListMemSize, kBufferListHeaderSize_eq, kBufferHeaderSize_eq]
  rw [u32, u32, Nat.mod_eq_of_lt (show pair.size + 20 < 4294967296 by omega), ← hdef, Nat.mod_eq_of_lt hlt]

def percents (pairs : List SizePercentPair) : ℕ := (pairs.map SizePercentPair.percent).sum

structure Laid (cap M : ℕ) (pairs : List SizePercentPair) (sum had : ℕ) : Prop where
  percent : sum + percents pairs < 4294967296 → sum ≤ 100 → sum + percents pairs ≤ 100
  positive : ∀ p ∈ pairs, 0 < bufferNum cap p ∧ 0 < p.size
  fits : had ≤ M → had + used cap pairs ≤ M

theorem createLists_cons :
    createLists cap M (pair :: pairs) sum had m =
      if u32 (sum + pair.percent) > 100 then
        .error (.other "the sum of all size_percent_pairs's percent must be equals 100")
      else
        match BufferList.create (bufferNum cap pair) pair.size m M had with
        | .error err => .error err
        | .ok (l, m) =>
          match createLists cap M pairs (u32 (sum + pair.percent))
            (u32 (had + countBufferListMemSize (bufferNum cap pair) pair.size)) m with
          | .error err => .error err
          | .ok (ls, had', m) => .ok (l :: ls, had', m) := rfl

theorem createLists_ok (hM : M < 4294967296) (h : createLists cap M pairs sum had m = .ok (ls, had', m')) :
    ls = (layout cap pairs had).map SizeClass.list ∧ had' = had + used cap pairs ∧ m' = laid (layout cap pairs had) m ∧
      Laid cap M pairs sum had := by
  induction pairs generalizing sum had m ls with
  | nil =>
    cases h
    exact ⟨rfl, rfl, rfl, fun _ hsum => hsum, nofun, fun hle => hle⟩
  | cons pair pairs ih =>
    rw [createLists_cons] at h
    split_ifs at h with hsum
    rcases create_list cap had pair m hM with
      ⟨hlist, hnum, hsize, hfit⟩ | ⟨⟨err, hlist⟩, -⟩
    · have hhad : u32 (had + need cap pair) = had + need cap pair := Nat.mod_eq_of_lt (by omega)
      rw [countBufferListMemSize_eq hnum (by omega), hlist, hhad] at h
      simp only at h
      split at h
      · cases h
      · next ls' had'' m'' hrest =>
        cases h
        obtain ⟨rfl, rfl, rfl, hl⟩ := ih hrest
        have hcons : used cap (pair :: pairs) = need cap pair + used cap pairs := rfl
        refine ⟨rfl, ?_, rfl, ?_, ?_, ?_⟩
        · rw [hcons, add_assoc]
        · have hpercents : percents (pair :: pairs) = pair.percent + percents pairs := rfl
          intro hlt hle
          rw [u32, Nat.mod_eq_of_lt (by omega)] at hsum hl
          have hrest := hl.percent (by omega) (by omega)
          omega
        · intro p hp
          rcases List.mem_cons.mp hp with rfl | hp
          · exact ⟨hnum, hsize⟩
          · exact hl.positive p hp
        · intro _
          rw [hcons, ← add_assoc]
          exact hl.fits hfit
    · rw [hlist] at h
      cases h

theorem createLists_eq (hM : M < 4294967296) (hsum : sum + percents pairs ≤ 100)
    (hpos : ∀ p ∈ pairs, 0 < bufferNum cap p ∧ 0 < p.size) (hfit : had + used cap pairs ≤ M) :
    createLists cap M pairs sum had m =
      .ok ((layout cap pairs had).map SizeClass.list, had + used cap pairs, laid (layout cap pairs had) m) := by
  induction pairs generalizing sum had m with
  | nil => rfl
  | cons pair pairs ih =>
    have hcons : used cap (pair :: pairs) = need cap pair + used cap pairs := rfl
    have hpercents : percents (pair :: pairs) = pair.percent + percents pairs := rfl
    have hsum' : u32 (sum + pair.percent) = sum + pair.percent := Nat.mod_eq_of_lt (by omega)
    obtain ⟨hnum, hsize⟩ := hpos pair List.mem_cons_self
    rcases create_list cap had pair m hM with
      ⟨hlist, -⟩ | ⟨-, hno⟩
    · have hhad : u32 (had + need cap pair) = had + need cap pair := Nat.mod_eq_of_lt (by omega)
      have hrest := @ih (sum + pair.percent) (had + need cap pair)
        ((classAt cap pair had).list.created (bufferNum cap pair) pair.size m) (by omega)
        (fun p hp => hpos p (List.mem_cons_of_mem _ hp)) (by omega)
      rw [createLists_cons, hsum', if_neg (by omega), countBufferListMemSize_eq hnum (by omega), hlist, hhad]
      simp only [hrest, hcons, add_assoc]
      rfl
    · exact absurd ⟨hnum, hsize, by omega⟩ hno

theorem used_le (cap : ℕ) (pairs : List SizePercentPair) :
    100 * used cap pairs ≤ 3600 * pairs.length + cap * percents pairs := by
  induction pairs with
  | nil => rfl
  | cons pair pairs ih =>
    have hcons : used cap (pair :: pairs) = need cap pair + used cap pairs := rfl
    have hpercents : percents (pair :: pairs) = pair.percent + percents pairs := rfl
    have hle := bufferNum_mul_le cap pair
    have hmod : u64 (cap * pair.percent) ≤ cap * pair.percent := Nat.mod_le _ _
    have hshare : cap * (pair.percent + percents pairs) = cap * pair.percent + cap * percents pairs := Nat.mul_add _ _ _
    rw [hcons, hpercents, hshare, need, List.length_cons]
    omega

section Frame

variable {l : BufferList} {n c lo hi : ℕ}

theorem BufferList.sameOn_createLoop {region k i : ℕ} (hn : n * (c + 20) < 4294967296) (hk : i + k = n)
    (hlo : region + n * (c + 20) ≤ lo) : SameOn m (createLoop region n c k i (i * (c + 20)) m) lo hi := by
  induction k generalizing i m with
  | zero => exact .refl _ _ _
  | succ k ih =>
    obtain ⟨hle, hnext⟩ := slot_lt (c := c) (show i < n by omega)
    have hcur : u32 (i * (c + 20) + c + 20) = (i + 1) * (c + 20) := by
      rw [← hnext]
      exact Nat.mod_eq_of_lt (by omega)
    rw [createLoop_succ, kBufferHeaderSize_eq, hcur]
    exact (sameOn_slotInit (.inr ⟨by omega, .inr (by omega)⟩)).trans (ih (by omega))

theorem BufferList.sameOn_created (hn : 0 < n) (hs : 36 + n * (c + 20) < 4294967296)
    (h : hi ≤ l.offsetInShm ∨ l.offsetInShm + 36 + n * (c + 20) ≤ lo) : SameOn m (l.created n c m) lo hi := by
  have hhead : SameOn m (l.headerInit n c m) lo hi := by
    unfold headerInit headStore tailStore kCounterListOffset
    iterate 5 refine SameOn.trans ?_ (sameOn_store32 _ _ _ (by omega))
    exact sameOn_store32 _ _ _ (by omega)
  have hloop : SameOn (l.headerInit n c m) (createLoop l.bufferRegion n c n 0 0 (l.headerInit n c m)) lo hi := by
    rcases h with h | h
    · exact sameOn_createLoop_below (by rw [bufferRegion_eq]; omega)
    · have hloop : SameOn (l.headerInit n c m) (createLoop l.bufferRegion n c n 0 (0 * (c + 20)) (l.headerInit n c m)) lo hi :=
        sameOn_createLoop (by omega) (by omega) h
      rwa [Nat.zero_mul] at hloop
  obtain ⟨hle, hlast⟩ := slot_lt (c := c) (show n - 1 < n by omega)
  rw [created_eq hn hs]
  refine (hhead.trans hloop).trans (sameOn_store32 _ _ _ ?_)
  rw [bufferRegion_eq]
  omega

theorem sameOn_laid {ks : List SizeClass} (hks : ∀ k ∈ ks, 0 < k.num ∧ 36 + k.num * (k.cap + 20) < 4294967296)
    (h : ∀ k ∈ ks, hi ≤ k.list.offsetInShm) : SameOn m (laid ks m) lo hi := by
  induction ks generalizing m with
  | nil => exact .refl _ _ _
  | cons k ks ih =>
    obtain ⟨hnum, hlt⟩ := hks k List.mem_cons_self
    have hfirst : SameOn m (k.list.created k.num k.cap m) lo hi :=
      BufferList.sameOn_created hnum hlt (.inl (h k List.mem_cons_self))
    exact hfirst.trans (ih (fun j hj => hks j (List.mem_cons_of_mem _ hj)) fun j hj => h j (List.mem_cons_of_mem _ hj))

end Frame

theorem laid_freeList {ks : List SizeClass} (hks : ∀ k ∈ ks, 0 < k.num ∧ 36 + k.num * (k.cap + 20) < 4294967296)
    (horder : ks.Pairwise fun p q => p.stop ≤ q.list.offsetInShm) :
    ∀ k ∈ ks, FreeList k.list k.num k.cap (laid ks m) (k.list.slots k.num k.cap) := by
  induction ks generalizing m with
  | nil => exact nofun
  | cons k ks ih =>
    have hks' := fun j hj => hks j (List.mem_cons_of_mem k hj)
    rw [List.pairwise_cons] at horder
    intro j hj
    rcases List.mem_cons.mp hj with rfl | hj
    · obtain ⟨hnum, hlt⟩ := hks j List.mem_cons_self
      have hfree : FreeList j.list j.num j.cap (j.list.created j.num j.cap m) (j.list.slots j.num j.cap) :=
        BufferList.created_freeList hnum hlt
      have hrest : SameOn (j.list.created j.num j.cap m) (laid ks (j.list.created j.num j.cap m))
          j.list.offsetInShm j.stop := sameOn_laid hks' horder.1
      rw [Pool.stop_eq] at hrest
      refine hfree.congr (hrest.mono le_rfl (by omega)) fun a ha => ?_
      have hslot := BufferList.mem_slots.mp ha
      have hle := hslot.le
      have hfits := hslot.fits
      rw [BufferList.bufferRegion_eq] at hle hfits
      exact hrest.mono (by omega) (by omega)
    · exact ih hks' horder.2 j hj

theorem mem_layout {k : SizeClass} (hk : k ∈ layout cap pairs had) :
    ∃ p ∈ pairs, ∃ off, k = classAt cap p off ∧ had ≤ off ∧ off + need cap p ≤ had + used cap pairs := by
  induction pairs generalizing had with
  | nil => cases hk
  | cons pair pairs ih =>
    have hcons : used cap (pair :: pairs) = need cap pair + used cap pairs := rfl
    rcases List.mem_cons.mp hk with rfl | hk
    · exact ⟨pair, List.mem_cons_self, had, rfl, le_rfl, by omega⟩
    · obtain ⟨p, hp, off, rfl, hle, hfit⟩ := ih hk
      exact ⟨p, List.mem_cons_of_mem _ hp, off, rfl, by omega, by omega⟩

theorem order_layout (cap had : ℕ) (pairs : List SizePercentPair) :
    (layout cap pairs had).Pairwise fun p q => p.stop ≤ q.list.offsetInShm := by
  induction pairs generalizing had with
  | nil => exact .nil
  | cons pair pairs ih =>
    refine .cons (fun k hk => ?_) (ih _)
    obtain ⟨p, -, off, rfl, hle, -⟩ := mem_layout hk
    rw [stop_classAt]
    exact hle

section Pool

variable (hM : M < 4294967296) (hpos : ∀ p ∈ pairs, 0 < bufferNum cap p ∧ 0 < p.size)
  (hfit : had + used cap pairs ≤ M)

def laidPool (maxSliceSize : ℕ) : Pool where
  manager := ⟨(layout cap pairs had).map SizeClass.list, maxSliceSize, M⟩
  classes := layout cap pairs had
  lists := rfl
  geometry k hk := by
    obtain ⟨p, hp, off, rfl, -, hle⟩ := mem_layout hk
    have hdef : need cap p = 36 + bufferNum cap p * (p.size + 20) := rfl
    refine ⟨(hpos p hp).1, rfl, ?_⟩
    change 36 + bufferNum cap p * (p.size + 20) < 4294967296
    omega
  cap_pos k hk := by
    obtain ⟨p, hp, off, rfl, -⟩ := mem_layout hk
    exact (hpos p hp).2
  region k hk := by
    obtain ⟨p, hp, off, rfl, -⟩ := mem_layout hk
    rfl
  order := order_layout cap had pairs
  fits k hk := by
    obtain ⟨p, hp, off, rfl, -, hle⟩ := mem_layout hk
    rw [stop_classAt]
    exact hle.trans hfit
  small := hM

theorem laidPool_free (maxSliceSize : ℕ) (m : Mem) {e : Bool}
    (he : e = true → Unmixed (layout cap pairs had)) :
    (laidPool hM hpos hfit maxSliceSize).Free e (laid (layout cap pairs had) m)
      fun a => ∃ c, (laidPool hM hpos hfit maxSliceSize).Slot c a := by
  set P := laidPool hM hpos hfit maxSliceSize
  have hlists : ∀ k ∈ P.classes, FreeList k.list k.num k.cap (laid (layout cap pairs had) m) (k.list.slots k.num k.cap) :=
    laid_freeList (fun k hk => ⟨(P.geometry k hk).num_pos, (P.geometry k hk).small⟩) P.order
  refine ⟨fun k => k.list.slots k.num k.cap, ⟨?_, ?_, ?_, ?_, he, fun _ => hlists⟩, ?_⟩
  · exact fun k hk => (hlists k hk).toFreeChain
  · intro k hk a ha
    have hslot := BufferList.mem_slots.mp ha
    exact ⟨⟨k, hk, rfl, hslot⟩, hslot.le⟩
  · intro j hj k hk hne a haj hak
    have hlow := Pool.class_apart hj hk hne
    have h₁ := BufferList.mem_slots.mp haj
    have h₂ := BufferList.mem_slots.mp hak
    have b₁ := h₁.le
    have b₂ := h₂.le
    have f₁ := h₁.fits
    have f₂ := h₂.fits
    rw [Pool.stop_eq, Pool.stop_eq] at hlow
    rw [BufferList.bufferRegion_eq] at b₁ b₂ f₁ f₂
    omega
  · rintro c a ⟨k, hk, rfl, ha⟩
    exact ((hlists k hk).clean a (BufferList.mem_slots.mpr ha)).2.2.2
  · intro a
    constructor
    · rintro ⟨c, k, hk, rfl, ha⟩
      exact ⟨k, hk, BufferList.mem_slots.mpr ha⟩
    · rintro ⟨k, hk, ha⟩
      exact ⟨k.cap, k, hk, rfl, BufferList.mem_slots.mp ha⟩

end Pool

end Shmipc
