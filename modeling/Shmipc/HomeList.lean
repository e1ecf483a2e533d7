import Shmipc.ManagerMapping

namespace Shmipc

open ByteMemory Transition

structure Config where
  shareMemoryBufferCap : ℕ
  bufferSliceSizes : List SizePercentPair
  queueCap : ℕ
  shareMemoryPathPrefix : String
  queuePath : String
deriving DecidableEq

namespace Config

def verifyPairs (shareMemoryBufferCap : ℕ) : List SizePercentPair → ℕ → Result (List SizePercentPair × ℕ)
  | [], sum => .ok ([], sum)
  | pair :: pairs, sum =>
    let sum := u32 (sum + pair.percent)
    if pair.size > shareMemoryBufferCap then
      .error (.other (snprintf 160 ("buffer_slice_sizes's size:" ++ toString pair.size ++
        " couldn't greater than share_memory_buffer_cap:" ++ toString shareMemoryBufferCap)))
    else
      match verifyPairs shareMemoryBufferCap pairs sum with
      | .error err => .error err
      | .ok (pairs, sum) => .ok ({ pair with size := u32 (pair.size + 3) / 4 * 4 } :: pairs, sum)

def verify (c : Config) : Result Config :=
  if c.shareMemoryBufferCap < 2 ^ 20 then
    .error (.other (snprintf 128 ("share memory size is too small:" ++ toString c.shareMemoryBufferCap ++
      ", must greater than " ++ toString (2 ^ 20))))
  else if c.bufferSliceSizes = [] then
    .error (.other "buffer_slice_sizes could not be nil")
  else
    match verifyPairs c.shareMemoryBufferCap c.bufferSliceSizes 0 with
    | .error err => .error err
    | .ok (pairs, sum) =>
      if sum ≠ 100 then
        .error (.other "the sum of buffer_slice_sizes's percent should be 100")
      else if c.shareMemoryPathPrefix = "" ∨ c.queuePath = "" then
        .error (.other "buffer path or queue path could not be nil")
      else .ok { c with bufferSliceSizes := pairs, queueCap := u32 (c.queueCap + 7) / 8 * 8 }

theorem verifyPairs_iff {cap sum total : ℕ} {ps qs : List SizePercentPair} (hsum : sum < 4294967296) :
    verifyPairs cap ps sum = .ok (qs, total) ↔ (∀ p ∈ ps, p.size ≤ cap) ∧
      qs = ps.map (fun p => { p with size := u32 (p.size + 3) / 4 * 4 }) ∧
      total = u32 (sum + (ps.map SizePercentPair.percent).sum) := by
  induction ps generalizing sum qs total with
  | nil =>
    simp only [verifyPairs, Except.ok.injEq, Prod.mk.injEq, List.not_mem_nil, false_implies, implies_true, List.map_nil,
      List.sum_nil, Nat.add_zero, true_and, u32, Nat.mod_eq_of_lt hsum, eq_comm]
  | cons p ps ih =>
    have hmod : ∀ k, u32 (u32 (sum + p.percent) + k) = u32 (sum + (p.percent + k)) := by
      intro k
      simp only [u32, Nat.mod_add_mod, Nat.add_assoc]
    have hlt : u32 (sum + p.percent) < 4294967296 := Nat.mod_lt _ (by norm_num)
    rw [verifyPairs]
    simp only [List.forall_mem_cons, List.map_cons, List.sum_cons, ← hmod]
    by_cases hsize : p.size > cap
    · rw [if_pos hsize]
      simp only [not_le.mpr hsize, false_and, reduceCtorEq]
    · rw [if_neg hsize]
      cases hrest : verifyPairs cap ps (u32 (sum + p.percent)) with
      | error err =>
        have hnone : ¬ ∀ q ∈ ps, q.size ≤ cap := by
          intro hle
          cases hrest.symm.trans ((ih hlt).mpr ⟨hle, rfl, rfl⟩)
        simp only [hnone, false_and, and_false, reduceCtorEq]
      | ok r =>
        obtain ⟨hle, hqs, htotal⟩ := (ih hlt).mp hrest
        simp only [Except.ok.injEq, Prod.mk.injEq, hqs, htotal, eq_true (not_lt.mp hsize), eq_true hle, true_and]
        rw [eq_comm, @eq_comm _ total]

theorem verify_iff {c c' : Config} : c.verify = .ok c' ↔
    2 ^ 20 ≤ c.shareMemoryBufferCap ∧ c.bufferSliceSizes ≠ [] ∧ (∀ p ∈ c.bufferSliceSizes, p.size ≤ c.shareMemoryBufferCap) ∧
      u32 (c.bufferSliceSizes.map SizePercentPair.percent).sum = 100 ∧ c.shareMemoryPathPrefix ≠ "" ∧ c.queuePath ≠ "" ∧
      c' = { c with
        bufferSliceSizes := c.bufferSliceSizes.map (fun p => { p with size := u32 (p.size + 3) / 4 * 4 })
        queueCap := u32 (c.queueCap + 7) / 8 * 8 } := by
  have hzero : (0 : ℕ) < 4294967296 := by norm_num
  rw [verify]
  by_cases hcap : c.shareMemoryBufferCap < 2 ^ 20
  · rw [if_pos hcap]
    simp only [not_le.mpr hcap, false_and, reduceCtorEq]
  rw [if_neg hcap]
  by_cases hempty : c.bufferSliceSizes = []
  · rw [if_pos hempty]
    simp only [hempty, ne_eq, not_true_eq_false, false_and, and_false, reduceCtorEq]
  rw [if_neg hempty]
  cases hrest : verifyPairs c.shareMemoryBufferCap c.bufferSliceSizes 0 with
  | error err =>
    have hnone : ¬ ∀ p ∈ c.bufferSliceSizes, p.size ≤ c.shareMemoryBufferCap := by
      intro hle
      cases hrest.symm.trans ((verifyPairs_iff hzero).mpr ⟨hle, rfl, rfl⟩)
    simp only [hnone, false_and, and_false, reduceCtorEq]
  | ok r =>
    obtain ⟨hle, hqs, htotal⟩ := (verifyPairs_iff hzero).mp hrest
    rw [Nat.zero_add] at htotal
    simp only [not_lt.mp hcap, hempty, eq_true hle, htotal, hqs, ne_eq, not_false_eq_true, true_and]
    split_ifs with hsum hpath
    · rcases hpath with hpath | hpath
      · simp only [hpath, not_true_eq_false, false_and, and_false]
      · simp only [hpath, not_true_eq_false, false_and, and_false]
    · rw [not_or] at hpath
      simp only [hsum, hpath, not_false_eq_true, true_and, Except.ok.injEq]
      exact eq_comm
    · simp only [hsum, false_and]

theorem verify_cap {c c' : Config} (h : c.verify = .ok c') : 2 ^ 20 ≤ c'.shareMemoryBufferCap ∧
    c'.shareMemoryBufferCap = c.shareMemoryBufferCap := by
  obtain ⟨hcap, -, -, -, -, -, rfl⟩ := verify_iff.mp h
  exact ⟨hcap, rfl⟩

end Config

structure AtHome (l : BufferList) (m : Mem) (held : List BufferSlice) : Prop where
  chain : ∃ L, FreeList l (l.capLoad m) (l.capPerBuffer m) m L ∧
    ∀ a, IsSlot l (l.capLoad m) (l.capPerBuffer m) a → (a ∈ L ↔ a ∉ Pool.slots held)
  sum : l.sizeLoad m + l.counterLoad m = l.capLoad m
  head : IsSlot l (l.capLoad m) (l.capPerBuffer m) (l.bufferRegion + l.headLoad m)
  tail : IsSlot l (l.capLoad m) (l.capPerBuffer m) (l.bufferRegion + l.tailLoad m)

structure Home (bm : BufferManager) (s : ManagerRun.State) : Prop where
  lists : ∀ l ∈ bm.lists, AtHome l s.mem s.held
  returned : s.held = [] → bm.checkBufferReturned s.mem = true

variable {P : Pool} {m : Mem} {k : SizeClass} {s : ManagerRun.State}

theorem FreeList.atHome {l : BufferList} {n c : ℕ} {L : List ℕ} {held : List BufferSlice} (h : FreeList l n c m L)
    (hin : ∀ a, IsSlot l n c a → (a ∈ L ↔ a ∉ Pool.slots held)) : AtHome l m held := by
  have hcap := h.cap
  have hper := h.per
  have hlen := h.length_le
  refine ⟨⟨L, ?_⟩, ?_, ?_, ?_⟩
  · rw [hcap, hper]
    exact ⟨h, hin⟩
  · rw [h.size, h.counter, hcap]
    omega
  · rw [hcap, hper]
    exact h.slot _ (List.mem_of_mem_head? h.head)
  · rw [hcap, hper]
    exact h.slot _ (List.mem_of_getLast? h.tail)

theorem FreeList.all_free {l : BufferList} {n c : ℕ} {L : List ℕ} (g : Geometry l n c) (h : FreeList l n c m L)
    (hall : ∀ a, IsSlot l n c a → a ∈ L) : l.sizeLoad m = signed32 (l.capLoad m) ∧ l.counterLoad m = 0 := by
  obtain ⟨hle, hlt⟩ := h.length_lt g
  have hsub : l.slots n c ⊆ L := fun a ha => hall a (BufferList.mem_slots.mp ha)
  have hlen := ((l.slots_nodup n c).subperm hsub).length_le
  rw [BufferList.slots, List.length_map, List.length_range] at hlen
  rw [h.size, h.cap, h.counter, signed32, if_pos (by omega)]
  omega

theorem Pool.slot_own {j k : SizeClass} {a : ℕ} (hj : j ∈ P.classes) (hk : k ∈ P.classes) (ha : IsSlot j.list j.num j.cap a)
    (hb : IsSlot k.list k.num k.cap a) : j = k := by
  by_contra hne
  have hapart := Pool.class_apart hj hk hne
  have hlow := ha.le
  have hlow' := hb.le
  have hhigh := ha.fits
  have hhigh' := hb.fits
  rw [Pool.stop_eq, Pool.stop_eq] at hapart
  rw [BufferList.bufferRegion_eq] at hlow hlow' hhigh hhigh'
  omega

namespace BufferManager

variable {l : BufferList} {ls : List BufferList} {remain : ℤ}

theorem allocLoop_done (hle : remain ≤ 0) (rounds : ℕ) : allocLoop l rounds m remain = (m, remain, []) := by
  cases rounds with
  | zero => rfl
  | succ rounds => rw [allocLoop, if_neg (not_lt.mpr hle)]

theorem allocLists_done (hle : remain ≤ 0) : allocLists ls m remain = (m, remain, []) := by
  cases ls with
  | nil => rfl
  | cons l ls => rw [allocLists, if_neg (not_lt.mpr hle)]

end BufferManager

namespace ManagerRun

theorem Inv.home {m₀ : Mem} (h : Inv P true m₀ s.mem s.held) : Home P.manager s := by
  obtain ⟨F, hF, hfree⟩ := h.pool
  have hlist : ∀ k ∈ P.classes, FreeList k.list k.num k.cap s.mem (F k) := hF.counts rfl
  have hin : ∀ k ∈ P.classes, ∀ a, IsSlot k.list k.num k.cap a → (a ∈ F k ↔ a ∉ Pool.slots s.held) := by
    intro k hk a ha
    constructor
    · exact fun haF => ((hfree a).mpr ⟨k, hk, haF⟩).2
    · intro hnot
      obtain ⟨j, hj, haj⟩ := (hfree a).mp ⟨⟨k.cap, k, hk, rfl, ha⟩, hnot⟩
      have hjk : j = k := Pool.slot_own hj hk ((hlist j hj).slot a haj) ha
      exact hjk ▸ haj
  constructor
  · intro l hl
    rw [P.lists] at hl
    obtain ⟨k, hk, rfl⟩ := List.mem_map.mp hl
    exact (hlist k hk).atHome (hin k hk)
  · intro hheld
    rw [BufferManager.checkBufferReturned, List.all_eq_true, P.lists]
    intro l hl
    obtain ⟨k, hk, rfl⟩ := List.mem_map.mp hl
    have hall : ∀ a, IsSlot k.list k.num k.cap a → a ∈ F k := by
      intro a ha
      rw [hin k hk a ha, hheld]
      exact nofun
    obtain ⟨hsize, hcounter⟩ := (hlist k hk).all_free (P.geometry k hk) hall
    rw [hsize, hcounter]
    simp

section Away

variable {j : SizeClass} {m₀ : Mem} {a i : ℕ} {x : BufferSlice}

/-- A slot that is given back while an earlier list has its capacity becomes the tail of a list of which it is no slot. -/
theorem recycled_away (hinv : Inv P false m₀ s.mem s.held) (hx : x ∈ s.held) (ha : P.Refers x a) (hj : j ∈ P.classes)
    (hslot : IsSlot j.list j.num j.cap a) (hearlier : ∃ p ∈ P.classes, p.cap = j.cap ∧ p.stop ≤ j.list.offsetInShm) :
    ∃ k ∈ P.classes, ¬IsSlot k.list k.num k.cap (k.list.bufferRegion + k.list.tailLoad (P.manager.recycleBuffer s.mem x)) := by
  obtain ⟨F, hF, -⟩ := hinv.pool
  obtain ⟨-, -, -, hused⟩ := hinv.slot (mem_slots hx ha.header)
  obtain ⟨k, hk, hfind, hcap, hle, -, heq⟩ := hF.recycleBuffer_eq ha hused
  refine ⟨k, hk, ?_⟩
  have htail := hF.slot k hk _ (List.mem_of_getLast? (hF.chain k hk).tail)
  have hlt := hcap.lt
  rw [heq, (k.list.pushed_words _ hle htail.2 (by omega)).2.2.1, Nat.add_sub_cancel' hle]
  intro hown
  -- the slot would have to be one of the first list of its capacity
  obtain ⟨p, hp, hpc, hstop⟩ := hearlier
  have hxp : x.cap = p.cap := (ha.slot.cap_eq ⟨j, hj, rfl, hslot⟩).trans hpc.symm
  have hfirst := Pool.rel_of_find P.order hfind hp (decide_eq_true hxp)
  rw [Pool.slot_own hk hj hown hslot, Pool.stop_eq] at hfirst
  rw [Pool.stop_eq] at hstop
  rcases hfirst with rfl | hfirst
  · omega
  · omega

theorem held_length_le (hinv : Inv P false m₀ s.mem s.held) : s.held.length ≤ P.manager.memSize := by
  have hlength : (Pool.slots s.held).length = s.held.length := by
    rw [Pool.slots, List.filterMap_length_eq_length]
    intro x hx
    obtain ⟨a, ha, -⟩ := hinv.refers x hx
    rw [ha.header]
    rfl
  have hsub : Pool.slots s.held ⊆ List.range P.manager.memSize := by
    intro a ha
    obtain ⟨x, -, hxa, -⟩ := hinv.slot ha
    have hfits := hxa.slot.fits
    exact List.mem_range.mpr (by omega)
  have hle := (hinv.distinct.subperm hsub).length_le
  rwa [hlength, List.length_range] at hle

theorem pop_fails_of_allocLists {ks : List SizeClass} {free : ℕ → Prop} {m' : Mem} {remain r : ℤ} (hfree : P.Free false m free)
    (hks : ∀ k ∈ ks, k ∈ P.classes) (hpos : 0 < remain)
    (h : BufferManager.allocLists (ks.map SizeClass.list) m remain = (m', r, [])) :
    ∀ k ∈ ks, k.list.pop m = (m, .error (.ofKind .noMoreBuffer)) := by
  obtain ⟨rounds, hrounds⟩ : ∃ rounds, remain.toNat = rounds + 1 := ⟨remain.toNat - 1, by omega⟩
  induction ks with
  | nil => exact List.forall_mem_nil _
  | cons k ks ih =>
    rw [List.map_cons, BufferManager.allocLists, if_pos hpos, hrounds, BufferManager.allocLoop, if_pos hpos] at h
    rcases hfree.pop (hks k List.mem_cons_self) with hpop | ⟨a, m₁, hpop, -⟩
    · rw [hpop] at h
      rw [List.forall_mem_cons]
      exact ⟨hpop, ih (fun k hk => hks k (List.mem_cons_of_mem _ hk)) h⟩
    · rw [hpop] at h
      cases congrArg (fun r => r.2.2) h

theorem exists_drained (hbehind : ∀ k ∈ P.classes, 8 ≤ k.list.offsetInShm) (hinv : Inv P false m m []) :
    ∃ s, (system P.manager m).Run s ∧ ∀ k ∈ P.classes, k.list.pop s.mem = (s.mem, .error (.ofKind .noMoreBuffer)) := by
  -- by induction on how many slots are not held yet
  have hmore : ∀ n s, (system P.manager m).Run s → P.manager.memSize < s.held.length + n →
      ∃ t, (system P.manager m).Run t ∧ ∀ k ∈ P.classes, k.list.pop t.mem = (t.mem, .error (.ofKind .noMoreBuffer)) := by
    intro n
    induction n with
    | zero =>
      intro s hrun hlt
      exact absurd (held_length_le (hinv.run hbehind hrun)) (by omega)
    | succ n ih =>
      intro s hrun hlt
      rcases halloc : P.manager.allocShmBuffers s.mem 1 with ⟨m', c, ss⟩
      cases ss with
      | nil =>
        refine ⟨s, hrun, fun k hk => ?_⟩
        rw [BufferManager.allocShmBuffers, P.lists, ← List.map_reverse] at halloc
        rcases hlists : BufferManager.allocLists (P.classes.reverse.map SizeClass.list) s.mem (1 : ℕ) with ⟨m₁, r, ts⟩
        rw [hlists] at halloc
        simp only [Prod.mk.injEq] at halloc
        obtain ⟨-, -, rfl⟩ := halloc
        exact pop_fails_of_allocLists (hinv.run hbehind hrun).pool (fun k hk => List.mem_reverse.mp hk)
          Int.one_pos hlists k (List.mem_reverse.mpr hk)
      | cons y ss =>
        have hstep : (system P.manager m).step s (.allocShmBuffers 1) = some ⟨m', y :: ss ++ s.held⟩ := by
          change some (State.mk (P.manager.allocShmBuffers s.mem 1).1 ((P.manager.allocShmBuffers s.mem 1).2.2 ++ s.held)) = _
          rw [halloc]
        refine ih _ (hrun.next trivial hstep) ?_
        simp only [List.length_append, List.length_cons]
        omega
  exact hmore (P.manager.memSize + 1) ⟨m, []⟩ (.initial rfl) (by omega)

theorem not_home_of_mixed (hbehind : ∀ k ∈ P.classes, 8 ≤ k.list.offsetInShm) (hinv : Inv P false m m [])
    (hwords : ∀ s, (system P.manager m).Run s → ∀ k ∈ P.classes, k.list.capLoad s.mem = k.num ∧ k.list.capPerBuffer s.mem = k.cap)
    (hmixed : ¬Unmixed P.classes) : ∃ s, (system P.manager m).Run s ∧ ¬Home P.manager s := by
  by_contra hnone
  have hall : ∀ s, (system P.manager m).Run s → Home P.manager s := fun s hrun => by_contra fun hnot => hnone ⟨s, hrun, hnot⟩
  rw [Unmixed, List.pairwise_iff_forall_sublist] at hmixed
  push Not at hmixed
  obtain ⟨p, q, hsub, hcap, hnum⟩ := hmixed
  have hstop := List.pairwise_iff_forall_sublist.mp P.order hsub
  have hp : p ∈ P.classes := hsub.subset List.mem_cons_self
  have hq : q ∈ P.classes := hsub.subset (List.mem_cons_of_mem p List.mem_cons_self)
  obtain ⟨s, hrun, hdrained⟩ := exists_drained hbehind hinv
  obtain ⟨L, hfree, hin⟩ := ((hall s hrun).lists q.list (P.lists ▸ List.mem_map_of_mem hq)).chain
  rw [(hwords s hrun q hq).1, (hwords s hrun q hq).2] at hfree hin
  have hheld : ∃ a, IsSlot q.list q.num q.cap a ∧ a ∈ Pool.slots s.held := by
    by_contra hnot
    have hfree' : ∀ a, IsSlot q.list q.num q.cap a → a ∈ L := fun a ha => (hin a ha).mpr fun hheld => hnot ⟨a, ha, hheld⟩
    have hlen := (((q.list.slots_nodup q.num q.cap).subperm fun a ha => hfree' a (BufferList.mem_slots.mp ha))).length_le
    rw [BufferList.slots, List.length_map, List.length_range] at hlen
    have hpos := (P.geometry q hq).num_pos
    rcases L with - | ⟨a, - | ⟨b, L⟩⟩
    · rw [List.length_nil] at hlen
      omega
    · rw [List.length_singleton] at hlen
      omega
    · cases congrArg Prod.snd ((hdrained q hq).symm.trans (hfree.pop_cons (P.geometry q hq)))
  obtain ⟨a, hslot, hheld⟩ := hheld
  have hinv' := hinv.run hbehind hrun
  obtain ⟨x, hx, ha, -⟩ := hinv'.slot hheld
  obtain ⟨i, hi⟩ := List.mem_iff_getElem?.mp hx
  obtain ⟨k, hk, haway⟩ := recycled_away hinv' hx ha hq hslot ⟨p, hp, hcap, hstop⟩
  have hstep : (system P.manager m).step s (.recycleBuffer i) = some ⟨P.manager.recycleBuffer s.mem x, s.held.eraseIdx i⟩ := by
    change s.held[i]?.map _ = _
    rw [hi]
    rfl
  have hnext := hrun.next trivial hstep
  have htail := ((hall _ hnext).lists k.list (P.lists ▸ List.mem_map_of_mem hk)).tail
  rw [(hwords _ hnext k hk).1, (hwords _ hnext k hk).2] at htail
  exact haway htail

end Away

end ManagerRun

section Created

open BufferManager

def Config.slotCount (c : Config) (pair : SizePercentPair) : ℕ :=
  bufferNum (bufferRegionCap c.shareMemoryBufferCap 0 c.bufferSliceSizes.length) pair

theorem unmixed_layout (cap had : ℕ) (pairs : List SizePercentPair) :
    Unmixed (layout cap pairs had) ↔ pairs.Pairwise fun p q => p.size = q.size → bufferNum cap q = 1 := by
  have hshapes := shapes_layout cap had pairs
  rw [Unmixed, ← List.pairwise_map (f := fun k : SizeClass => (k.num, k.cap)) (R := fun p q => p.2 = q.2 → q.1 = 1), hshapes,
    List.pairwise_map]

theorem slots_go_home {cfg cfg' : Config} {pairs : List SizePercentPair} {m m' : Mem} {bm : MappedManager}
    (hcap : cfg.shareMemoryBufferCap < 2 ^ 32) (hverify : cfg.verify = .ok cfg') (hperm : pairs.Perm cfg'.bufferSliceSizes)
    (hcreate : create pairs m cfg'.shareMemoryBufferCap 0 = .ok (bm, m')) :
    (∀ s, (ManagerRun.system bm.toBufferManager m').Run s → Home bm.toBufferManager s) ↔
      pairs.Pairwise fun p q => p.size = q.size → cfg'.slotCount q = 1 := by
  obtain ⟨hlow, heq⟩ := Config.verify_cap hverify
  have hM : cfg'.shareMemoryBufferCap < 4294967296 := by
    rw [heq]
    exact hcap
  obtain ⟨hr, hl⟩ := create_ok (by omega) hM rfl hcreate
  rw [Prod.mk.injEq] at hr
  obtain ⟨rfl, rfl⟩ := hr
  have hfit := hl.fits (by omega)
  simp only [Config.slotCount, ← hperm.length_eq]
  rw [← unmixed_layout _ 8]
  set P := laidPool hM hl.positive hfit ((pairs.getLast?.map SizePercentPair.size).getD 0)
  constructor
  · intro hall
    have hinv : ManagerRun.Inv P false (createdMem _ pairs m) (createdMem _ pairs m) [] :=
      created_inv hM hl.positive hfit _ m (by rintro ⟨⟩)
    by_contra hmixed
    obtain ⟨s, hrun, haway⟩ := ManagerRun.not_home_of_mixed layout_behind hinv
      (fun s hrun => (words_of_run hM hl.positive hfit hrun).1) hmixed
    exact haway (hall s hrun)
  · intro hunmixed s hrun
    have hinv : ManagerRun.Inv P true (createdMem _ pairs m) (createdMem _ pairs m) [] :=
      created_inv hM hl.positive hfit _ m fun _ => hunmixed
    exact (hinv.run layout_behind hrun).home

end Created

def defaultConfig : Config := ⟨1048576, defaultPairs, 8192, "/dev/shm/shmipc", "/dev/shm/shmipc_queue"⟩

theorem defaultConfig_go_home : ∃ bm m', BufferManager.create defaultPairs ⟨fun _ => 0⟩ 1048576 0 = .ok (bm, m') ∧
    ∀ s, (ManagerRun.system bm.toBufferManager m').Run s → Home bm.toBufferManager s := by
  have hiff := @create_iff 1048576 defaultPairs (by norm_num) (by norm_num) (by decide) (by decide) ⟨fun _ => 0⟩
  obtain ⟨⟨bm, m'⟩, hcreate⟩ := hiff.mpr (by decide)
  have hverify : defaultConfig.verify = .ok defaultConfig := rfl
  exact ⟨bm, m', hcreate, (slots_go_home (by decide) hverify (.refl _) hcreate).mpr (by decide)⟩

def nearSizes : Config := ⟨1048576, [⟨200000, 50⟩, ⟨199998, 50⟩], 8192, "/dev/shm/shmipc", "/dev/shm/shmipc_queue"⟩

theorem nearSizes_leave_home : ∃ cfg' pairs bm m' s, nearSizes.verify = .ok cfg' ∧ pairs.Perm cfg'.bufferSliceSizes ∧
    pairs.Pairwise (fun p q => p.size ≤ q.size) ∧
    BufferManager.create pairs ⟨fun _ => 0⟩ cfg'.shareMemoryBufferCap 0 = .ok (bm, m') ∧
    (ManagerRun.system bm.toBufferManager m').Run s ∧ s.held = [] ∧ ¬Home bm.toBufferManager s := by
  -- the slot comes from the second list and goes back to the first
  have hfacts : (BufferManager.create [⟨200000, 50⟩, ⟨200000, 50⟩] ⟨fun _ => 0⟩ 1048576 0).toOption.bind (fun r =>
      ((ManagerRun.system r.1.toBufferManager r.2).runFrom ⟨r.2, []⟩ [.allocShmBuffers 1, .recycleBuffer 0]).map fun s =>
        (s.held.isEmpty, r.1.lists.map fun l =>
          decide (IsSlot l (l.capLoad s.mem) (l.capPerBuffer s.mem) (l.bufferRegion + l.tailLoad s.mem)))) =
      some (true, [false, true]) := by
    decide +kernel
  rcases hcreate : BufferManager.create [⟨200000, 50⟩, ⟨200000, 50⟩] ⟨fun _ => 0⟩ 1048576 0 with err | ⟨bm, m'⟩
  · rw [hcreate] at hfacts
    cases hfacts
  rw [hcreate] at hfacts
  obtain ⟨s, hs, hfacts⟩ := Option.map_eq_some_iff.mp hfacts
  obtain ⟨hheld, htails⟩ := Prod.mk.inj hfacts
  refine ⟨{ nearSizes with bufferSliceSizes := [⟨200000, 50⟩, ⟨200000, 50⟩] }, [⟨200000, 50⟩, ⟨200000, 50⟩], bm, m', s, rfl, .refl _,
    by decide, hcreate, .runFrom (fun _ _ _ => trivial) (.initial rfl) hs, List.isEmpty_iff.mp hheld, fun hhome => ?_⟩
  obtain ⟨l, hl, hlost⟩ := List.mem_map.mp (htails ▸ List.mem_cons_self : false ∈ _)
  exact of_decide_eq_false hlost (hhome.lists l hl).tail

end Shmipc
