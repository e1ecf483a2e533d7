import Shmipc.ListOperations

namespace Shmipc

open ByteMemory

namespace BufferList

def slotInit (region bufferNum capPerBuffer i current : ℕ) (m : Mem) : Mem :=
  let m := store32 m (region + current) capPerBuffer
  let m := store32 m (region + current + kBufferSizeOffset) 0
  let m := store32 m (region + current + kBufferDataStartOffset) 0
  if i < bufferNum - 1 then
    let m := store32 m (region + current + kNextBufferOffset)
      (u32 (current + capPerBuffer + kBufferHeaderSize))
    let m := store32 m (region + current + kBufferFlagOffset) 0
    store8 m (region + u32 (current + kBufferFlagOffset))
      (m (region + u32 (current + kBufferFlagOffset)) ||| kHasNextBufferFlag)
  else m

variable {region n c i k current : ℕ} {m : Mem} {lo hi : ℕ}

theorem createLoop_succ :
    createLoop region n c (k + 1) i current m =
      createLoop region n c k (i + 1) (u32 (current + c + kBufferHeaderSize))
        (slotInit region n c i current m) := rfl

theorem sameOn_slotInit (h : hi ≤ region ∨
    current + 20 < 4294967296 ∧ (hi ≤ region + current ∨ region + current + 20 ≤ lo)) :
    SameOn m (slotInit region n c i current m) lo hi := by
  unfold slotInit u32
  simp only [kBufferSizeOffset_eq, kBufferDataStartOffset_eq, kNextBufferOffset_eq, kBufferFlagOffset_eq]
  have h3 : SameOn m (store32 (store32 (store32 m (region + current) c) (region + current + 4) 0)
      (region + current + 8) 0) lo hi :=
    ((sameOn_store32 _ _ _ (by omega)).trans (sameOn_store32 _ _ _ (by omega))).trans
      (sameOn_store32 _ _ _ (by omega))
  split_ifs
  · exact ((h3.trans (sameOn_store32 _ _ _ (by omega))).trans
      (sameOn_store32 _ _ _ (by omega))).trans (sameOn_store8 _ _ _ (by omega))
  · exact h3

theorem sameOn_createLoop_below (h : hi ≤ region) :
    SameOn m (createLoop region n c k i current m) lo hi := by
  induction k generalizing i current m with
  | zero => exact .refl _ _ _
  | succ k ih =>
    rw [createLoop_succ]
    exact (sameOn_slotInit (.inl h)).trans ih

theorem slotInit_fields (hw : current + 20 < 4294967296) (hc : c < 4294967296) :
    let m' := slotInit region n c i current m
    let p := region + current
    BufferHeader.cap m' p = c ∧ BufferHeader.size m' p = 0 ∧ BufferHeader.start m' p = 0 ∧
    (i < n - 1 → BufferHeader.hasNext m' p = true ∧ BufferHeader.isInUsed m' p = false ∧
      BufferHeader.nextBufferOffset m' p = u32 (current + c + 20)) := by
  have hu : region + u32 (current + 16) = region + current + 16 := by unfold u32; omega
  have hlt : u32 (current + c + 20) < 4294967296 := Nat.mod_lt _ (by omega)
  simp only [slotInit, BufferHeader.cap, BufferHeader.size, BufferHeader.start, BufferHeader.hasNext,
    BufferHeader.isInUsed, BufferHeader.nextBufferOffset, kBufferSizeOffset_eq,
    kBufferDataStartOffset_eq, kNextBufferOffset_eq, kBufferFlagOffset_eq, kBufferCapOffset_eq,
    kBufferHeaderSize_eq, hu, Nat.add_zero]
  generalize region + current = p at *
  split_ifs with hi
  · simp (disch := omega) only [load32_store8_of_disjoint, load32_store32_of_disjoint,
      load32_store32_of_lt, store8_same, hi, true_and, forall_const]
    simp [store32, kHasNextBufferFlag, kSliceInUsedFlag]
    decide
  · simp (disch := omega) only [load32_store32_of_disjoint, load32_store32_of_lt, hi, true_and,
      false_imp_iff]

structure SlotReady (region n c : ℕ) (m : Mem) (j : ℕ) : Prop where
  cap : BufferHeader.cap m (region + j * (c + 20)) = c
  size : BufferHeader.size m (region + j * (c + 20)) = 0
  start : BufferHeader.start m (region + j * (c + 20)) = 0
  link : j < n - 1 → BufferHeader.hasNext m (region + j * (c + 20)) = true ∧
    BufferHeader.isInUsed m (region + j * (c + 20)) = false ∧
    BufferHeader.nextBufferOffset m (region + j * (c + 20)) = (j + 1) * (c + 20)

theorem SlotReady.congr {m' : Mem} {j : ℕ} (h : SlotReady region n c m j)
    (hs : SameOn m m' (region + j * (c + 20)) (region + j * (c + 20) + 20)) :
    SlotReady region n c m' j := by
  refine ⟨?_, ?_, ?_, ?_⟩
  · rw [BufferHeader.cap_congr hs, h.cap]
  · rw [BufferHeader.size_congr hs, h.size]
  · rw [BufferHeader.start_congr hs, h.start]
  · rw [BufferHeader.hasNext_congr hs, BufferHeader.isInUsed_congr hs,
      BufferHeader.nextBufferOffset_congr hs]
    exact h.link

theorem slot_lt {j : ℕ} (hj : j < n) : (j + 1) * (c + 20) ≤ n * (c + 20) ∧
    (j + 1) * (c + 20) = j * (c + 20) + c + 20 :=
  ⟨Nat.mul_le_mul_right _ hj, by ring⟩

theorem createLoop_spec (hn : n * (c + 20) < 4294967296) (hk : i + k = n) :
    (∀ j, i ≤ j → j < n → SlotReady region n c (createLoop region n c k i (i * (c + 20)) m) j) ∧
    ∀ lo hi, hi ≤ region + i * (c + 20) →
      SameOn m (createLoop region n c k i (i * (c + 20)) m) lo hi := by
  induction k generalizing i m with
  | zero => exact ⟨fun j h1 h2 => absurd h2 (by omega), fun _ _ _ => .refl _ _ _⟩
  | succ k ih =>
    obtain ⟨hle, hnext⟩ := slot_lt (c := c) (show i < n by omega)
    have hcur : u32 (i * (c + 20) + c + 20) = (i + 1) * (c + 20) := by
      rw [← hnext]
      exact Nat.mod_eq_of_lt (by omega)
    rw [createLoop_succ, kBufferHeaderSize_eq, hcur]
    obtain ⟨hready, hframe⟩ := ih (i := i + 1) (m := slotInit region n c i (i * (c + 20)) m) (by omega)
    refine ⟨fun j h1 h2 => ?_, fun lo hi h => ?_⟩
    · rcases Nat.eq_or_lt_of_le h1 with rfl | h1
      · obtain ⟨f1, f2, f3, f4⟩ :=
          @slotInit_fields region n c i (i * (c + 20)) m (by omega) (by omega)
        rw [hcur] at f4
        have hi : SlotReady region n c (slotInit region n c i (i * (c + 20)) m) i := ⟨f1, f2, f3, f4⟩
        exact hi.congr (hframe _ _ (by omega))
      · exact hready j h1 h2
    · exact (sameOn_slotInit (.inr ⟨by omega, .inl h⟩)).trans (hframe lo hi (by omega))

def headerInit (l : BufferList) (n c : ℕ) (m : Mem) : Mem :=
  let m := store32 m l.offsetInShm n
  let m := store32 m (l.offsetInShm + 4) n
  let m := l.headStore m 0
  let m := l.tailStore m (u32 ((n - 1) * u32 (c + kBufferHeaderSize)))
  let m := store32 m (l.offsetInShm + 16) c
  store32 m (l.offsetInShm + kCounterListOffset) 0

def created (l : BufferList) (n c : ℕ) (m : Mem) : Mem :=
  let m := createLoop l.bufferRegion n c n 0 0 (l.headerInit n c m)
  store32 m (l.bufferRegion + l.tailLoad m + kBufferFlagOffset) 0

variable {l : BufferList} {m' : Mem} {memLen off : ℕ}

theorem create_eq_ok (h : create n c m memLen off = .ok (l, m')) :
    0 < n ∧ 0 < c ∧ u64 (36 + n * (c + 20)) < 4294967296 ∧ off + u64 (36 + n * (c + 20)) ≤ memLen ∧
    l = ⟨off, u32sub (u64 (36 + n * (c + 20))) 36, u32 (off + 36)⟩ ∧ m' = l.created n c m := by
  unfold create at h
  simp only [kBufferListHeaderSize, kBufferHeaderSize_eq] at h
  split_ifs at h with h1 h2 h3 h4
  obtain ⟨rfl, rfl⟩ := Prod.mk.inj (Except.ok.inj h)
  exact ⟨by omega, by omega, by omega, by omega, rfl, rfl⟩

theorem create_eq (hn : 0 < n) (hc : 0 < c) (hsize : u64 (36 + n * (c + 20)) < 4294967296)
    (hfit : off + u64 (36 + n * (c + 20)) ≤ memLen) (hoff : off ≤ u32 memLen)
    (hlen : u64 (36 + n * (c + 20)) ≤ u32 memLen)
    (hend : u32 (off + 36) < u32 (off + u64 (36 + n * (c + 20))))
    (hl : l = ⟨off, u32sub (u64 (36 + n * (c + 20))) 36, u32 (off + 36)⟩) :
    create n c m memLen off = .ok (l, l.created n c m) := by
  subst hl
  unfold create
  simp only [kBufferListHeaderSize, kBufferHeaderSize_eq]
  rw [if_neg (by omega), if_neg (by omega), if_neg (by omega), if_neg (by omega)]
  rfl

theorem headerInit_words (hn : n < 4294967296) (hc : c < 4294967296) :
    load32 (l.headerInit n c m) l.offsetInShm = n ∧ l.capLoad (l.headerInit n c m) = n ∧
    l.headLoad (l.headerInit n c m) = 0 ∧
    l.tailLoad (l.headerInit n c m) = u32 ((n - 1) * u32 (c + 20)) ∧
    l.capPerBuffer (l.headerInit n c m) = c ∧ l.counterLoad (l.headerInit n c m) = 0 := by
  have hlt : u32 ((n - 1) * u32 (c + 20)) < 4294967296 := Nat.mod_lt _ (by omega)
  simp only [headerInit, capLoad, headLoad, tailLoad, capPerBuffer, counterLoad, loadI32, headStore,
    tailStore, kCounterListOffset, kBufferHeaderSize_eq]
  simp (disch := omega) only [load32_store32_of_disjoint, load32_store32_of_lt, true_and]
  rfl

theorem created_words (hn : n < 4294967296) (hc : c < 4294967296) :
    l.sizeLoad (l.created n c m) = signed32 n ∧ l.capLoad (l.created n c m) = n ∧
    l.headLoad (l.created n c m) = 0 ∧
    l.tailLoad (l.created n c m) = u32 ((n - 1) * u32 (c + 20)) ∧
    l.capPerBuffer (l.created n c m) = c ∧ l.counterLoad (l.created n c m) = 0 := by
  have hs : SameOn (l.headerInit n c m) (l.created n c m) l.offsetInShm (l.offsetInShm + 36) :=
    (sameOn_createLoop_below (by rw [bufferRegion_eq])).trans
      (sameOn_store32 _ _ _ (by rw [bufferRegion_eq]; omega))
  obtain ⟨w1, w2, w3, w4, w5, w6⟩ := l.words_congr hs
  obtain ⟨v1, v2, v3, v4, v5, v6⟩ := @headerInit_words n c m l hn hc
  rw [w1, w2, w3, w4, w5, w6, sizeLoad, loadI32, v1]
  exact ⟨rfl, v2, v3, v4, v5, v6⟩

def slots (l : BufferList) (n c : ℕ) : List ℕ := (List.range n).map (fun k => l.bufferRegion + k * (c + 20))

theorem mem_slots {a : ℕ} : a ∈ l.slots n c ↔ IsSlot l n c a := by
  simp [slots, IsSlot, eq_comm]

theorem created_eq (hn : 0 < n) (hs : 36 + n * (c + 20) < 4294967296) :
    l.created n c m = store32 (createLoop l.bufferRegion n c n 0 0 (l.headerInit n c m))
      (l.bufferRegion + (n - 1) * (c + 20) + 16) 0 := by
  have hle : (n - 1) * (c + 20) ≤ n * (c + 20) := Nat.mul_le_mul_right _ (Nat.sub_le _ _)
  have hcap : c + 20 ≤ n * (c + 20) := Nat.le_mul_of_pos_left _ hn
  have hnum : n ≤ n * (c + 20) := Nat.le_mul_of_pos_right _ (by omega)
  have htail := (l.words_congr (@sameOn_createLoop_below l.bufferRegion n c 0 n 0
    (l.headerInit n c m) _ _ (by rw [bufferRegion_eq]))).2.2.2.1
  rw [(@headerInit_words n c m l (by omega) (by omega)).2.2.2.1, u32, u32,
    Nat.mod_eq_of_lt (show c + 20 < 4294967296 by omega), Nat.mod_eq_of_lt (by omega)] at htail
  simp only [created, htail, kBufferFlagOffset_eq]

theorem slots_nodup (l : BufferList) (n c : ℕ) : (l.slots n c).Nodup := by
  refine List.nodup_range.map (fun i j hij => ?_)
  exact Nat.eq_of_mul_eq_mul_right (by omega) (Nat.add_left_cancel hij)

theorem created_slots (hn : 0 < n) (hs : 36 + n * (c + 20) < 4294967296) {j : ℕ} (hj : j < n) :
    SlotReady l.bufferRegion n c (l.created n c m) j ∧
    (j = n - 1 → BufferHeader.hasNext (l.created n c m) (l.bufferRegion + j * (c + 20)) = false ∧
      BufferHeader.isInUsed (l.created n c m) (l.bufferRegion + j * (c + 20)) = false) := by
  have hloop := (@createLoop_spec l.bufferRegion n c 0 n (l.headerInit n c m) (by omega)
    (by omega)).1 j (Nat.zero_le j) hj
  rw [Nat.zero_mul] at hloop
  rw [created_eq hn hs]
  rcases Nat.lt_or_ge j (n - 1) with hlt | hge
  · obtain ⟨hle, hnext⟩ := slot_lt (c := c) hlt
    exact ⟨hloop.congr (sameOn_store32 _ _ _ (by omega)), fun h => absurd h (by omega)⟩
  · obtain rfl : j = n - 1 := by omega
    refine ⟨⟨?_, ?_, ?_, fun h => absurd h (by omega)⟩, fun _ => ?_⟩
    · refine Eq.trans (load32_store32_of_disjoint _ _ ?_) hloop.cap
      rw [kBufferCapOffset_eq]
      omega
    · refine Eq.trans (load32_store32_of_disjoint _ _ ?_) hloop.size
      rw [kBufferSizeOffset_eq]
      omega
    · refine Eq.trans (load32_store32_of_disjoint _ _ ?_) hloop.start
      rw [kBufferDataStartOffset_eq]
      omega
    · simp [BufferHeader.hasNext, BufferHeader.isInUsed, kBufferFlagOffset_eq, store32]

theorem created_freeList (hn : 0 < n) (hs : 36 + n * (c + 20) < 4294967296) :
    FreeList l n c (l.created n c m) (l.slots n c) := by
  have hnum : n * 20 ≤ n * (c + 20) := Nat.mul_le_mul_left _ (by omega)
  have hcap : c + 20 ≤ n * (c + 20) := Nat.le_mul_of_pos_left _ hn
  have hle : (n - 1) * (c + 20) ≤ n * (c + 20) := Nat.mul_le_mul_right _ (Nat.sub_le _ _)
  obtain ⟨w1, w2, w3, w4, w5, w6⟩ := @created_words n c m l (by omega) (by omega)
  rw [u32, u32, Nat.mod_eq_of_lt (show c + 20 < 4294967296 by omega), Nat.mod_eq_of_lt (by omega)] at w4
  refine ⟨⟨l.slots_nodup n c, ?_, ?_, w5, ?_, ?_, ?_⟩, fun a ha => mem_slots.mp ha, ?_, w2, ?_⟩
  · rw [w3]
    simp [slots, List.head?_range, hn.ne']
  · rw [w4]
    simp [slots, List.getLast?_range, hn.ne']
  · rw [List.isChain_iff_getElem]
    intro i hi
    simp only [slots, List.length_map, List.length_range] at hi
    obtain ⟨h1, -, h3⟩ := (@created_slots n c m l hn hs i (by omega)).1.link (by omega)
    simp only [slots, List.getElem_map, List.getElem_range]
    exact ⟨h1, by rw [h3]⟩
  · intro a ha
    rw [slots, List.getLast?_map, List.getLast?_range, if_neg hn.ne', Option.map_some,
      Option.some.injEq] at ha
    rw [← ha]
    exact ((created_slots hn hs (by omega)).2 rfl).1
  · intro a ha
    obtain ⟨j, hj, rfl⟩ := mem_slots.mp ha
    obtain ⟨hready, hlast⟩ := @created_slots n c m l hn hs j hj
    refine ⟨hready.size, hready.start, ?_, hready.cap⟩
    rcases Nat.lt_or_ge j (n - 1) with h | h
    · exact (hready.link h).2.1
    · exact (hlast (by omega)).2
  · rw [w1, signed32, if_pos (by omega)]
    simp [slots]
  · rw [w6]
    simp [slots]

theorem create_geometry (h : create n c m memLen off = .ok (l, m'))
    (hw : 36 + n * (c + 20) < 18446744073709551616) :
    Geometry l n c ∧ FreeList l n c m' (l.slots n c) ∧ off + (36 + n * (c + 20)) ≤ memLen := by
  obtain ⟨hn, -, h3, h4, rfl, rfl⟩ := create_eq_ok h
  rw [u64, Nat.mod_eq_of_lt hw] at h3 h4
  refine ⟨⟨hn, ?_, h3⟩, created_freeList hn h3, h4⟩
  rw [u64, Nat.mod_eq_of_lt hw, u32sub]
  simp only
  omega

/-- A product that wraps around `2 ^ 64` is accepted only for a number of slots whose word reads
back as a negative size. -/
theorem create_wrapped (h : create n c m memLen off = .ok (l, m')) (hn : n < 4294967296)
    (hc : c < 4294967296) (hw : 18446744073709551616 ≤ 36 + n * (c + 20)) : l.sizeLoad m' < 0 := by
  obtain ⟨-, -, -, -, -, rfl⟩ := create_eq_ok h
  rw [(created_words hn hc).1]
  have hbig : n * (c + 20) ≤ n * 4294967315 := Nat.mul_le_mul_left _ (by omega)
  unfold signed32
  rw [if_neg (by omega)]
  omega

end BufferList

end Shmipc
