import Shmipc.FreeList

namespace Shmipc

open ByteMemory

namespace BufferList

variable {l : BufferList} {c : ℕ} {S : ℕ → Prop} {m : Mem} {a : ℕ} {L : List ℕ} {s : BufferSlice}

theorem sizeAdd_undo (l : BufferList) (m : Mem) : l.sizeAdd (l.sizeAdd m (-1)) 1 = m := by
  have h := storeI32_undo m l.offsetInShm (-1)
  rwa [sub_neg_eq_add] at h

theorem popLoop_of_not_hasNext (h : BufferHeader.hasNext m (l.bufferRegion + l.headLoad m) = false)
    (retry : ℕ) :
    l.popLoop retry m (l.headLoad m) = (l.sizeAdd m 1, .error (.ofKind .noMoreBuffer)) := by
  induction retry with
  | zero => rfl
  | succ retry ih =>
    simp only [popLoop, h, Bool.false_eq_true, if_false, ih]
    split_ifs <;> rfl

theorem popLoop_of_hasNext (h : BufferHeader.hasNext m (l.bufferRegion + l.headLoad m) = true)
    (retry : ℕ) :
    l.popLoop (retry + 1) m (l.headLoad m) =
      let bh := l.bufferRegion + l.headLoad m
      let m' := l.counterAdd (BufferHeader.setInUsed (BufferHeader.clearFlag
        (l.headStore m (BufferHeader.nextBufferOffset m bh)) bh) bh) 1
      (m', .ok (BufferSlice.new m' (some bh) (bh + kBufferHeaderSize) (l.capPerBuffer m')
        (u32 (l.headLoad m + l.bufferRegionOffsetInShm)) true)) := by
  simp only [popLoop, h, if_true]

theorem new_popped (hc : FreeChain l c m L) (ha : a ∈ L) (hb : l.bufferRegion ≤ a) (next : ℕ) :
    BufferSlice.new (l.popped m a next) (some a) (a + kBufferHeaderSize)
      (l.capPerBuffer (l.popped m a next)) (u32 (a - l.bufferRegion + l.bufferRegionOffsetInShm)) true =
      slotSlice l c a := by
  obtain ⟨-, -, f3, f4, f5⟩ := l.popped_fields (m := m) next hb
  obtain ⟨c1, c2, -, c4⟩ := hc.clean a ha
  simp only [BufferSlice.new, f3, f4, f5, c1, c2, c4]
  rfl

def spare (l : BufferList) (m : Mem) : Bool :=
  decide (1 < l.sizeLoad m) && decide (u32 (l.headLoad m + kBufferHeaderSize + l.capPerBuffer m) ≤ l.bufferRegionLen) &&
    BufferHeader.hasNext m (l.bufferRegion + l.headLoad m)

section Spare

-- whatever the words of the list are
variable (l : BufferList) (m : Mem)

theorem hasNext_sizeAdd : BufferHeader.hasNext (l.sizeAdd m (-1)) (l.bufferRegion + l.headLoad (l.sizeAdd m (-1))) =
    BufferHeader.hasNext m (l.bufferRegion + l.headLoad m) := by
  rw [(l.sizeAdd_words m (-1)).2.1]
  exact BufferHeader.hasNext_congr (l.sameOn_sizeAdd m (-1) (by rw [bufferRegion_eq]; omega))

theorem pop_eq_popLoop (hsize : 1 < l.sizeLoad m)
    (hroom : u32 (l.headLoad m + kBufferHeaderSize + l.capPerBuffer m) ≤ l.bufferRegionLen) :
    l.pop m = l.popLoop 200 (l.sizeAdd m (-1)) (l.headLoad (l.sizeAdd m (-1))) := by
  obtain ⟨-, hhead, -, hper, -⟩ := l.sizeAdd_words m (-1)
  rw [pop, hper, if_neg (by omega), hhead]

theorem pop_of_not_spare (h : l.spare m = false) :
    l.pop m = (l.sizeAdd (l.sizeAdd m (-1)) 1, .error (.ofKind .noMoreBuffer)) := by
  by_cases hroom : l.sizeLoad m ≤ 1 ∨ u32 (l.headLoad m + kBufferHeaderSize + l.capPerBuffer m) > l.bufferRegionLen
  · rw [pop, (l.sizeAdd_words m (-1)).2.2.2.1, if_pos hroom]
  · rw [not_or, not_le, not_lt] at hroom
    rw [spare, decide_eq_true hroom.1, decide_eq_true hroom.2, Bool.true_and, Bool.true_and, ← hasNext_sizeAdd] at h
    rw [l.pop_eq_popLoop m hroom.1 hroom.2, popLoop_of_not_hasNext h]

def headSlice : BufferSlice where
  bufferHeader := some (l.bufferRegion + l.headLoad m)
  data := .shm (l.bufferRegion + l.headLoad m + kBufferHeaderSize)
  cap := BufferHeader.cap m (l.bufferRegion + l.headLoad m)
  start := BufferHeader.start m (l.bufferRegion + l.headLoad m)
  offsetInShm := u32 (l.headLoad m + l.bufferRegionOffsetInShm)
  readIndex := BufferHeader.start m (l.bufferRegion + l.headLoad m)
  writeIndex := u32 (BufferHeader.start m (l.bufferRegion + l.headLoad m) + BufferHeader.size m (l.bufferRegion + l.headLoad m))
  isFromShm := true

theorem new_headSlice (next k : ℕ) : BufferSlice.new (l.popped m (l.bufferRegion + l.headLoad m) next)
    (some (l.bufferRegion + l.headLoad m)) (l.bufferRegion + l.headLoad m + kBufferHeaderSize) k
    (u32 (l.headLoad m + l.bufferRegionOffsetInShm)) true = l.headSlice m := by
  obtain ⟨-, -, hcap, hsize, hstart⟩ := l.popped_fields (m := m) next (Nat.le_add_right l.bufferRegion (l.headLoad m))
  simp only [BufferSlice.new, hcap, hsize, hstart, headSlice]

theorem pop_of_spare (h : l.spare m = true) : ∃ m', l.pop m = (m', .ok (l.headSlice m)) := by
  rw [spare, Bool.and_eq_true, Bool.and_eq_true, decide_eq_true_eq, decide_eq_true_eq, ← hasNext_sizeAdd] at h
  obtain ⟨⟨hsize, hroom⟩, hnext⟩ := h
  have hhead : l.headLoad (l.sizeAdd m (-1)) = l.headLoad m := (l.sizeAdd_words m (-1)).2.1
  rw [l.pop_eq_popLoop m hsize hroom, popLoop_of_hasNext hnext, hhead]
  exact ⟨_, congrArg (fun s => (_, Except.ok s)) (l.new_headSlice m _ _)⟩

theorem pop_isOk : (l.pop m).2.isOk = l.spare m := by
  cases h : l.spare m with
  | true =>
    obtain ⟨m', hpop⟩ := l.pop_of_spare m h
    rw [hpop]
    rfl
  | false =>
    rw [l.pop_of_not_spare m h]
    rfl

end Spare

section Chain

variable (A : Arena l c S) (hS : ∀ x ∈ L, S x) (h : FreeChain l c m L)
include A hS h

theorem popLoop_of_chain (retry : ℕ) :
    (l.popLoop (retry + 1) (l.sizeAdd m (-1)) (l.headLoad m) = (m, .error (.ofKind .noMoreBuffer)) ∧
      ∃ a, L = [a]) ∨
    ∃ a b L', L = a :: b :: L' ∧ l.popLoop (retry + 1) (l.sizeAdd m (-1)) (l.headLoad m) =
      (l.popped m a (BufferHeader.nextBufferOffset m a), .ok (slotSlice l c a)) := by
  obtain ⟨a, L, rfl⟩ : ∃ a L', L = a :: L' := by
    cases L with
    | nil => exact absurd h.head (by simp)
    | cons a L => exact ⟨a, L, rfl⟩
  have ha := Option.some.inj h.head
  have hb := A.base a (hS a List.mem_cons_self)
  have hhead : l.headLoad (l.sizeAdd m (-1)) = l.headLoad m := (l.sizeAdd_words m (-1)).2.1
  have hsame : SameOn m (l.sizeAdd m (-1)) a (a + 20) :=
    l.sameOn_sizeAdd m (-1) (by rw [bufferRegion_eq] at hb; omega)
  have hflag := BufferHeader.hasNext_congr hsame
  rw [← hhead]
  cases L with
  | nil =>
    left
    refine ⟨?_, a, rfl⟩
    rw [h.last a rfl] at hflag
    rw [popLoop_of_not_hasNext (by rw [hhead, ← ha, hflag]), sizeAdd_undo]
  | cons b L =>
    right
    refine ⟨a, b, L, rfl, ?_⟩
    rw [(List.isChain_cons_cons.mp h.chain).1.1] at hflag
    rw [popLoop_of_hasNext (by rw [hhead, ← ha, hflag]), hhead, ← ha]
    simp only [BufferHeader.nextBufferOffset_congr hsame]
    have hoff : l.headLoad m = a - l.bufferRegion := by omega
    rw [hoff]
    exact congrArg (fun s => (_, Except.ok s)) (new_popped h List.mem_cons_self hb _)

theorem pop_cases :
    l.pop m = (m, .error (.ofKind .noMoreBuffer)) ∨
    ∃ a b L', L = a :: b :: L' ∧
      l.pop m = (l.popped m a (BufferHeader.nextBufferOffset m a), .ok (slotSlice l c a)) := by
  unfold pop
  simp only
  split_ifs
  · exact .inl (by rw [sizeAdd_undo])
  · rcases popLoop_of_chain A hS h 199 with h1 | h1
    · exact .inl h1.1
    · exact .inr h1

omit hS h in
theorem push_eq (ha : S a) (hs : Alias l c a s) :
    l.push m s = l.pushed m a (l.bufferRegion + l.tailLoad m) (a - l.bufferRegion) := by
  have hb := A.base a ha
  have hn := A.near a ha
  have htail : l.tailLoad (BufferHeader.clearFlag (BufferHeader.setStart
      (BufferHeader.setSize m a 0) a 0) a) = l.tailLoad m :=
    (l.words_congr (sameOn_reset (by rw [bufferRegion_eq] at hb; omega))).2.2.2.1
  have hoff : u32sub s.offsetInShm l.bufferRegionOffsetInShm = a - l.bufferRegion := by
    rw [hs.offset]
    unfold u32sub u32
    omega
  simp only [push, BufferSlice.reset, hs.header, htail, hoff]
  rfl

end Chain

end BufferList

structure Geometry (l : BufferList) (n c : ℕ) : Prop where
  num_pos : 0 < n
  region_len : l.bufferRegionLen = n * (c + 20)
  small : 36 + n * (c + 20) < 4294967296

def IsSlot (l : BufferList) (n c a : ℕ) : Prop := ∃ k < n, a = l.bufferRegion + k * (c + 20)

instance (l : BufferList) (n c a : ℕ) : Decidable (IsSlot l n c a) := inferInstanceAs (Decidable (∃ k < n, _))

structure FreeList (l : BufferList) (n c : ℕ) (m : Mem) (L : List ℕ) : Prop
    extends FreeChain l c m L where
  slot : ∀ a ∈ L, IsSlot l n c a
  size : l.sizeLoad m = L.length
  cap : l.capLoad m = n
  counter : l.counterLoad m = n - L.length

instance (l : BufferList) (n c : ℕ) (m : Mem) (L : List ℕ) : Decidable (FreeList l n c m L) :=
  decidable_of_iff (FreeChain l c m L ∧ (∀ a ∈ L, IsSlot l n c a) ∧ l.sizeLoad m = L.length ∧ l.capLoad m = n ∧
      l.counterLoad m = n - L.length)
    ⟨fun ⟨chain, slot, size, cap, counter⟩ => ⟨chain, slot, size, cap, counter⟩,
      fun h => ⟨h.toFreeChain, h.slot, h.size, h.cap, h.counter⟩⟩

variable {l : BufferList} {n c a b : ℕ} {m : Mem} {L : List ℕ} {s : BufferSlice}

namespace IsSlot

theorem le (h : IsSlot l n c a) : l.bufferRegion ≤ a := by
  obtain ⟨k, _, rfl⟩ := h
  exact Nat.le_add_right _ _

theorem fits (h : IsSlot l n c a) : a + (c + 20) ≤ l.bufferRegion + n * (c + 20) := by
  obtain ⟨k, hk, rfl⟩ := h
  have hm : (k + 1) * (c + 20) ≤ n * (c + 20) := Nat.mul_le_mul_right _ hk
  rw [Nat.add_mul, Nat.one_mul] at hm
  omega

theorem disjoint (ha : IsSlot l n c a) (hb : IsSlot l n c b) (hne : a ≠ b) :
    a + (c + 20) ≤ b ∨ b + (c + 20) ≤ a := by
  obtain ⟨i, _, rfl⟩ := ha
  obtain ⟨j, _, rfl⟩ := hb
  rcases Nat.lt_trichotomy i j with h | rfl | h
  · have hm : (i + 1) * (c + 20) ≤ j * (c + 20) := Nat.mul_le_mul_right _ h
    rw [Nat.add_mul, Nat.one_mul] at hm
    omega
  · exact absurd rfl hne
  · have hm : (j + 1) * (c + 20) ≤ i * (c + 20) := Nat.mul_le_mul_right _ h
    rw [Nat.add_mul, Nat.one_mul] at hm
    omega

theorem length_le (hL : L.Nodup) (h : ∀ a ∈ L, IsSlot l n c a) : L.length ≤ n := by
  have hsub : L ⊆ (List.range n).map (fun k => l.bufferRegion + k * (c + 20)) := by
    intro a ha
    obtain ⟨k, hk, rfl⟩ := h a ha
    exact List.mem_map.mpr ⟨k, List.mem_range.mpr hk, rfl⟩
  simpa using (hL.subperm hsub).length_le

end IsSlot

theorem Geometry.arena (g : Geometry l n c) : Arena l c (IsSlot l n c) where
  base _ h := h.le
  near a h := by
    have := h.fits
    have := g.small
    omega
  apart _ _ ha hb := ha.disjoint hb

namespace FreeList

theorem length_le (h : FreeList l n c m L) : L.length ≤ n := IsSlot.length_le h.nodup h.slot

theorem length_lt (g : Geometry l n c) (h : FreeList l n c m L) : L.length ≤ n ∧ n < 2147483648 := by
  have hn : n * 20 ≤ n * (c + 20) := Nat.mul_le_mul_left _ (by omega)
  have := g.small
  exact ⟨h.length_le, by omega⟩

theorem congr {m' : Mem} (h : FreeList l n c m L)
    (hw : SameOn m m' l.offsetInShm (l.offsetInShm + 36))
    (hL : ∀ a ∈ L, SameOn m m' a (a + 20)) : FreeList l n c m' L := by
  obtain ⟨h1, h2, -, -, -, h6⟩ := l.words_congr hw
  exact ⟨h.toFreeChain.congr hw hL, h.slot, h1 ▸ h.size, h2 ▸ h.cap, h6 ▸ h.counter⟩

theorem pop_singleton (g : Geometry l n c) (h : FreeList l n c m [a]) :
    l.pop m = (m, .error (.ofKind .noMoreBuffer)) := by
  rcases BufferList.pop_cases g.arena h.slot h.toFreeChain with he | ⟨x, y, L', hL, -⟩
  · exact he
  · exact absurd hL (by simp)

theorem pop_cons (g : Geometry l n c) (h : FreeList l n c m (a :: b :: L)) :
    l.pop m = (l.popped m a (BufferHeader.nextBufferOffset m a), .ok (slotSlice l c a)) := by
  have hfit := (h.slot a List.mem_cons_self).fits
  have hsmall := g.small
  have hhead := Option.some.inj h.head
  have hsize := h.size
  simp only [List.length_cons] at hsize
  have hcheck : ¬ (l.sizeLoad m ≤ 1 ∨ u32 (l.headLoad m + kBufferHeaderSize +
      l.capPerBuffer (l.sizeAdd m (-1))) > l.bufferRegionLen) := by
    rw [(l.sizeAdd_words m (-1)).2.2.2.1, h.per, g.region_len, kBufferHeaderSize_eq]
    unfold u32
    omega
  unfold BufferList.pop
  simp only
  rw [if_neg hcheck]
  rcases BufferList.popLoop_of_chain g.arena h.slot h.toFreeChain 199 with ⟨-, x, hL⟩ | ⟨x, y, L', hL, he⟩
  · exact absurd hL (by simp)
  · rw [he, (List.cons.inj hL).1]

theorem popped (g : Geometry l n c) (h : FreeList l n c m (a :: b :: L)) :
    FreeList l n c (l.popped m a (BufferHeader.nextBufferOffset m a)) (b :: L) := by
  have hle := (h.slot a List.mem_cons_self).le
  have hlen := h.length_lt g
  have hsize := h.size
  have hcounter := h.counter
  simp only [List.length_cons] at hlen hsize hcounter
  obtain ⟨w1, w6⟩ := l.popped_counts (m := m) (BufferHeader.nextBufferOffset m a) hle
    (by omega) (by omega)
  obtain ⟨w2, -⟩ := l.popped_words (m := m) _ hle (BufferHeader.nextBufferOffset_lt m a)
  refine ⟨h.toFreeChain.popped g.arena h.slot, fun x hx => h.slot x (List.mem_cons_of_mem _ hx), ?_,
    w2 ▸ h.cap, ?_⟩
  · rw [w1, hsize, List.length_cons]
    push_cast
    ring
  · rw [w6, hcounter, List.length_cons]
    push_cast
    ring

theorem push (g : Geometry l n c) (h : FreeList l n c m L) (ha : IsSlot l n c a) (hna : a ∉ L)
    (hcap : BufferHeader.cap m a = c) (hs : Alias l c a s) :
    FreeList l n c (l.push m s) (L ++ [a]) := by
  have htail := h.slot _ (List.mem_of_getLast? h.tail)
  have hlen := h.length_lt g
  have hroom : (a :: L).length ≤ n :=
    IsSlot.length_le (List.nodup_cons.mpr ⟨hna, h.nodup⟩) (by simpa using ⟨ha, h.slot⟩)
  have hsize := h.size
  have hcounter := h.counter
  simp only [List.length_cons] at hroom
  obtain ⟨w1, w6⟩ := l.pushed_counts (m := m) (a - l.bufferRegion) ha.le htail.le
    (by omega) (by omega)
  obtain ⟨w2, -⟩ := l.pushed_words (m := m) (a - l.bufferRegion) ha.le htail.le
    (by have := g.arena.near a ha; omega)
  rw [BufferList.push_eq g.arena ha hs]
  refine ⟨h.toFreeChain.pushed g.arena h.slot ha hna hcap, ?_, ?_, w2 ▸ h.cap, ?_⟩
  · intro x hx
    rcases List.mem_append.mp hx with hx | hx
    · exact h.slot x hx
    · exact List.mem_singleton.mp hx ▸ ha
  · rw [w1, hsize, List.length_append]
    push_cast
    rfl
  · rw [w6, hcounter, List.length_append]
    push_cast
    simp only [List.length_singleton]
    ring

end FreeList

end Shmipc
