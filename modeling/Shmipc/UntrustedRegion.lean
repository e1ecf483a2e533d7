import Shmipc.ManagerMapping
import Shmipc.SliceBytes

namespace Shmipc

open ByteMemory BufferManager

variable {m m₀ m' : Mem} {M had off n : ℕ} {l : BufferList} {ls : List BufferList} {mm : MappedManager}

namespace BufferList

def need (l : BufferList) (m : Mem) : ℕ := kBufferListHeaderSize + l.capLoad m * (l.capPerBuffer m + kBufferHeaderSize)

def stop (l : BufferList) (m : Mem) : ℕ := l.offsetInShm + l.need m

def regionEnd (l : BufferList) : ℕ := l.bufferRegion + l.bufferRegionLen

theorem need_eq (l : BufferList) (m : Mem) : l.need m = 36 + l.capLoad m * (l.capPerBuffer m + 20) := by
  rw [need, kBufferListHeaderSize_eq, kBufferHeaderSize_eq]

theorem mapping_checks (h : BufferList.mapping m M off = .ok l) : ∃ u, u = u64 (BufferList.need ⟨off, 0, 0⟩ m) ∧
    off + kBufferListHeaderSize ≤ M ∧ u ≤ 4294967295 ∧ u32 (off + u) ≤ M ∧ u32 (off + kBufferListHeaderSize) ≤ u32 (off + u) ∧
    l = ⟨off, u32sub u kBufferListHeaderSize, u32 (off + kBufferListHeaderSize)⟩ := by
  by_cases hlow : M < off + kBufferListHeaderSize
  · rw [BufferList.mapping, if_pos hlow] at h
    cases h
  rw [BufferList.mapping, if_neg hlow] at h
  generalize hu : u64 (BufferList.need ⟨off, 0, 0⟩ m) = u
  rw [need] at hu
  simp only [hu] at h
  by_cases hbig : u > 4294967295
  · rw [if_pos hbig] at h
    cases h
  rw [if_neg hbig] at h
  by_cases hwrap : u32 (off + u) > M ∨ u32 (off + u) < u32 (off + kBufferListHeaderSize)
  · rw [if_pos hwrap] at h
    cases h
  rw [if_neg hwrap] at h
  rw [not_or, not_lt, not_lt] at hwrap
  exact ⟨u, rfl, not_lt.mp hlow, not_lt.mp hbig, hwrap.1, hwrap.2, (Except.ok.inj h).symm⟩

theorem mapping_inv (hM : M < 4294967296) (h : BufferList.mapping m M off = .ok l) :
    l.offsetInShm = off ∧ l.bufferRegionOffsetInShm = l.bufferRegion ∧ 36 + l.bufferRegionLen = u64 (l.need m) ∧
      l.regionEnd ≤ M := by
  obtain ⟨u, hu, hlow, hbig, hend, hwrap, rfl⟩ := mapping_checks h
  rw [kBufferListHeaderSize_eq] at hlow hwrap
  rw [u32] at hend hwrap
  rw [u32] at hwrap
  -- a sum that wraps would end in front of the header
  have hfit : off + u ≤ M ∧ 36 ≤ u := by omega
  have hlen : u32sub u 36 = u - 36 := by
    rw [u32sub]
    omega
  have hat : u32 (off + 36) = off + 36 := Nat.mod_eq_of_lt (by omega)
  refine ⟨rfl, ?_, ?_, ?_⟩
  · exact hat
  · rw [need, capLoad, capPerBuffer]
    rw [need, capLoad, capPerBuffer] at hu
    rw [← hu, kBufferListHeaderSize_eq, hlen]
    exact Nat.add_sub_cancel' hfit.2
  · rw [regionEnd, bufferRegion_eq, kBufferListHeaderSize_eq, hlen]
    change off + 36 + (u - 36) ≤ M
    omega

theorem mapping_of_fits {u : ℕ} (hM : M < 4294967296) (hu : u64 (BufferList.need ⟨off, 0, 0⟩ m) = u) (h36 : 36 ≤ u)
    (hfit : off + u ≤ M) : BufferList.mapping m M off = .ok ⟨off, u - 36, off + 36⟩ := by
  have hlow : u32 (off + 36) = off + 36 := Nat.mod_eq_of_lt (by omega)
  have hhigh : u32 (off + u) = off + u := Nat.mod_eq_of_lt (by omega)
  have hlen : u32sub u 36 = u - 36 := by
    rw [u32sub]
    omega
  rw [need] at hu
  rw [BufferList.mapping, kBufferListHeaderSize_eq, if_neg (by omega)]
  rw [kBufferListHeaderSize_eq] at hu
  simp only [hu]
  rw [if_neg (by omega), hlow, hhigh, if_neg (by omega), hlen]

end BufferList

def Adjacent (M : ℕ) : ℕ → List BufferList → Prop
  | start, [] => start ≤ M
  | start, l :: ls => l.offsetInShm = start ∧ l.bufferRegionOffsetInShm = l.bufferRegion ∧ Adjacent M l.regionEnd ls

def LaidOut (m : Mem) (M : ℕ) : ℕ → List BufferList → Prop
  | start, [] => start ≤ M
  | start, l :: ls => l.offsetInShm = start ∧ LaidOut m M (l.stop m) ls

def Unwrapped (m : Mem) : ℕ → ℕ → Prop
  | 0, _ => True
  | n + 1, start => BufferList.need ⟨start, 0, 0⟩ m < 18446744073709551616 ∧ Unwrapped m n (BufferList.stop ⟨start, 0, 0⟩ m)

theorem countBufferListMemSize_need (l : BufferList) (m : Mem) :
    countBufferListMemSize (l.capLoad m) (l.capPerBuffer m) = u32 (u64 (l.need m)) := by
  rw [countBufferListMemSize, BufferList.need, u32, u32, u32, u64, Nat.mod_mod_of_dvd _ (by decide), Nat.add_mod,
    Nat.mul_mod_mod, ← Nat.add_mod]

theorem mappingLists_step (hM : M < 4294967296) (hhad : had ≤ M) (h : mappingLists m M 0 (n + 1) had = .ok ls) :
    ∃ l ls', ls = l :: ls' ∧ BufferList.mapping m M had = .ok l ∧ mappingLists m M 0 n l.regionEnd = .ok ls' := by
  have hat : u32 (0 + had) = had := by
    rw [Nat.zero_add]
    exact Nat.mod_eq_of_lt (by omega)
  rw [mappingLists, hat] at h
  cases hlist : BufferList.mapping m M had with
  | error err =>
    rw [hlist] at h
    cases h
  | ok l =>
    obtain ⟨hoff, -, hlen, hend⟩ := BufferList.mapping_inv hM hlist
    have hnext : u32 (had + countBufferListMemSize (l.capLoad m) (l.capPerBuffer m)) = l.regionEnd := by
      have hregion : l.regionEnd = had + (36 + l.bufferRegionLen) := by
        rw [BufferList.regionEnd, BufferList.bufferRegion_eq, hoff, Nat.add_assoc]
      rw [countBufferListMemSize_need, ← hlen, u32, u32]
      omega
    rw [hlist] at h
    simp only [hnext] at h
    cases hrest : mappingLists m M 0 n l.regionEnd with
    | error err =>
      rw [hrest] at h
      cases h
    | ok ls' =>
      rw [hrest] at h
      cases h
      exact ⟨l, ls', rfl, rfl, hrest⟩

theorem mappingLists_adjacent (hM : M < 4294967296) (hhad : had ≤ M) (h : mappingLists m M 0 n had = .ok ls) :
    Adjacent M had ls := by
  induction n generalizing had ls with
  | zero =>
    cases h
    exact hhad
  | succ n ih =>
    obtain ⟨l, ls', rfl, hlist, hrest⟩ := mappingLists_step hM hhad h
    obtain ⟨hoff, hregion, -, hend⟩ := BufferList.mapping_inv hM hlist
    exact ⟨hoff, hregion, ih hend hrest⟩

theorem LaidOut.start_le (h : LaidOut m M had ls) : had ≤ M := by
  induction ls generalizing had with
  | nil => exact h
  | cons l ls ih =>
    have hle := ih h.2
    rw [BufferList.stop, BufferList.need_eq, h.1] at hle
    omega

-- the words of a list and its region agree as long as no sum of 64 bits wraps
theorem mappingLists_laidOut (hM : M < 4294967296) (hhad : had ≤ M) (h : mappingLists m M 0 n had = .ok ls) :
    LaidOut m M had ls ↔ Unwrapped m n had := by
  induction n generalizing had ls with
  | zero =>
    cases h
    exact iff_of_true hhad trivial
  | succ n ih =>
    obtain ⟨l, ls', rfl, hlist, hrest⟩ := mappingLists_step hM hhad h
    obtain ⟨hoff, -, hlen, hend⟩ := BufferList.mapping_inv hM hlist
    have hneed : BufferList.need ⟨had, 0, 0⟩ m = l.need m := by rw [← hoff]; rfl
    have hstop : BufferList.stop ⟨had, 0, 0⟩ m = l.stop m := by rw [← hoff]; rfl
    rw [LaidOut, Unwrapped, hneed, hstop]
    by_cases hsmall : l.need m < 18446744073709551616
    · have heq : l.regionEnd = l.stop m := by
        rw [u64, Nat.mod_eq_of_lt hsmall] at hlen
        rw [BufferList.stop, ← hlen, BufferList.regionEnd, BufferList.bufferRegion_eq, Nat.add_assoc]
      rw [heq] at hrest hend
      exact ⟨fun hl => ⟨hsmall, (ih hend hrest).mp hl.2⟩, fun hu => ⟨hoff, (ih hend hrest).mpr hu.2⟩⟩
    · refine iff_of_false (fun hl => ?_) (fun hu => hsmall hu.1)
      have hle := hl.2.start_le
      rw [BufferList.stop] at hle
      omega

theorem LaidOut.apart (h : LaidOut m M had ls) :
    (∀ l ∈ ls, had ≤ l.offsetInShm) ∧ ls.Pairwise fun l l' => l.stop m ≤ l'.offsetInShm := by
  induction ls generalizing had with
  | nil => exact ⟨nofun, .nil⟩
  | cons l ls ih =>
    obtain ⟨hlow, hpair⟩ := ih h.2
    have hstop : l.offsetInShm ≤ l.stop m := Nat.le_add_right _ _
    refine ⟨?_, List.pairwise_cons.mpr ⟨hlow, hpair⟩⟩
    intro x hx
    rcases List.mem_cons.mp hx with rfl | hx
    · exact h.1.ge
    · have hle := hlow x hx
      have hat := h.1
      omega

theorem mapping_inv (h : BufferManager.mapping m M 0 = .ok mm) :
    mappingLists m M 0 (load16 m 0) 8 = .ok mm.lists ∧ mm.memSize = M ∧ 0 < load16 m 0 ∧ 4 < M := by
  rw [BufferManager.mapping, kBufferManagerHeaderSize_eq, kBmCapOffset_eq] at h
  by_cases hsmall : M ≤ 0 + 4 ∨ M ≤ 0
  · rw [if_pos hsmall] at h
    cases h
  rw [if_neg hsmall] at h
  by_cases hnum : M < u32 (8 + load32 m (0 + 4)) ∨ load16 m 0 = 0
  · simp only [if_pos hnum] at h
    cases h
  simp only [if_neg hnum] at h
  cases hlists : mappingLists m M 0 (load16 m 0) 8 with
  | error err =>
    rw [hlists] at h
    cases h
  | ok lists =>
    rw [hlists] at h
    cases h
    exact ⟨rfl, rfl, by omega, by omega⟩

theorem mapping_size (hM : M < 4294967296) (h : BufferManager.mapping m M 0 = .ok mm) : 8 ≤ M := by
  obtain ⟨hlists, -, hnum, -⟩ := mapping_inv h
  obtain ⟨n, hn⟩ : ∃ n, load16 m 0 = n + 1 := ⟨load16 m 0 - 1, by omega⟩
  rw [hn, mappingLists] at hlists
  have hat : u32 (0 + 8) = 8 := rfl
  rw [hat] at hlists
  cases hlist : BufferList.mapping m M 8 with
  | error err =>
    rw [hlist] at hlists
    cases hlists
  | ok l =>
    obtain ⟨hoff, -, -, hend⟩ := BufferList.mapping_inv hM hlist
    rw [BufferList.regionEnd, BufferList.bufferRegion_eq, hoff] at hend
    omega

def oneHeader (n c : ℕ) : Mem := store32 (store32 (store16 ⟨fun _ => 0⟩ 0 1) 12 n) 24 c

theorem oneHeader_words {n c : ℕ} (hn : n < 4294967296) (hc : c < 4294967296) :
    load16 (oneHeader n c) 0 = 1 ∧ load32 (oneHeader n c) 4 = 0 ∧ BufferList.need ⟨8, 0, 0⟩ (oneHeader n c) = 36 + n * (c + 20) := by
  have hcap : load32 (oneHeader n c) 12 = n := by
    rw [oneHeader, load32_congr (sameOn_store32 _ 24 c (by omega)), load32_store32_of_lt _ 12 hn]
  have hper : load32 (oneHeader n c) 24 = c := load32_store32_of_lt _ 24 hc
  have hfront : ∀ hi ≤ 12, SameOn (store16 ⟨fun _ => 0⟩ 0 1) (oneHeader n c) 0 hi := fun hi hhi =>
    (sameOn_store32 _ 12 n (by omega)).trans (sameOn_store32 _ 24 c (by omega))
  refine ⟨?_, ?_, ?_⟩
  · rw [load16_congr (hfront 2 (by omega)), load16_store16_of_lt _ 0 (by decide)]
  · rw [load32_congr ((hfront 8 (by omega)).mono (by omega) (by omega)), load32_congr (sameOn_store16 _ 0 1 (by omega))]
    rfl
  · rw [BufferList.need_eq, BufferList.capLoad, BufferList.capPerBuffer, hcap, hper]

theorem oneHeader_mapping {n c u : ℕ} (hn : n < 4294967296) (hc : c < 4294967296) (hu : u64 (36 + n * (c + 20)) = u)
    (h36 : 36 ≤ u) (hfit : 8 + u ≤ M) (hM : M < 4294967296) :
    ∃ mm, BufferManager.mapping (oneHeader n c) M 0 = .ok mm ∧ mm.lists = [⟨8, u - 36, 44⟩] := by
  obtain ⟨hnum, hlen, hneed⟩ := oneHeader_words hn hc
  have hlist : BufferList.mapping (oneHeader n c) M 8 = .ok ⟨8, u - 36, 8 + 36⟩ :=
    BufferList.mapping_of_fits hM (by rw [hneed, hu]) h36 hfit
  have hlists : mappingLists (oneHeader n c) M 0 (load16 (oneHeader n c) 0) kBufferManagerHeaderSize = .ok [⟨8, u - 36, 8 + 36⟩] := by
    have hat : u32 (0 + kBufferManagerHeaderSize) = 8 := rfl
    rw [hnum, mappingLists, hat, hlist]
    rfl
  refine ⟨_, mapping_ok (by rw [kBmCapOffset_eq]; omega) ?_ (by rw [hnum]; decide) hlists, rfl⟩
  rw [kBmCapOffset_eq, Nat.zero_add, hlen, kBufferManagerHeaderSize_eq, u32]
  omega

theorem mapping_laidOut_iff (hM : M < 4294967296) (h : BufferManager.mapping m M 0 = .ok mm) :
    (mm.lists ≠ [] ∧ LaidOut m M 8 mm.lists ∧ mm.lists.Pairwise fun l l' => l.stop m ≤ l'.offsetInShm) ↔
      Unwrapped m (load16 m 0) 8 := by
  obtain ⟨hlists, -, hnum, -⟩ := mapping_inv h
  have h8 := mapping_size hM h
  rw [← mappingLists_laidOut hM h8 hlists]
  refine ⟨fun hl => hl.2.1, fun hl => ⟨?_, hl, hl.apart.2⟩⟩
  obtain ⟨n, hn⟩ : ∃ n, load16 m 0 = n + 1 := ⟨load16 m 0 - 1, by omega⟩
  rw [hn] at hlists
  obtain ⟨l, ls, heq, -⟩ := mappingLists_step hM h8 hlists
  rw [heq]
  exact List.cons_ne_nil l ls

def twoLists : Mem := store32 (store32 (store32 (store32 (store16 ⟨fun _ => 0⟩ 0 2) 12 2) 24 4) 96 3) 108 8

theorem mapping_laidOut_two : ∃ mm, BufferManager.mapping twoLists 212 0 = .ok mm ∧
    mm.lists = [⟨8, 48, 44⟩, ⟨92, 84, 128⟩] ∧ LaidOut twoLists 212 8 mm.lists := by
  have hmap : BufferManager.mapping twoLists 212 0 = .ok ⟨⟨[⟨8, 48, 44⟩, ⟨92, 84, 128⟩], 8, 212⟩, 4⟩ := by decide +kernel
  have hnum : load16 twoLists 0 = 2 := by decide +kernel
  have hun : Unwrapped twoLists (load16 twoLists 0) 8 := by
    rw [hnum]
    refine ⟨?_, ?_, trivial⟩
    · decide +kernel
    · decide +kernel
  exact ⟨_, hmap, rfl, ((mapping_laidOut_iff (by decide) hmap).mpr hun).2.1⟩

-- (2 ^ 32 - 18) * (2 ^ 32 + 19) + 36 is 2 ^ 64 + 2 ^ 32 - 306
theorem mapping_wraps : ∃ mm, BufferManager.mapping (oneHeader 4294967278 4294967295) 4294967295 0 = .ok mm ∧
    ¬ LaidOut (oneHeader 4294967278 4294967295) 4294967295 8 mm.lists := by
  obtain ⟨mm, hmap, -⟩ := oneHeader_mapping (n := 4294967278) (c := 4294967295) (M := 4294967295) (u := 4294966990)
    (by decide) (by decide) (by decide) (by decide) (by decide) (by decide)
  obtain ⟨hnum, -, hneed⟩ := oneHeader_words (n := 4294967278) (c := 4294967295) (by decide) (by decide)
  refine ⟨mm, hmap, fun hl => ?_⟩
  have hun := (mappingLists_laidOut (by decide) (by decide) (mapping_inv hmap).1).mp hl
  rw [hnum] at hun
  have hsum := hun.1
  rw [hneed] at hsum
  exact absurd hsum (by decide)

structure Contained (lo hi : ℕ) (s : BufferSlice) : Prop where
  range : ∃ a, s.bufferHeader = some a ∧ s.data = .shm (a + kBufferHeaderSize) ∧ lo ≤ a ∧ a + kBufferHeaderSize + s.cap ≤ hi
  read_le : s.readIndex ≤ s.writeIndex
  write_le : s.writeIndex ≤ s.cap

inductive SliceCall
  | read (size : ℕ)
  | peek (size : ℕ)
  | skip (size : ℕ)
  | append (bytes : List UInt8)
  | reserve (size : ℕ)

namespace SliceCall

def run (m : Mem) (s : BufferSlice) : SliceCall → Mem × BufferSlice
  | .read size => (m, (s.read size).2)
  | .peek _ => (m, s)
  | .skip size => (m, (s.skip size).2)
  | .append bytes => ((s.append m bytes).1, (s.append m bytes).2.1)
  | .reserve size => match s.reserve size with
    | .ok (_, s) => (m, s)
    | .error _ => (m, s)

def span (s : BufferSlice) : SliceCall → ℕ × ℕ
  | .read size => (s.read size).1
  | .peek size => s.peek size
  | .skip size => (s.readIndex, (s.skip size).1)
  | .append bytes => (s.writeIndex, min bytes.length s.remain)
  | .reserve size => match s.reserve size with
    | .ok (off, _) => (off, size)
    | .error _ => (s.writeIndex, 0)

def spans : List SliceCall → Mem → BufferSlice → List (Storage × ℕ × ℕ)
  | [], _, _ => []
  | c :: cs, m, s => (s.data, c.span s) :: spans cs (c.run m s).1 (c.run m s).2

end SliceCall

def WithinRange (lo hi : ℕ) : Storage × ℕ × ℕ → Prop
  | (.shm a, off, n) => lo ≤ a + off ∧ a + off + n ≤ hi
  | (.heap _, _, _) => False

section Calls

variable {lo hi : ℕ} {s s' : BufferSlice}

theorem Contained.move (h : Contained lo hi s) {data : Storage} {r w : ℕ} (hdata : data = s.data) (hr : r ≤ w) (hw : w ≤ s.cap) :
    Contained lo hi { s with data := data, readIndex := r, writeIndex := w } := by
  rw [hdata]
  exact ⟨h.range, hr, hw⟩

theorem Contained.sizes (h : Contained lo hi s) : s.size = s.writeIndex - s.readIndex ∧ s.remain = s.cap - s.writeIndex :=
  ⟨usub_of_le h.read_le, usub_of_le h.write_le⟩

theorem Contained.run (h : Contained lo hi s) (m : Mem) (c : SliceCall) : Contained lo hi (c.run m s).2 := by
  obtain ⟨hsize, hremain⟩ := h.sizes
  have hread := h.read_le
  have hwrite := h.write_le
  cases c with
  | read size => exact h.move rfl (by omega) hwrite
  | peek size => exact h
  | skip size =>
    simp only [SliceCall.run, BufferSlice.skip]
    split_ifs with hlt
    · exact h.move rfl (by omega) hwrite
    · exact h.move rfl (by omega) hwrite
  | append bytes =>
    obtain ⟨a, -, hdata, -, -⟩ := h.range
    simp only [SliceCall.run, BufferSlice.append]
    split_ifs with hempty
    · exact h
    · exact h.move (by rw [hdata]; rfl) (by omega) (by omega)
  | reserve size =>
    simp only [SliceCall.run, BufferSlice.reserve]
    by_cases hle : size ≤ s.remain
    · simp only [if_pos hle]
      exact h.move rfl (by omega) (by omega)
    · simp only [if_neg hle]
      exact h

theorem Contained.span (h : Contained lo hi s) (c : SliceCall) : (c.span s).1 + (c.span s).2 ≤ s.cap := by
  obtain ⟨hsize, hremain⟩ := h.sizes
  have hread := h.read_le
  have hwrite := h.write_le
  cases c with
  | read size =>
    simp only [SliceCall.span, BufferSlice.read]
    omega
  | peek size =>
    simp only [SliceCall.span, BufferSlice.peek]
    omega
  | skip size =>
    simp only [SliceCall.span, BufferSlice.skip]
    split_ifs <;> simp only <;> omega
  | append bytes =>
    simp only [SliceCall.span]
    omega
  | reserve size =>
    simp only [SliceCall.span, BufferSlice.reserve]
    by_cases hle : size ≤ s.remain
    · simp only [if_pos hle]
      omega
    · simp only [if_neg hle]
      omega

theorem Contained.spans (h : Contained lo hi s) (m : Mem) (cs : List SliceCall) :
    ∀ x ∈ SliceCall.spans cs m s, WithinRange lo hi x := by
  induction cs generalizing m s with
  | nil => exact nofun
  | cons c cs ih =>
    intro x hx
    rcases List.mem_cons.mp hx with rfl | hx
    · obtain ⟨a, -, hdata, hlo, hhi⟩ := h.range
      have hspan := h.span c
      rw [hdata]
      change lo ≤ a + kBufferHeaderSize + (c.span s).1 ∧ a + kBufferHeaderSize + (c.span s).1 + (c.span s).2 ≤ hi
      omega
    · exact ih (h.run m c) _ x hx

end Calls

def ReadFits (m : Mem) (M offset : ℕ) : Prop :=
  offset + kBufferHeaderSize < M → u32 (offset + kBufferHeaderSize + BufferHeader.cap m offset) ≤ M →
    offset + kBufferHeaderSize + BufferHeader.cap m offset ≤ M ∧
      BufferHeader.start m offset + BufferHeader.size m offset ≤ BufferHeader.cap m offset

def PopFits (m : Mem) (l : BufferList) : Prop :=
  l.spare m = true → l.headLoad m + kBufferHeaderSize + BufferHeader.cap m (l.bufferRegion + l.headLoad m) ≤ l.bufferRegionLen ∧
    BufferHeader.start m (l.bufferRegion + l.headLoad m) + BufferHeader.size m (l.bufferRegion + l.headLoad m) ≤
      BufferHeader.cap m (l.bufferRegion + l.headLoad m)

-- a sum that wraps is smaller than its first term
theorem indices_iff {start size cap : ℕ} (hstart : start < 4294967296) (hsize : size < 4294967296) (hcap : cap < 4294967296) :
    (start ≤ u32 (start + size) ∧ u32 (start + size) ≤ cap) ↔ start + size ≤ cap := by
  rw [u32]
  omega

theorem readBufferSlice_eq {bm : BufferManager} {offset : ℕ} (hlow : offset + kBufferHeaderSize < bm.memSize)
    (hend : u32 (offset + kBufferHeaderSize + BufferHeader.cap m offset) ≤ bm.memSize) (k : ℕ)
    (hk : k = u32sub (u32 (offset + kBufferHeaderSize + BufferHeader.cap m offset)) (offset + kBufferHeaderSize)) :
    bm.readBufferSlice m offset =
      .ok (BufferSlice.new m (some offset) (offset + kBufferHeaderSize) k offset true) := by
  rw [BufferManager.readBufferSlice, if_neg (not_le.mpr hlow)]
  rw [BufferHeader.cap] at hend hk
  simp only [if_neg (not_lt.mpr hend), hk]

theorem readBufferSlice_contained {bm : BufferManager} {offset : ℕ} :
    (∀ s, bm.readBufferSlice m offset = .ok s → Contained 0 bm.memSize s) ↔ ReadFits m bm.memSize offset := by
  have hind := indices_iff (BufferHeader.start_lt m offset) (BufferHeader.size_lt m offset) (BufferHeader.cap_lt m offset)
  constructor
  · intro h hlow hend
    obtain ⟨⟨a, ha, -, -, hhi⟩, hread, hwrite⟩ := h _ (readBufferSlice_eq hlow hend _ rfl)
    cases ha
    exact ⟨hhi, hind.mp ⟨hread, hwrite⟩⟩
  · intro h s hs
    by_cases hlow : offset + kBufferHeaderSize < bm.memSize
    · by_cases hend : u32 (offset + kBufferHeaderSize + BufferHeader.cap m offset) ≤ bm.memSize
      · obtain ⟨hhi, hsum⟩ := h hlow hend
        obtain ⟨hread, hwrite⟩ := hind.mpr hsum
        rw [readBufferSlice_eq hlow hend _ rfl] at hs
        cases hs
        exact ⟨⟨offset, rfl, rfl, Nat.zero_le _, hhi⟩, hread, hwrite⟩
      · rw [BufferManager.readBufferSlice, if_neg (not_le.mpr hlow)] at hs
        rw [BufferHeader.cap] at hend
        simp only [if_pos (not_le.mp hend)] at hs
        cases hs
    · rw [BufferManager.readBufferSlice, if_pos (not_lt.mp hlow)] at hs
      cases hs

theorem pop_contained : (∀ m' s, l.pop m = (m', .ok s) → Contained l.bufferRegion l.regionEnd s) ↔ PopFits m l := by
  have hind := indices_iff (BufferHeader.start_lt m (l.bufferRegion + l.headLoad m))
    (BufferHeader.size_lt m (l.bufferRegion + l.headLoad m)) (BufferHeader.cap_lt m (l.bufferRegion + l.headLoad m))
  have hrange : l.bufferRegion + l.headLoad m + kBufferHeaderSize + BufferHeader.cap m (l.bufferRegion + l.headLoad m) ≤ l.regionEnd ↔
      l.headLoad m + kBufferHeaderSize + BufferHeader.cap m (l.bufferRegion + l.headLoad m) ≤ l.bufferRegionLen := by
    rw [BufferList.regionEnd, Nat.add_assoc, Nat.add_assoc, Nat.add_le_add_iff_left, Nat.add_assoc]
  constructor
  · intro h hspare
    obtain ⟨m', hpop⟩ := l.pop_of_spare m hspare
    obtain ⟨⟨a, ha, -, -, hhi⟩, hread, hwrite⟩ := h m' _ hpop
    cases ha
    exact ⟨hrange.mp hhi, hind.mp ⟨hread, hwrite⟩⟩
  · intro h m' s hpop
    cases hspare : l.spare m with
    | true =>
      obtain ⟨m'', hpop'⟩ := l.pop_of_spare m hspare
      obtain ⟨hhi, hsum⟩ := h hspare
      obtain ⟨hread, hwrite⟩ := hind.mpr hsum
      rw [hpop'] at hpop
      cases hpop
      exact ⟨⟨_, rfl, rfl, Nat.le_add_right _ _, hrange.mpr hhi⟩, hread, hwrite⟩
    | false =>
      rw [l.pop_of_not_spare m hspare] at hpop
      cases hpop

theorem Adjacent.le (h : Adjacent M had ls) : had ≤ M := by
  induction ls generalizing had with
  | nil => exact h
  | cons l ls ih =>
    have hle := ih h.2.2
    rw [BufferList.regionEnd, BufferList.bufferRegion_eq, h.1] at hle
    omega

theorem Adjacent.inside (h : Adjacent M had ls) : ∀ l ∈ ls, l.regionEnd ≤ M := by
  induction ls generalizing had with
  | nil => exact nofun
  | cons l ls ih =>
    intro x hx
    rcases List.mem_cons.mp hx with rfl | hx
    · exact h.2.2.le
    · exact ih h.2.2 x hx

theorem damaged_slices_contained (hM : M < 4294967296) (hmap : BufferManager.mapping m₀ M 0 = .ok mm) (m : Mem) :
    (∀ offset < 4294967296,
      (∀ s, mm.readBufferSlice m offset = .ok s → Contained 0 M s) ↔ ReadFits m M offset) ∧
    (∀ l ∈ mm.lists, l.regionEnd ≤ M ∧
      ((∀ m' s, l.pop m = (m', .ok s) → Contained l.bufferRegion l.regionEnd s) ↔ PopFits m l)) ∧
    ∀ lo hi s, Contained lo hi s → ∀ m' cs, ∀ x ∈ SliceCall.spans cs m' s, WithinRange lo hi x := by
  obtain ⟨hlists, hsize, -, -⟩ := mapping_inv hmap
  have hadj := mappingLists_adjacent hM (mapping_size hM hmap) hlists
  refine ⟨?_, ?_, ?_⟩
  · intro offset _
    rw [← hsize]
    exact readBufferSlice_contained
  · intro l hl
    exact ⟨hadj.inside l hl, pop_contained⟩
  · intro lo hi s hs
    exact hs.spans

def damaged (cap : ℕ) : Mem := store8 (store32 (store32 (oneHeader 2 4) 8 2) 44 cap) 60 1

theorem load32_zero (a : ℕ) : load32 (⟨fun _ => 0⟩ : Mem) a = 0 := by
  simp [load32]

theorem load32_damaged (cap : ℕ) {a : ℕ} (hslot : a + 4 ≤ 44 ∨ 48 ≤ a ∧ a + 4 ≤ 60) (hsize : a + 4 ≤ 8 ∨ 12 ≤ a) :
    load32 (damaged cap) a = load32 (oneHeader 2 4) a := by
  rw [damaged, load32_store8_of_disjoint _ _ (by omega), load32_store32_of_disjoint _ _ (by omega),
    load32_store32_of_disjoint _ _ (by omega)]

theorem load32_oneHeader {a : ℕ} (ha : 16 ≤ a ∧ a + 4 ≤ 24 ∨ 28 ≤ a) : load32 (oneHeader 2 4) a = 0 := by
  rw [oneHeader, load32_store32_of_disjoint _ _ (by omega), load32_store32_of_disjoint _ _ (by omega),
    load32_congr (sameOn_store16 _ _ _ (by omega)), load32_zero]

theorem damaged_words {cap : ℕ} (hcap : cap < 4294967296) : BufferHeader.cap (damaged cap) 44 = cap ∧
    BufferHeader.start (damaged cap) 44 = 0 ∧ BufferHeader.size (damaged cap) 44 = 0 := by
  refine ⟨?_, ?_, ?_⟩
  · rw [BufferHeader.cap, kBufferCapOffset_eq, damaged, load32_store8_of_disjoint _ _ (by omega), load32_store32_of_lt _ _ hcap]
  · rw [BufferHeader.start, kBufferDataStartOffset_eq, load32_damaged _ (by omega) (by omega), load32_oneHeader (by omega)]
  · rw [BufferHeader.size, kBufferSizeOffset_eq, load32_damaged _ (by omega) (by omega), load32_oneHeader (by omega)]

theorem damaged_head (cap : ℕ) : BufferList.headLoad ⟨8, 48, 44⟩ (damaged cap) = 0 := by
  change load32 (damaged cap) 16 = 0
  rw [load32_damaged _ (by omega) (by omega), load32_oneHeader (by omega)]

theorem damaged_spare (cap : ℕ) : BufferList.spare ⟨8, 48, 44⟩ (damaged cap) = true := by
  have hsize : BufferList.sizeLoad ⟨8, 48, 44⟩ (damaged cap) = 2 := by
    change signed32 (load32 (damaged cap) 8) = 2
    rw [damaged, load32_store8_of_disjoint _ _ (by omega), load32_store32_of_disjoint _ _ (by omega),
      load32_store32_of_lt _ _ (by omega)]
    rfl
  have hper : BufferList.capPerBuffer ⟨8, 48, 44⟩ (damaged cap) = 4 := by
    change load32 (damaged cap) 24 = 4
    rw [load32_damaged _ (by omega) (by omega), oneHeader, load32_store32_of_lt _ _ (by omega)]
  have hflag : damaged cap 60 = 1 := store8_same _ 60 1
  rw [BufferList.spare, hsize, hper, damaged_head]
  change (true && true && decide (damaged cap 60 &&& kHasNextBufferFlag > 0)) = true
  rw [hflag]
  decide

theorem damaged_slices_intact : ∃ mm, BufferManager.mapping (oneHeader 2 4) 92 0 = .ok mm ∧
    (∃ s, mm.readBufferSlice (damaged 4) 44 = .ok s ∧ Contained 0 92 s) ∧
    ∃ l ∈ mm.lists, ∃ m' s, l.pop (damaged 4) = (m', .ok s) ∧ Contained l.bufferRegion l.regionEnd s := by
  obtain ⟨mm, hmap, hlists⟩ := oneHeader_mapping (n := 2) (c := 4) (M := 92) (by decide) (by decide) rfl (by decide) (by decide)
    (by decide)
  obtain ⟨hcap, hstart, hsize⟩ := @damaged_words 4 (by decide)
  obtain ⟨hread, hpop, -⟩ := damaged_slices_contained (by decide) hmap (damaged 4)
  have hmem : ⟨8, 48, 44⟩ ∈ mm.lists := by
    rw [hlists]
    exact List.mem_singleton_self _
  obtain ⟨-, hpop⟩ := hpop _ hmem
  obtain ⟨m', hpopped⟩ := BufferList.pop_of_spare _ _ (damaged_spare 4)
  have hslice : mm.readBufferSlice (damaged 4) 44 = .ok _ := readBufferSlice_eq
    (by rw [(mapping_inv hmap).2.1]; decide) (by rw [(mapping_inv hmap).2.1, hcap]; decide) _ rfl
  refine ⟨mm, hmap, ⟨_, hslice, (hread 44 (by decide)).mpr ?_ _ hslice⟩, _, hmem, m', _, hpopped, hpop.mpr ?_ m' _ hpopped⟩
  · intro _ _
    rw [hcap, hstart, hsize]
    decide
  · intro _
    rw [damaged_head]
    change _ + BufferHeader.cap (damaged 4) 44 ≤ _ ∧ BufferHeader.start (damaged 4) 44 + BufferHeader.size (damaged 4) 44 ≤
      BufferHeader.cap (damaged 4) 44
    rw [hcap, hstart, hsize]
    decide

-- 44 + 20 + (2 ^ 32 - 20) is 44 in 32 bits
theorem damaged_slices_escape : ∃ mm, BufferManager.mapping (oneHeader 2 4) 92 0 = .ok mm ∧
    (∃ s, mm.readBufferSlice (damaged 4294967276) 44 = .ok s ∧ ¬ Contained 0 92 s) ∧
    ∃ l ∈ mm.lists, ∃ m' s, l.pop (damaged 4294967276) = (m', .ok s) ∧ ¬ Contained l.bufferRegion l.regionEnd s := by
  obtain ⟨mm, hmap, hlists⟩ := oneHeader_mapping (n := 2) (c := 4) (M := 92) (by decide) (by decide) rfl (by decide) (by decide)
    (by decide)
  obtain ⟨hcap, -, -⟩ := @damaged_words 4294967276 (by decide)
  have hmem : ⟨8, 48, 44⟩ ∈ mm.lists := by
    rw [hlists]
    exact List.mem_singleton_self _
  obtain ⟨m', hpopped⟩ := BufferList.pop_of_spare _ _ (damaged_spare 4294967276)
  have hslice : mm.readBufferSlice (damaged 4294967276) 44 = .ok _ := readBufferSlice_eq
    (by rw [(mapping_inv hmap).2.1]; decide) (by rw [(mapping_inv hmap).2.1, hcap]; decide) _ rfl
  refine ⟨mm, hmap, ⟨_, hslice, ?_⟩, _, hmem, m', _, hpopped, ?_⟩
  · rintro ⟨⟨a, ha, -, -, hhi⟩, -, -⟩
    cases ha
    change 44 + kBufferHeaderSize + BufferHeader.cap (damaged 4294967276) 44 ≤ 92 at hhi
    rw [hcap] at hhi
    exact absurd hhi (by decide)
  · rintro ⟨⟨a, ha, -, -, hhi⟩, -, -⟩
    rw [BufferList.headSlice, damaged_head] at ha hhi
    cases ha
    change 44 + kBufferHeaderSize + BufferHeader.cap (damaged 4294967276) 44 ≤ 92 at hhi
    rw [hcap] at hhi
    exact absurd hhi (by decide)

end Shmipc
