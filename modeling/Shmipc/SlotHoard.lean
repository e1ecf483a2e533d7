import Shmipc.StreamExt
import Shmipc.UnreadRemainder

namespace Shmipc

open ByteMemory LinkedBuffer

def dataSlots (m : Mem) (A : List ℕ) : ℕ := (dataViews m A).length

variable {P : Pool} {e : Bool} {m m' m₁ : Mem} {free free' : ℕ → Prop} {b b' b₁ : LinkedBuffer} {n : Node} {ns : List Node}
  {A B : List ℕ} {ks : List ℕ} {data : List UInt8} {bm : BufferManager}

/-- A receive buffer from which messages with `ks` data slots were read completely. `read_bytes` leaves the last slice in the
list; it is pinned when the message was read out of this one slice. -/
inductive Spent (b : LinkedBuffer) : List ℕ → Prop
  | fresh : b.sliceList = [] → b.pinnedList = [] → b.currentPinned = false → Spent b []
  | after {n : Node} {ks : List ℕ} {k : ℕ} : b.sliceList = [n] → n.slice.size = 0 → (b.currentPinned = true ↔ k = 1) →
      b.pinnedList.length = ks.count 1 → (∀ x ∈ b.nodes, x.slice.isFromShm = true) → Spent b (ks ++ [k])

theorem Spent.size (h : Spent b ks) : sizeOf b.sliceList = 0 := by
  cases h with
  | fresh hs _ _ =>
    rw [hs]
    rfl
  | after hs hsize _ _ _ =>
    rw [hs, sizeOf_cons, hsize]
    rfl

theorem Spent.congr (h : Spent b ks) (hs : b'.sliceList = b.sliceList) (hp : b'.pinnedList = b.pinnedList)
    (hc : b'.currentPinned = b.currentPinned) : Spent b' ks := by
  cases h with
  | fresh hs₀ hp₀ hc₀ => exact .fresh (hs.trans hs₀) (hp.trans hp₀) (hc.trans hc₀)
  | after hs₀ hsize hpin hcount hshm =>
    refine .after (hs.trans hs₀) hsize (hc ▸ hpin) (hp ▸ hcount) ?_
    rw [nodes, hs, hp]
    exact hshm

theorem Spent.held_length (h : Spent b ks) (hb : Base P e m free b) :
    b.held.length = min ks.length 1 + ks.dropLast.count 1 := by
  cases h with
  | fresh hs hp _ =>
    rw [held, nodes, hs, hp]
    rfl
  | @after n ks k hs _ _ hcount hshm =>
    have hok : ∀ y ∈ b.nodes, SliceOk P y.slice := hb.holds.ok
    rw [held, heldBy_shared hok hshm, List.length_map, nodes, hs, List.length_append, hcount, List.dropLast_concat,
      List.length_append]
    simp

namespace SlotHoard

theorem pairwise_iff (ks : List ℕ) :
    (ks.Pairwise fun k k' => k = 1 → k' = 0) ↔ (ks.filter (· ≠ 0)).dropLast.count 1 = 0 := by
  have hfilter : (ks.filter (· ≠ 0)).Pairwise (fun k _ => k ≠ 1) ↔ ks.Pairwise fun k k' => k = 1 → k' = 0 := by
    rw [List.pairwise_filter]
    have hiff : ∀ k k' : ℕ, (decide (k ≠ 0) = true → decide (k' ≠ 0) = true → k ≠ 1) ↔ (k = 1 → k' = 0) := by
      intro k k'
      simp only [decide_eq_true_eq]
      omega
    exact ⟨fun h => h.imp (hiff _ _).mp, fun h => h.imp (hiff _ _).mpr⟩
  rw [← hfilter, List.count_eq_zero]
  rcases List.eq_nil_or_concat' (ks.filter (· ≠ 0)) with hnil | ⟨pre, k, hsplit⟩
  · rw [hnil]
    simp
  · rw [hsplit, List.dropLast_concat, List.pairwise_append]
    constructor
    · rintro ⟨-, -, hne⟩ hmem
      exact hne 1 hmem k (List.mem_singleton_self k) rfl
    · intro hmem
      have hne : ∀ j ∈ pre, j ≠ 1 := fun j hj hone => hmem (hone ▸ hj)
      exact ⟨List.pairwise_of_forall_mem_list fun j hj _ _ => hne j hj, List.pairwise_singleton _ _, fun j hj _ _ => hne j hj⟩

def Loaded (n : Node) : Prop := 0 < n.slice.size ∧ n.slice.isFromShm = true

theorem sizeOf_loaded (h : ∀ x ∈ ns, Loaded x) (hne : ns ≠ []) : 0 < sizeOf ns := by
  cases ns with
  | nil => exact absurd rfl hne
  | cons x ns =>
    rw [sizeOf_cons]
    have hpos := (h x List.mem_cons_self).1
    omega

theorem read_exhausted (hok : SliceOk P n.slice) :
    { n.slice with readIndex := n.slice.readIndex + n.slice.size }.size = 0 := by
  rw [(hok.consume (m := ⟨fun _ => 0⟩) le_rfl).2.1, Nat.sub_self]

theorem readLoop_last (hok : ∀ x ∈ ns, SliceOk P x.slice) (hns : ∀ x ∈ ns, Loaded x) (hne : ns ≠ [])
    (hpin : b.currentPinned = false) (h : readLoop bm ns m b (sizeOf ns) = (m', b', data)) :
    ∃ n, b'.sliceList = [n] ∧ n.slice.size = 0 ∧ n.slice.isFromShm = true ∧ b'.currentPinned = false ∧
      b'.pinnedList = b.pinnedList := by
  induction ns generalizing m b data with
  | nil => exact absurd rfl hne
  | cons x ns ih =>
    obtain ⟨hpos, hshm⟩ := hns x List.mem_cons_self
    rw [sizeOf_cons] at h
    by_cases hlast : ns = []
    · subst hlast
      have hall : x.slice.size + sizeOf [] = x.slice.size := rfl
      rw [hall] at h
      rcases readLoop_cases h with ⟨hzero, -⟩ | ⟨-, -, rfl, rfl⟩ | ⟨hlt, -⟩
      · omega
      · exact ⟨_, rfl, read_exhausted (hok x List.mem_cons_self), hshm, hpin, rfl⟩
      · omega
    · have hrest := sizeOf_loaded (fun y hy => hns y (List.mem_cons_of_mem x hy)) hlast
      rcases readLoop_cases h with ⟨hzero, -⟩ | ⟨-, hle, -⟩ | ⟨-, m₁, b₁, more, hnext, hloop⟩
      · omega
      · omega
      · simp only [readNextSlice, hshm, hpin, if_true, Bool.false_eq_true, if_false] at hnext
        cases hnext
        rw [Nat.add_sub_cancel_left] at hloop
        have hend := ih (fun y hy => hok y (List.mem_cons_of_mem x hy)) (fun y hy => hns y (List.mem_cons_of_mem x hy)) hlast
          (by rfl) hloop
        exact hend

theorem skipEmptyFront_spent {c : LinkedBuffer} (hspent : Spent c ks) (hs : b.sliceList = c.sliceList ++ ns)
    (hp : b.pinnedList = c.pinnedList) (hc : b.currentPinned = c.currentPinned) (hns : ∀ x ∈ ns, Loaded x) (hne : ns ≠ [])
    (h : skipEmptyFront bm m b = (m₁, b₁)) :
    b₁.sliceList = ns ∧ b₁.currentPinned = false ∧ b₁.pinnedList.length = ks.count 1 ∧
      (∀ x ∈ b₁.pinnedList, x.slice.isFromShm = true) ∧ b₁.len = b.len := by
  cases hspent with
  | fresh hs₀ hp₀ hc₀ =>
    obtain ⟨x, ns, rfl⟩ := List.exists_cons_of_ne_nil hne
    rw [hs₀, List.nil_append] at hs
    have hsize : ¬ x.slice.size = 0 := (hns x List.mem_cons_self).1.ne'
    simp only [skipEmptyFront, hs, hsize, if_false] at h
    cases h
    refine ⟨hs, hc.trans hc₀, ?_, ?_, rfl⟩
    · rw [hp, hp₀]
      rfl
    · rw [hp, hp₀]
      exact List.forall_mem_nil _
  | @after n ks k hs₀ hsize hpin hcount hshm =>
    rw [hs₀, List.singleton_append] at hs
    have hshmn : n.slice.isFromShm = true := hshm n (by simp [nodes, hs₀])
    have hshmp : ∀ x ∈ c.pinnedList, x.slice.isFromShm = true := fun x hx => hshm x (List.mem_append_right _ hx)
    simp only [skipEmptyFront, hs, hsize, if_true, readNextSlice, hshmn] at h
    by_cases hk : k = 1
    · rw [if_pos (hc.trans (hpin.mpr hk))] at h
      cases h
      refine ⟨rfl, rfl, ?_, ?_, rfl⟩
      · rw [hp, List.length_append, hcount, hk, List.count_append]
        rfl
      · intro x hx
        rcases List.mem_append.mp hx with hx | hx
        · exact hshmp x (hp ▸ hx)
        · rw [List.mem_singleton.mp hx]
          exact hshmn
    · rw [if_neg fun hpinned => hk (hpin.mp (hc.symm.trans hpinned))] at h
      cases h
      refine ⟨rfl, rfl, ?_, fun x hx => hshmp x (hp ▸ hx), rfl⟩
      change b.pinnedList.length = _
      rw [hp, hcount, List.count_append, List.count_singleton, if_neg (by simpa using hk), Nat.add_zero]

theorem readFront_last {r : Result Buf} (hok : ∀ x ∈ ns, SliceOk P x.slice) (hs : b.sliceList = ns) (hns : ∀ x ∈ ns, Loaded x)
    (hne : ns ≠ []) (hpin : b.currentPinned = false) (h : readFront bm m b (sizeOf ns) = (m', b', r)) :
    ∃ n, b'.sliceList = [n] ∧ n.slice.size = 0 ∧ n.slice.isFromShm = true ∧ (b'.currentPinned = true ↔ ns.length = 1) ∧
      b'.pinnedList = b.pinnedList := by
  obtain ⟨x, ns, rfl⟩ := List.exists_cons_of_ne_nil hne
  obtain ⟨hpos, hshm⟩ := hns x List.mem_cons_self
  by_cases hlast : ns = []
  · subst hlast
    have hall : sizeOf [x] = x.slice.size := by simp [sizeOf]
    simp only [readFront, hs, hall, ge_iff_le, le_refl, if_true, BufferSlice.read, min_self] at h
    cases h
    exact ⟨_, rfl, read_exhausted (hok x List.mem_cons_self), hshm, by simp, rfl⟩
  · have hrest := sizeOf_loaded (fun y hy => hns y (List.mem_cons_of_mem x hy)) hlast
    have hmore : ¬ x.slice.size ≥ sizeOf (x :: ns) := by
      rw [sizeOf_cons]
      omega
    simp only [readFront, hs, hmore, if_false] at h
    generalize hloop : readLoop bm (x :: ns) _ _ _ = r at h
    obtain ⟨m₂, b₂, bytes⟩ := r
    cases h
    obtain ⟨n, hs', hsize, hshm', hpin', hp'⟩ := readLoop_last hok hns hne (by exact hpin) hloop
    refine ⟨n, hs', hsize, hshm', ?_, hp'⟩
    have hlen : (x :: ns).length ≠ 1 := by simpa using hlast
    rw [hpin']
    exact ⟨fun hfalse => absurd hfalse Bool.false_ne_true, fun hone => absurd hone hlen⟩

theorem readBytes_spent {c : LinkedBuffer} {slices : List BufferSlice} {r : Result Buf} (hb : Base P e m free b)
    (hlen : b.len = sizeOf b.sliceList) (hspent : Spent c ks) (hgrown : Stream.Grown c b slices)
    (hslices : ∀ s ∈ slices, 0 < s.size ∧ s.isFromShm = true) (hne : slices ≠ [])
    (h : LinkedBuffer.readBytes bm m b b.len = (m', b', r)) : Spent b' (ks ++ [slices.length]) := by
  obtain ⟨⟨ns, hs, hmap⟩, hp, hc⟩ := hgrown
  have hns : ∀ x ∈ ns, Loaded x := by
    intro x hx
    exact hslices x.slice (hmap ▸ List.mem_map_of_mem hx)
  have hne' : ns ≠ [] := by
    rintro rfl
    exact hne hmap.symm
  have htotal : b.len = sizeOf ns := by
    rw [hlen, hs, sizeOf, List.map_append, List.sum_append]
    change sizeOf c.sliceList + sizeOf ns = _
    rw [hspent.size, Nat.zero_add]
  have hpos := sizeOf_loaded hns hne'
  rw [LinkedBuffer.readBytes, if_neg (by omega), if_neg (lt_irrefl _)] at h
  rcases hskip : skipEmptyFront bm m b with ⟨m₁, b₁⟩
  obtain ⟨hs₁, hc₁, hp₁, hshm₁, -⟩ := skipEmptyFront_spent hspent hs hp hc hns hne' hskip
  simp only [hskip] at h
  rw [htotal] at h
  have hok : ∀ x ∈ ns, SliceOk P x.slice := fun x hx => hb.mem_slice (hs ▸ List.mem_append_right _ hx)
  obtain ⟨n, hs', hsize, hshm, hpin, hp'⟩ := readFront_last hok hs₁ hns hne' hc₁ h
  have hcount : ns.length = slices.length := by rw [← hmap, List.length_map]
  refine .after hs' hsize (hcount ▸ hpin) (hp' ▸ hp₁) ?_
  intro x hx
  rw [nodes, hs', hp'] at hx
  rcases List.mem_append.mp hx with hx | hx
  · rw [List.mem_singleton.mp hx]
    exact hshm
  · exact hshm₁ x hx

theorem mem_dataViews (hf : P.Free e m free) (hr : ∀ a ∈ A, Readable P m a) :
    ∀ s ∈ dataViews m A, 0 < s.size ∧ s.isFromShm = true := by
  intro s hs
  obtain ⟨a, ha, rfl⟩ := List.mem_map.mp hs
  obtain ⟨ha, hsize⟩ := List.mem_filter.mp ha
  refine ⟨?_, rfl⟩
  rw [(slotView_ok hf (hr a ha)).2]
  exact Nat.pos_of_ne_zero (of_decide_eq_true hsize)

theorem dataSlots_of_chainBytes (hf : P.Free e m free) (hr : ∀ a ∈ A, Readable P m a) (h : chainBytes m A = []) :
    dataSlots m A = 0 := by
  rw [dataSlots, dataViews, List.length_map, List.length_eq_zero_iff, List.filter_eq_nil_iff]
  intro a ha
  obtain ⟨hok, hsize⟩ := slotView_ok hf (hr a ha)
  have hnil : (slotView m a).unread m = [] := List.flatMap_eq_nil_iff.mp h a ha
  rw [← hsize, ← hok.unread_length m, hnil]
  exact of_decide_eq_true rfl

section Read

variable {s s' : Stream} {ret : Option (Result Buf)}

theorem read_spent (h : Incoming P e m free s.recvBuf s.pendingData A data) (hspent : Spent s.recvBuf ks)
    (hall : ∀ item ∈ s.pendingData, ∃ off, item = .chain off) (hread : s.read P.manager m = some (m', s', ret)) :
    s'.pendingData = [] ∧ Spent s'.recvBuf (ks ++ [dataSlots m A].filter (· ≠ 0)) := by
  obtain ⟨m₁, free₁, b₁, flag, hmoveAll, hmoved, hgrown⟩ :=
    Stream.moveAll_moves h.valid.toBase h.valid.len h.arrived h.distinct h.owned le_rfl s.inFallbackState
  have hgrown := hgrown hall
  have hmove : Stream.movePendingData P.manager m s =
      some (m₁, { s with recvBuf := b₁, inFallbackState := flag, pendingData := [] }) := by
    rw [Stream.movePendingData, hmoveAll, Option.map_some]
  obtain ⟨ret₁, hmore, hok, hrefused⟩ := Stream.readMore_of_move (k := 1) hmove
  have hempty : s.recvBuf.len < 1 := by
    rw [h.valid.len, hspent.size]
    exact Nat.one_pos
  rw [Stream.read, Stream.reading, if_pos hempty, hmore] at hread
  have hviews := mem_dataViews h.valid.holds.pool fun a ha => h.arrived.readable ha
  by_cases hnone : dataViews m A = []
  · -- only empty slots came, and the call waits
    rw [hnone] at hgrown
    obtain ⟨⟨ns, hs, hns⟩, hp, hc⟩ := hgrown
    rw [List.map_eq_nil_iff.mp hns, List.append_nil] at hs
    have hspent₁ : Spent b₁ ks := hspent.congr hs hp hc
    have hlen₁ : ¬ 1 ≤ b₁.len := by
      rw [hmoved.len, hspent₁.size]
      exact Nat.not_succ_le_zero 0
    obtain ⟨ret', hthen, -⟩ := Stream.andThen_refused (hrefused hlen₁) _
    rw [hthen] at hread
    cases hread
    have hzero : dataSlots m A = 0 := by rw [dataSlots, hnone, List.length_nil]
    rw [hzero]
    exact ⟨rfl, by simpa using hspent₁⟩
  · have hpos : 1 ≤ b₁.len := by
      obtain ⟨⟨ns, hs, hns⟩, -, -⟩ := hgrown
      rw [hmoved.len, hs, sizeOf, List.map_append, List.sum_append]
      have hload : 0 < sizeOf ns := by
        apply sizeOf_loaded
        · intro x hx
          exact hviews x.slice (hns ▸ List.mem_map_of_mem hx)
        · rintro rfl
          exact hnone hns.symm
      exact hload.trans_le (Nat.le_add_left _ _)
    rw [hok hpos, Stream.andThen, Option.map_some] at hread
    rcases hbytes : LinkedBuffer.readBytes P.manager m₁ b₁ b₁.len with ⟨m₂, b₂, r⟩
    simp only [Stream.onRecv, hbytes] at hread
    cases hread
    have hslots : dataSlots m A ≠ 0 := by
      rw [dataSlots, ne_eq, List.length_eq_zero_iff]
      exact hnone
    rw [List.filter_cons_of_pos (by simpa using hslots), List.filter_nil]
    exact ⟨rfl, readBytes_spent hmoved.base hmoved.len hspent hgrown hviews hnone hbytes⟩

end Read

end SlotHoard

namespace StreamExt

variable {x x' : StreamExt} {busy : Option (ℕ × List UInt8)} {delivered copied rest out : List UInt8} {n size filled fuel : ℕ}

/-- Messages come as chains, each when the ones before it are copied out. `ks` are the numbers of their slots that have
data. -/
inductive InTurn (P : Pool) (e : Bool) :
    Mem → StreamExt → Option (ℕ × List UInt8) → List ℕ → List UInt8 → List UInt8 → Prop
  | start {m : Mem} {free : ℕ → Prop} (id : ℕ) : P.Free e m free → InTurn P e m ⟨.empty id, none⟩ none [] [] []
  | deliver {m m' : Mem} {free : ℕ → Prop} {x : StreamExt} {busy : Option (ℕ × List UInt8)} {ks : List ℕ} {bytes : List UInt8}
      {off : ℕ} {B : List ℕ} {s : Stream} : InTurn P e m x busy ks bytes bytes →
      P.Free e m free → (∀ a, Owns P m x a → ¬ free a) → Chain P m off B → B.Nodup →
      (∀ a ∈ B, ¬ free a ∧ ¬ Owns P m x a) → x.inner.fillDataToReadBuffer P.manager m (.chain off) = some (m', s) →
      InTurn P e m' { x with inner := s } busy (ks ++ [dataSlots m B]) (bytes ++ chainBytes m B) bytes
  | others {m m' : Mem} {free' : ℕ → Prop} {x x' : StreamExt} {busy : Option (ℕ × List UInt8)} {ks : List ℕ}
      {delivered copied : List UInt8} : InTurn P e m x busy ks delivered copied → P.Free e m' free' →
      (∀ a, Owns P m x a → ¬ free' a) → (∀ d a, P.Slot d a → Owns P m x a → SameOn m m' a (a + (d + 20))) →
      x'.inner.recvBuf = x.inner.recvBuf → x'.inner.pendingData = x.inner.pendingData → x'.inner.state ≠ .closed →
      x'.reader = x.reader → InTurn P e m' x' busy ks delivered copied
  | read {m m' : Mem} {x x' : StreamExt} {ks : List ℕ} {delivered copied out : List UInt8} {n : ℕ} {ret : Option (IoResult ℕ)} :
      InTurn P e m x none ks delivered copied → 0 < n → x.read P.manager m n = some (m', x', out, ret) →
      InTurn P e m' x' none ks delivered (copied ++ out)
  | begin {m : Mem} {x : StreamExt} {ks : List ℕ} {delivered copied : List UInt8} {size : ℕ} :
      InTurn P e m x none ks delivered copied → 0 < size → InTurn P e m x (some (size, [])) ks delivered copied
  | readExact {m m' : Mem} {x x' : StreamExt} {ks : List ℕ} {delivered copied dest out : List UInt8} {size : ℕ}
      {ret : Option (IoResult ℕ)} : InTurn P e m x (some (size, dest)) ks delivered copied →
      x.readExact P.manager m size dest.length = some (m', x', out, ret) →
      InTurn P e m' x' (if ret = none then some (size, dest ++ out) else none) ks delivered (copied ++ out)

theorem InTurn.run (h : InTurn P e m x busy ks delivered copied) : Run P e m x busy delivered copied := by
  induction h with
  | start id hf => exact .start id hf
  | @deliver m m' free x busy ks bytes off B s _ hf hown hc hnd hnew hfill ih =>
    have harrived : Arrived P m [.chain off] B (chainBytes m B) := by
      simpa only [List.append_nil] using Arrived.chain hc .nil
    exact .deliver ih hf hown harrived hnd hnew hfill
  | others _ hf hown hsame hrecv hpending hstate hreader ih => exact .others ih hf hown hsame hrecv hpending hstate hreader
  | read _ hn hread ih => exact .read ih hn hread
  | begin _ hpos ih => exact .begin ih hpos
  | readExact _ hcall ih => exact .readExact ih hcall

structure Tracked (P : Pool) (m : Mem) (x : StreamExt) (ks : List ℕ) (A : List ℕ) : Prop where
  chains : ∀ item ∈ x.inner.pendingData, ∃ off, item = .chain off
  arrived : ∃ data, Arrived P m x.inner.pendingData A data
  spent : ∃ seen, Spent x.inner.recvBuf seen ∧ ks.filter (· ≠ 0) = seen ++ [dataSlots m A].filter (· ≠ 0)

theorem read_cases {bm : BufferManager} {ret : Option (IoResult ℕ)} (h : x.read bm m n = some (m', x', out, ret)) :
    (m' = m ∧ x'.inner = x.inner) ∨ ∃ ret', x.inner.read bm m = some (m', x'.inner, ret') := by
  rw [read] at h
  split_ifs at h
  · cases h
    exact .inl ⟨rfl, rfl⟩
  · split at h
    · cases h
      exact .inl ⟨rfl, rfl⟩
    · obtain ⟨⟨m₁, s₁, ret₁⟩, hread, h⟩ := Option.map_eq_some_iff.mp h
      refine .inr ⟨ret₁, ?_⟩
      rw [hread]
      rcases ret₁ with - | (err | buf)
      · cases h
        rfl
      · cases h
        rfl
      · cases h
        rfl

theorem Tracked.read {ret : Option (IoResult ℕ)} (h : Tracked P m x ks A) (hholds : Holds P e m free x B data rest)
    (hread : x.read P.manager m n = some (m', x', out, ret)) : ∃ A', Tracked P m' x' ks A' := by
  rcases read_cases hread with ⟨rfl, hinner⟩ | ⟨ret', hread'⟩
  · refine ⟨A, ?_⟩
    obtain ⟨hall, harrived, hspent⟩ := h
    rw [← hinner] at hall harrived hspent
    exact ⟨hall, harrived, hspent⟩
  · obtain ⟨hall, ⟨data', harrived⟩, ⟨seen, hspent, hks⟩⟩ := h
    obtain rfl := (harrived.unique hholds.incoming.arrived).1
    obtain ⟨hnil, hspent'⟩ := SlotHoard.read_spent hholds.incoming hspent hall hread'
    refine ⟨[], ?_, ⟨[], ?_⟩, ⟨_, hspent', ?_⟩⟩
    · rw [hnil]
      exact nofun
    · rw [hnil]
      exact .nil
    · rw [hks]
      exact (List.append_nil _).symm

theorem Tracked.readExactLoop {ret : Option (IoResult ℕ)} (h : Tracked P m x ks A) (hholds : Holds P e m free x B data rest)
    (hcall : readExactLoop P.manager size fuel m x filled = some (m', x', out, ret)) : ∃ A', Tracked P m' x' ks A' := by
  induction fuel generalizing m free x A B data rest filled out with
  | zero => cases hcall
  | succ fuel ih =>
    rw [StreamExt.readExactLoop] at hcall
    split_ifs at hcall with hlt
    · obtain ⟨⟨m₁, x₁, out₁, ret₁⟩, hread, hcall⟩ := Option.bind_eq_some_iff.mp hcall
      obtain ⟨A₁, h₁⟩ := h.read hholds hread
      have houtcome := read_outcome hholds (show 0 < size - filled by omega)
      rw [hread] at houtcome
      cases houtcome with
      | copied hholds₁ _ hpos _ =>
        simp only [if_neg hpos.ne'] at hcall
        obtain ⟨⟨m₂, x₂, more, ret₂⟩, hloop, hcall⟩ := Option.map_eq_some_iff.mp hcall
        cases hcall
        exact ih h₁ hholds₁ hloop
      | empty _ _ hret =>
        rcases ret₁ with - | (err | k)
        · cases hcall
          exact ⟨A₁, h₁⟩
        · cases hcall
          exact ⟨A₁, h₁⟩
        · exact absurd rfl (hret k)
    · cases hcall
      exact ⟨A, h⟩

theorem Tracked.waiting_empty {data' : List UInt8} (hall : ∀ item ∈ x.inner.pendingData, ∃ off, item = .chain off)
    (harrived : Arrived P m x.inner.pendingData A data') (hholds : Holds P e m free x B data rest) (hrest : rest = []) :
    dataSlots m A = 0 := by
  have hdata := hholds.rest
  rw [hrest] at hdata
  obtain rfl := (harrived.unique hholds.incoming.arrived).1
  apply SlotHoard.dataSlots_of_chainBytes hholds.incoming.valid.holds.pool fun a ha => harrived.readable ha
  rw [← hholds.incoming.arrived.chainBytes_eq hall]
  exact (List.append_eq_nil_iff.mp hdata.symm).2

theorem Tracked.deliver {off : ℕ} {C : List ℕ} (h : Tracked P m x ks A) (hholds : Holds P e m free x B data rest)
    (hrest : rest = []) (hc : Chain P m off C) :
    Tracked P m { x with inner := { x.inner with pendingData := x.inner.pendingData ++ [.chain off] } } (ks ++ [dataSlots m C])
      (A ++ C) := by
  obtain ⟨hall, ⟨data', harrived⟩, ⟨seen, hspent, hks⟩⟩ := h
  have hzero := waiting_empty hall harrived hholds hrest
  have hmore : dataSlots m (A ++ C) = dataSlots m C := by
    rw [dataSlots, dataViews_append, List.length_append]
    change dataSlots m A + dataSlots m C = _
    rw [hzero, Nat.zero_add]
  refine ⟨?_, ⟨data' ++ chainBytes m C, harrived.append ?_⟩, ⟨seen, hspent, ?_⟩⟩
  · intro item hitem
    rcases List.mem_append.mp hitem with hitem | hitem
    · exact hall item hitem
    · exact ⟨off, List.mem_singleton.mp hitem⟩
  · simpa only [List.append_nil] using Arrived.chain hc .nil
  · rw [List.filter_append, hks, hzero, hmore]
    simp

theorem Tracked.others (h : Tracked P m x ks A) (hholds : Holds P e m free x B data rest)
    (hsame : ∀ d a, P.Slot d a → Owns P m x a → SameOn m m' a (a + (d + 20))) (hrecv : x'.inner.recvBuf = x.inner.recvBuf)
    (hpending : x'.inner.pendingData = x.inner.pendingData) : Tracked P m' x' ks A := by
  obtain ⟨hall, ⟨data', harrived⟩, hspent⟩ := h
  have huntouched : Untouched P m m' A := fun d a hd ha => hsame d a hd (.inr ⟨A, data', harrived, ha⟩)
  rw [← hpending] at hall harrived
  rw [← hrecv] at hspent
  refine ⟨hall, ⟨data', harrived.congr hholds.incoming.valid.holds.pool huntouched⟩, ?_⟩
  rw [dataSlots, dataViews_congr (fun a ha => harrived.readable ha) huntouched]
  exact hspent

theorem tracked_of_inTurn (h : InTurn P e m x busy ks delivered copied) : ∃ A, Tracked P m x ks A := by
  induction h with
  | start id _ => exact ⟨[], nofun, ⟨[], .nil⟩, [], .fresh rfl rfl rfl, rfl⟩
  | @deliver m m' free x busy ks bytes off B s hrun hf hown hc hnd hnew hfill ih =>
    obtain ⟨A, htracked⟩ := ih
    obtain ⟨free', A', data, rest, hholds, hdel⟩ := (inv_of_run hrun.run).holds
    rw [Stream.fillDataToReadBuffer, if_neg hholds.state] at hfill
    cases hfill
    exact ⟨A ++ B, htracked.deliver hholds (List.self_eq_append_right.mp hdel) hc⟩
  | others hrun _ _ hsame hrecv hpending _ _ ih =>
    obtain ⟨A, htracked⟩ := ih
    obtain ⟨free, B, data, rest, hholds, -⟩ := (inv_of_run hrun.run).holds
    exact ⟨A, htracked.others hholds hsame hrecv hpending⟩
  | read hrun _ hread ih =>
    obtain ⟨A, htracked⟩ := ih
    obtain ⟨free, B, data, rest, hholds, -⟩ := (inv_of_run hrun.run).holds
    exact htracked.read hholds hread
  | begin _ _ ih => exact ih
  | readExact hrun hcall ih =>
    obtain ⟨A, htracked⟩ := ih
    obtain ⟨free, B, data, rest, hholds, -⟩ := (inv_of_run hrun.run).holds
    exact htracked.readExactLoop hholds hcall

theorem spent_of_inTurn {bytes : List UInt8} (h : InTurn P e m x busy ks bytes bytes) :
    Spent x.inner.recvBuf (ks.filter (· ≠ 0)) := by
  obtain ⟨A, hall, ⟨data', harrived⟩, ⟨seen, hspent, hks⟩⟩ := tracked_of_inTurn h
  obtain ⟨free, B, data, rest, hholds, hdel⟩ := (inv_of_run h.run).holds
  rw [hks, Tracked.waiting_empty hall harrived hholds (List.self_eq_append_right.mp hdel)]
  simpa using hspent

theorem hoards_iff {bytes : List UInt8} (h : InTurn P e m x busy ks bytes bytes) :
    x.inner.recvBuf.held.length ≤ 1 ↔ ks.Pairwise fun k k' => k = 1 → k' = 0 := by
  obtain ⟨free, A, data, rest, hholds, -⟩ := (inv_of_run h.run).holds
  rw [(spent_of_inTurn h).held_length hholds.incoming.valid.toBase, SlotHoard.pairwise_iff]
  have hmin := min_le_right (ks.filter (· ≠ 0)).length 1
  cases hlist : ks.filter (· ≠ 0) with
  | nil => simp
  | cons k ks =>
    rw [List.length_cons]
    omega

section TwoSlots

open Built (published)

def fiveSlots : Pool := Pool.single (n := 5) (by decide) (show _ ≤ 156 by decide) (by decide)

def fiveMem : Mem := BufferList.created ⟨0, 5 * (4 + 20), 36⟩ 5 4 ⟨fun _ => 0⟩

-- eight bytes and seven bytes, each in two slots
def twoSent : Mem := ((published fiveSlots.manager fiveMem [1, 2, 3, 4, 5, 6, 7, 8]).bind fun m =>
  published fiveSlots.manager m [9, 10, 11, 12, 13, 14, 15]).getD fiveMem

-- the first message is read to its end, and then the second one
@[irreducible]
def afterFirst : Mem × StreamExt × List UInt8 × Option (IoResult ℕ) :=
  (StreamExt.read fiveSlots.manager twoSent ⟨{ Stream.empty 1 with pendingData := [.chain 36] }, none⟩ 8).get (by decide +kernel)

def secondDue : StreamExt := ⟨{ afterFirst.2.1.inner with pendingData := afterFirst.2.1.inner.pendingData ++ [.chain 84] }, afterFirst.2.1.reader⟩

@[irreducible]
def afterSecond : Mem × StreamExt × List UInt8 × Option (IoResult ℕ) :=
  (StreamExt.read fiveSlots.manager afterFirst.1 secondDue 7).get (by decide +kernel)

theorem twoSent_message : fiveSlots.Free true twoSent (· ∈ [132]) ∧ Chain fiveSlots twoSent 36 [36, 60] ∧
    dataSlots twoSent [36, 60] = 2 ∧ chainBytes twoSent [36, 60] = [1, 2, 3, 4, 5, 6, 7, 8] := by
  have hfacts : (FreeList ⟨0, 5 * (4 + 20), 36⟩ 5 4 twoSent [132] ∧
      ∀ a ∈ BufferList.slots ⟨0, 5 * (4 + 20), 36⟩ 5 4, BufferHeader.cap twoSent a = 4) ∧
      Chain fiveSlots twoSent 36 [36, 60] ∧ dataSlots twoSent [36, 60] = 2 ∧
      chainBytes twoSent [36, 60] = [1, 2, 3, 4, 5, 6, 7, 8] := by
    decide +kernel
  exact ⟨Pool.single_free_of _ _ _ hfacts.1.1 hfacts.1.2, hfacts.2⟩

-- the first slot is back behind the free one, the second one is the last slice of the buffer
theorem afterFirst_message : fiveSlots.Free true afterFirst.1 (· ∈ [132, 36]) ∧
    Chain fiveSlots afterFirst.1 84 [84, 108] ∧ dataSlots afterFirst.1 [84, 108] = 2 ∧
    chainBytes afterFirst.1 [84, 108] = [9, 10, 11, 12, 13, 14, 15] ∧ afterFirst.2.2.1 = [1, 2, 3, 4, 5, 6, 7, 8] ∧
    afterFirst.2.1.inner.pendingData = [] ∧ afterFirst.2.1.inner.recvBuf.held = [60] ∧ afterFirst.2.1.inner.state ≠ .closed := by
  have hfacts : (FreeList ⟨0, 5 * (4 + 20), 36⟩ 5 4 afterFirst.1 [132, 36] ∧
      ∀ a ∈ BufferList.slots ⟨0, 5 * (4 + 20), 36⟩ 5 4, BufferHeader.cap afterFirst.1 a = 4) ∧
      Chain fiveSlots afterFirst.1 84 [84, 108] ∧ dataSlots afterFirst.1 [84, 108] = 2 ∧
      chainBytes afterFirst.1 [84, 108] = [9, 10, 11, 12, 13, 14, 15] ∧ afterFirst.2.2.1 = [1, 2, 3, 4, 5, 6, 7, 8] ∧
      afterFirst.2.1.inner.pendingData = [] ∧ afterFirst.2.1.inner.recvBuf.held = [60] ∧
      afterFirst.2.1.inner.state ≠ .closed := by
    decide +kernel
  exact ⟨Pool.single_free_of _ _ _ hfacts.1.1 hfacts.1.2, hfacts.2⟩

theorem hoards_none_two : ∃ m x bytes, InTurn fiveSlots true m x none [2, 2] bytes bytes ∧
    bytes = [1, 2, 3, 4, 5, 6, 7, 8, 9, 10, 11, 12, 13, 14, 15] ∧ x.inner.recvBuf.held.length ≤ 1 := by
  obtain ⟨hfree, hchain, hslots, hbytes⟩ := twoSent_message
  have htaken : ∀ a ∈ [36, 60], a ∉ [132] := by decide
  have hfirst := (InTurn.start 1 hfree).deliver hfree (fun a ha => absurd ha owns_empty) hchain (by decide)
    (fun a ha => ⟨htaken a ha, owns_empty⟩) rfl
  have hread : StreamExt.read fiveSlots.manager twoSent ⟨{ Stream.empty 1 with pendingData := [.chain 36] }, none⟩ 8 =
      some afterFirst := by
    rw [afterFirst, Option.some_get]
  have hfirst := hfirst.read (by decide) hread
  obtain ⟨hfree', hchain', hslots', hbytes', hout, hpending, hheld, hopen⟩ := afterFirst_message
  rw [hslots, hbytes, hout] at hfirst
  have howned : ∀ a, Owns fiveSlots afterFirst.1 afterFirst.2.1 a → a ∈ [60] := fun a ha => hheld ▸ mem_of_owns hpending ha
  have hkept : ∀ a ∈ [60], a ∉ [132, 36] := by decide
  have hnew : ∀ a ∈ [84, 108], a ∉ [132, 36] ∧ a ∉ [60] := by decide
  have hsecond := hfirst.deliver hfree' (fun a ha => hkept a (howned a ha)) hchain' (by decide)
    (fun a ha => ⟨(hnew a ha).1, fun hown => (hnew a ha).2 (howned a hown)⟩)
    (show _ = some (afterFirst.1, secondDue.inner) from if_neg hopen)
  have hread : StreamExt.read fiveSlots.manager afterFirst.1 secondDue 7 = some afterSecond := by
    rw [afterSecond, Option.some_get]
  have hsecond := hsecond.read (by decide) hread
  have hout' : afterSecond.2.2.1 = [9, 10, 11, 12, 13, 14, 15] := by decide +kernel
  rw [hslots', hbytes', hout'] at hsecond
  exact ⟨_, _, _, hsecond, rfl, (hoards_iff hsecond).mpr (by decide)⟩

end TwoSlots

section OneByte

open Built (threeSlots threeList threeMem threeSlots_slot published)

structure OneByte (m : Mem) (a : ℕ) : Prop where
  slot : threeSlots.Slot 4 a
  size : BufferHeader.size m a = 1
  start : BufferHeader.start m a = 0
  last : BufferHeader.hasNext m a = false

-- two of the three slots are taken, each with a message of one byte
def oneSent : Mem := ((published threeSlots.manager threeMem [1]).bind fun m => published threeSlots.manager m [2]).getD threeMem

theorem oneByte_start : ∃ m free, threeSlots.Free true m free ∧ (¬ free 36 ∧ OneByte m 36 ∧ BufferHeader.isInUsed m 36 = true) ∧
    (¬ free 60 ∧ OneByte m 60 ∧ BufferHeader.isInUsed m 60 = true) ∧ ∀ d a, threeSlots.Slot d a → free a ∨ a = 36 ∨ a = 60 := by
  have hlist : FreeList threeList 3 4 oneSent [84] ∧ ∀ a ∈ threeList.slots 3 4, BufferHeader.cap oneSent a = 4 := by
    decide +kernel
  have hslots : ∀ a ∈ [36, 60], threeSlots.Slot 4 a ∧ BufferHeader.size oneSent a = 1 ∧ BufferHeader.start oneSent a = 0 ∧
      BufferHeader.hasNext oneSent a = false ∧ BufferHeader.isInUsed oneSent a = true := by
    decide +kernel
  have hone : ∀ a ∈ [36, 60], a ∉ [84] ∧ OneByte oneSent a ∧ BufferHeader.isInUsed oneSent a = true := by
    intro a ha
    obtain ⟨hslot, hsize, hstart, hlast, hused⟩ := hslots a ha
    exact ⟨by revert a; decide, ⟨hslot, hsize, hstart, hlast⟩, hused⟩
  refine ⟨oneSent, (· ∈ [84]), Pool.single_free_of _ _ _ hlist.1 hlist.2, hone 36 (by decide), hone 60 (by decide), fun d a hd => ?_⟩
  have hcases : ∀ a ∈ [36, 60, 84], a ∈ [84] ∨ a = 36 ∨ a = 60 := by decide
  exact hcases a (threeSlots_slot hd)

namespace OneByte

variable {a : ℕ}

theorem view (h : OneByte m a) (hf : threeSlots.Free e m free) : slotView m a = { freshSlice 4 a with writeIndex := 1 } := by
  rw [slotView, h.size, h.start, hf.caps h.slot]
  rfl

theorem chain (h : OneByte m a) : Chain threeSlots m a [a] := by
  apply Chain.last _ h.last
  refine ⟨4, h.slot, ?_⟩
  rw [h.size, h.start]
  decide

theorem dataSlots_eq (h : OneByte m a) : dataSlots m [a] = 1 := by
  rw [dataSlots, dataViews, List.filter_cons_of_pos (by rw [h.size]; decide)]
  rfl

theorem moveAll (h : OneByte m a) (hf : threeSlots.Free e m free) (b : LinkedBuffer) (flag : Bool) :
    Stream.moveAll threeSlots.manager threeSlots.manager.memSize [.chain a] m b flag =
      some (m, b.appendBufferSlice { freshSlice 4 a with writeIndex := 1 }, flag) := by
  have hread := readBufferSlice_slot hf h.slot
  rw [h.view hf] at hread
  change (Stream.moveChain threeSlots.manager (107 + 1) m b a).bind _ = _
  have hsize : ¬ { freshSlice 4 a with writeIndex := 1 }.size = 0 := show ¬ 1 = 0 by decide
  rw [Stream.moveChain_eq hread rfl, if_neg hsize, h.last, if_neg Bool.false_ne_true]
  rfl

theorem moved (h : OneByte m a) (hf : threeSlots.Free e m free) {s : Stream} (hpending : s.pendingData = [.chain a]) :
    Stream.movePendingData threeSlots.manager m s = some (m, { s with
      recvBuf := s.recvBuf.appendBufferSlice { freshSlice 4 a with writeIndex := 1 }
      pendingData := [] }) := by
  rw [Stream.movePendingData, hpending, h.moveAll hf]
  rfl

end OneByte

-- the slice of the first message, and of the second one behind it
def firstBuf : LinkedBuffer := ⟨[⟨0, { freshSlice 4 36 with readIndex := 1, writeIndex := 1 }⟩], some 0, [], true, true, 0, 1⟩

def secondBuf : LinkedBuffer := ⟨[⟨1, { freshSlice 4 60 with readIndex := 1, writeIndex := 1 }⟩], some 1,
  [⟨0, { freshSlice 4 36 with readIndex := 1, writeIndex := 1 }⟩], true, true, 0, 2⟩

theorem read_first (h : OneByte m 36) (hf : threeSlots.Free e m free) :
    StreamExt.read threeSlots.manager m ⟨{ Stream.empty 1 with pendingData := [.chain 36] }, none⟩ 1 =
      some (m, ⟨{ Stream.empty 1 with recvBuf := firstBuf }, none⟩, loadBytes m 56 1, some (.ok 1)) := by
  rw [StreamExt.read, if_neg (by decide)]
  simp only [Stream.read, Stream.reading]
  rw [if_pos (by decide), Stream.readMore, h.moved hf rfl]
  rfl

theorem read_second (h : OneByte m 60) (hf : threeSlots.Free e m free) :
    StreamExt.read threeSlots.manager m ⟨{ Stream.empty 1 with recvBuf := firstBuf, pendingData := [.chain 60] }, none⟩ 1 =
      some (m, ⟨{ Stream.empty 1 with recvBuf := secondBuf }, none⟩, loadBytes m 80 1, some (.ok 1)) := by
  rw [StreamExt.read, if_neg (by decide)]
  simp only [Stream.read, Stream.reading]
  rw [if_pos (by decide), Stream.readMore, h.moved hf rfl]
  rfl

theorem OneByte.bytes {a : ℕ} (h : OneByte m a) (hf : threeSlots.Free e m free) :
    chainBytes m [a] = loadBytes m (a + 20) 1 := by
  rw [chainBytes, List.flatMap_singleton, h.view hf]
  rfl

theorem inTurn_first : ∃ m free bytes, threeSlots.Free true m free ∧ ¬ free 36 ∧ ¬ free 60 ∧ OneByte m 60 ∧
    InTurn threeSlots true m ⟨{ Stream.empty 1 with recvBuf := firstBuf }, none⟩ none [1] bytes bytes := by
  obtain ⟨m, free, hfree, ⟨h36, hfirst, -⟩, ⟨h60, hsecond, -⟩, -⟩ := oneByte_start
  have hrun := (InTurn.start 1 hfree).deliver hfree (fun a ha => absurd ha owns_empty) hfirst.chain (List.nodup_singleton 36)
    (fun a ha => ⟨List.mem_singleton.mp ha ▸ h36, owns_empty⟩) rfl
  rw [hfirst.dataSlots_eq, hfirst.bytes hfree] at hrun
  exact ⟨m, free, _, hfree, h36, h60, hsecond, hrun.read Nat.one_pos (read_first hfirst hfree)⟩

theorem two_slots_held : ∃ m x bytes, InTurn threeSlots true m x none [1, 1] bytes bytes ∧ x.inner.recvBuf.held.length = 2 := by
  obtain ⟨m, free, bytes, hfree, h36, h60, hsecond, hrun⟩ := inTurn_first
  have howned : ∀ a, Owns threeSlots m ⟨{ Stream.empty 1 with recvBuf := firstBuf }, none⟩ a → a = 36 :=
    fun a ha => List.mem_singleton.mp (mem_of_owns rfl ha)
  have hrun := hrun.deliver hfree (fun a ha => howned a ha ▸ h36) hsecond.chain (List.nodup_singleton 60)
    (fun a ha => ⟨List.mem_singleton.mp ha ▸ h60, fun hown => ?_⟩) rfl
  · rw [hsecond.dataSlots_eq, hsecond.bytes hfree] at hrun
    exact ⟨m, _, _, hrun.read Nat.one_pos (read_second hsecond hfree), rfl⟩
  · have h := howned a hown
    rw [List.mem_singleton.mp ha] at h
    cases h

end OneByte

end StreamExt

end Shmipc
