import Shmipc.LinkedBufferWrite

namespace Shmipc

open ByteMemory

namespace LinkedBuffer

variable {P : Pool} {e : Bool} {m m' m'' : Mem} {free free' free'' : ℕ → Prop} {b b' b'' : LinkedBuffer} {n : Node}
  {rest ns : List Node} {size k j : ℕ}

structure Consumed (P : Pool) (e : Bool) (m : Mem) (free : ℕ → Prop) (b : LinkedBuffer) (k : ℕ) (m' : Mem)
    (free' : ℕ → Prop) (b' : LinkedBuffer) : Prop where
  base : Base P e m' free' b'
  exchange : Exchange P m free b.held m' free' b'.held
  unread : unreadOf m' b'.sliceList = (unreadOf m b.sliceList).drop k
  write : b'.write = b.write
  back : b'.back = b.back

namespace Consumed

theorem refl (h : Base P e m free b) : Consumed P e m free b 0 m free b :=
  ⟨h, .refl _ _ _ _, rfl, rfl, rfl⟩

theorem trans (hb : Base P e m free b) (h : Consumed P e m free b k m' free' b')
    (h' : Consumed P e m' free' b' j m'' free'' b'') : Consumed P e m free b (k + j) m'' free'' b'' where
  base := h'.base
  exchange := h.exchange.trans hb.slots h'.exchange
  unread := by rw [h'.unread, h.unread, List.drop_drop]
  write := h'.write.trans h.write
  back := h'.back.trans h.back

-- the pin of the front and the length play no part in it
theorem congr {c : LinkedBuffer} (h : Consumed P e m free b k m' free' b') (hs : c.sliceList = b'.sliceList)
    (hp : c.pinnedList = b'.pinnedList) (hn : c.nextId = b'.nextId) (hi : c.isFromShm = b'.isFromShm)
    (hw : c.write = b'.write) : Consumed P e m free b k m' free' c where
  base := h.base.congr hs hp hn hi
  exchange := by
    have hheld : c.held = b'.held := by rw [held, held, nodes, nodes, hs, hp]
    exact hheld ▸ h.exchange
  unread := by rw [hs, h.unread]
  write := hw.trans h.write
  back := by rw [LinkedBuffer.back, hs, ← h.back, LinkedBuffer.back]

theorem counts (hb : Base P e m free b) (h : Consumed P e m free b k m' free' b') (hlen : b.len = sizeOf b.sliceList)
    (hlen' : b'.len = b.len - k) : b'.len = sizeOf b'.sliceList := by
  have hsize := congrArg List.length h.unread
  rw [unreadOf_length (fun x hx => h.base.mem_slice hx), List.length_drop,
    unreadOf_length (fun x hx => hb.mem_slice hx)] at hsize
  rw [hlen', hlen, hsize]

theorem valid (hv : Valid P e m free b) (h : Consumed P e m free b k m' free' b') (hlen : b'.len = b.len - k) :
    Valid P e m' free' b' :=
  ⟨h.base, by rw [h.write, h.back, hv.cursor], h.counts hv.toBase hv.len hlen⟩

end Consumed

structure Drained (P : Pool) (e : Bool) (m : Mem) (free : ℕ → Prop) (b : LinkedBuffer) (k : ℕ) (m' : Mem)
    (free' : ℕ → Prop) (b' : LinkedBuffer) : Prop extends Consumed P e m free b k m' free' b' where
  cursor : HasCursor b → HasCursor b'

theorem HasCursor.congr {c : LinkedBuffer} (h : HasCursor b) (hs : c.sliceList = b.sliceList) (hw : c.write = b.write) :
    HasCursor c := by
  obtain ⟨pre, n, behind, hc⟩ := h
  exact ⟨pre, n, behind, hs.trans hc.split, hw.trans hc.write, hc.blank⟩

namespace Drained

theorem refl (h : Base P e m free b) : Drained P e m free b 0 m free b :=
  ⟨.refl h, id⟩

theorem trans (hb : Base P e m free b) (h : Drained P e m free b k m' free' b')
    (h' : Drained P e m' free' b' j m'' free'' b'') : Drained P e m free b (k + j) m'' free'' b'' :=
  ⟨h.toConsumed.trans hb h'.toConsumed, fun hc => h'.cursor (h.cursor hc)⟩

theorem congr {c : LinkedBuffer} (h : Drained P e m free b k m' free' b') (hs : c.sliceList = b'.sliceList)
    (hp : c.pinnedList = b'.pinnedList) (hn : c.nextId = b'.nextId) (hi : c.isFromShm = b'.isFromShm)
    (hw : c.write = b'.write) : Drained P e m free b k m' free' c :=
  ⟨h.toConsumed.congr hs hp hn hi hw, fun hc => (h.cursor hc).congr hs hw⟩

end Drained

theorem sizeOf_cons (n : Node) (ns : List Node) : sizeOf (n :: ns) = n.slice.size + sizeOf ns := by
  simp [sizeOf]

theorem sizeOf_pos (h : 0 < sizeOf ns) : ns ≠ [] := by
  rintro rfl
  simp [sizeOf] at h

theorem sizeOf_blank (h : ∀ x ∈ ns, Blank x.slice) : sizeOf ns = 0 := by
  rw [sizeOf, List.sum_eq_zero_iff_forall_eq_nat]
  intro k hk
  obtain ⟨x, hx, rfl⟩ := List.mem_map.mp hk
  exact (h x hx).size

theorem unread_nil (hok : SliceOk P n.slice) (hsize : n.slice.size = 0) (m : Mem) : n.slice.unread m = [] := by
  rw [← List.length_eq_zero_iff, hok.unread_length, hsize]

theorem Base.advance (h : Base P e m free b) (hs : b.sliceList = n :: rest) (hk : k ≤ n.slice.size) :
    Drained P e m free b k m free
      { b with sliceList := ⟨n.id, { n.slice with readIndex := n.slice.readIndex + k }⟩ :: rest } := by
  have hok := h.mem_slice (n := n) (by simp [hs])
  obtain ⟨hok', -, -, hunread⟩ := hok.consume (m := m) hk
  obtain ⟨hbase, hheld⟩ := h.replace (show b.sliceList = [] ++ n :: rest from hs) (.refl _ _) hok' rfl rfl
  refine ⟨⟨hbase, ?_, ?_, rfl, ?_⟩, ?_⟩
  · exact (Exchange.refl _ _ _ _).congr fun a => by rw [← hheld]; rfl
  · rw [hs, unreadOf_cons, unreadOf_cons, hunread, List.drop_append_of_le_length (by rwa [hok.unread_length])]
  · rw [LinkedBuffer.back, LinkedBuffer.back, hs]
    cases rest with
    | nil => rfl
    | cons x rest => simp only [List.getLast?_cons_cons]
  · rintro ⟨pre, x, behind, hc⟩
    have hsplit := hs.symm.trans hc.split
    cases pre with
    | nil =>
      obtain ⟨rfl, rfl⟩ := List.cons.inj hsplit
      exact ⟨[], _, rest, rfl, hc.write, hc.blank⟩
    | cons y pre =>
      obtain ⟨rfl, rfl⟩ := List.cons.inj hsplit
      exact ⟨_ :: pre, x, behind, rfl, hc.write, hc.blank⟩

theorem Base.of_nodes {c : LinkedBuffer} (h : Base P e m free b) (hh : Holds P e m' free' c.nodes)
    (hsub : c.nodes.Subperm b.nodes) (hn : c.nextId = b.nextId) (hi : c.isFromShm = b.isFromShm)
    (hs : ∀ x ∈ c.sliceList, x ∈ b.sliceList) : Base P e m' free' c := by
  refine ⟨hh, ?_, fun x hx => hn ▸ h.below x (hsub.subset hx), fun ht x hx => h.shm (hi ▸ ht) x (hs x hx)⟩
  obtain ⟨l, hp, hl⟩ := hsub
  exact (hp.map Node.id).nodup_iff.mp ((hl.map Node.id).nodup h.ids)

theorem Base.popFront (h : Base P e m free b) (hs : b.sliceList = n :: rest) :
    ∃ free', Base P e (P.manager.recycleBuffer m n.slice) free' { b with sliceList := rest } ∧
      Exchange P m free b.held (P.manager.recycleBuffer m n.slice) free' ({ b with sliceList := rest } : LinkedBuffer).held ∧
      Untouched P m (P.manager.recycleBuffer m n.slice) ({ b with sliceList := rest } : LinkedBuffer).held ∧
      unreadOf (P.manager.recycleBuffer m n.slice) rest = unreadOf m rest := by
  have hnodes : b.nodes = [] ++ n :: (rest ++ b.pinnedList) := by simp [nodes, hs]
  obtain ⟨free', hholds, hex, hsame⟩ := (hnodes ▸ h.holds).recycle
  refine ⟨free', h.of_nodes hholds ?_ rfl rfl ?_, ?_, hsame, ?_⟩
  · rw [hnodes]
    exact (List.sublist_cons_self n _).subperm
  · intro x hx
    rw [hs]
    exact List.mem_cons_of_mem n hx
  · rw [held, hnodes]
    exact hex
  · refine unreadOf_congr ?_ (hsame.mono ?_)
    · intro x hx
      exact h.mem_slice (by rw [hs]; exact List.mem_cons_of_mem n hx)
    · intro a ha
      rw [List.nil_append, heldBy_append]
      exact List.mem_append_left _ ha

theorem Base.pinFront (h : Base P e m free b) (hs : b.sliceList = n :: rest) (p : Bool) :
    Base P e m free { b with sliceList := rest, pinnedList := b.pinnedList ++ [n], currentPinned := p } ∧
      ∀ a, a ∈ ({ b with sliceList := rest, pinnedList := b.pinnedList ++ [n], currentPinned := p } : LinkedBuffer).held ↔
        a ∈ b.held := by
  have hperm : ({ b with sliceList := rest, pinnedList := b.pinnedList ++ [n], currentPinned := p } :
      LinkedBuffer).nodes.Perm b.nodes := by
    simp only [nodes, hs, ← List.append_assoc]
    exact List.perm_append_singleton n _
  constructor
  · apply h.of_nodes (h.holds.perm hperm.symm) hperm.subperm rfl rfl
    intro x hx
    rw [hs]
    exact List.mem_cons_of_mem n hx
  · intro a
    exact (hperm.filterMap _).mem_iff

-- `recycle_buffer` leaves a slice that is not shared alone
theorem readNextSlice_cases (bm : BufferManager) (m : Mem) (hs : b.sliceList = n :: rest) :
    readNextSlice bm m b =
      (m, { b with sliceList := rest, pinnedList := b.pinnedList ++ [n], currentPinned := false }) ∨
    readNextSlice bm m b = (bm.recycleBuffer m n.slice, { b with sliceList := rest, currentPinned := false }) := by
  cases hshm : n.slice.isFromShm with
  | false =>
    right
    simp only [readNextSlice, hs, hshm, Bool.false_eq_true, if_false, BufferManager.recycleBuffer]
  | true =>
    cases hpin : b.currentPinned with
    | false =>
      right
      simp only [readNextSlice, hs, hshm, hpin, if_true, Bool.false_eq_true, if_false]
    | true =>
      left
      simp only [readNextSlice, hs, hshm, hpin, if_true]

theorem readNextSlice_drained (h : Base P e m free b) (hs : b.sliceList = n :: rest) (hsize : n.slice.size = 0)
    (hrest : 0 < sizeOf rest) :
    ∃ m' free' b', readNextSlice P.manager m b = (m', b') ∧ Drained P e m free b 0 m' free' b' ∧
      b'.sliceList = rest ∧ b'.len = b.len := by
  have hok := h.mem_slice (n := n) (by simp [hs])
  have hunread : unreadOf m b.sliceList = unreadOf m rest := by
    rw [hs, unreadOf_cons, unread_nil hok hsize, List.nil_append]
  have hback : ∀ c : LinkedBuffer, c.sliceList = rest → c.back = b.back := by
    intro c hc
    obtain ⟨x, rest', rfl⟩ := List.exists_cons_of_ne_nil (sizeOf_pos hrest)
    rw [LinkedBuffer.back, LinkedBuffer.back, hs, hc, List.getLast?_cons_cons]
  -- there is data behind the front, so the cursor is
  have hcursor : ∀ c : LinkedBuffer, c.sliceList = rest → c.write = b.write → HasCursor b → HasCursor c := by
    rintro c hc hw ⟨pre, x, behind, hx⟩
    have hsplit := hs.symm.trans hx.split
    cases pre with
    | nil =>
      obtain ⟨rfl, rfl⟩ := List.cons.inj hsplit
      rw [sizeOf_blank hx.blank] at hrest
      exact absurd hrest (lt_irrefl 0)
    | cons y pre =>
      obtain ⟨rfl, rfl⟩ := List.cons.inj hsplit
      exact ⟨pre, x, behind, hc, hw.trans hx.write, hx.blank⟩
  rcases readNextSlice_cases P.manager m hs with hnext | hnext
  · obtain ⟨hbase, hheld⟩ := h.pinFront hs false
    refine ⟨m, free, _, hnext, ⟨⟨hbase, ?_, ?_, rfl, hback _ rfl⟩, hcursor _ rfl rfl⟩, rfl, rfl⟩
    · exact (Exchange.refl _ _ _ _).congr hheld
    · rw [hunread, List.drop_zero]
  · obtain ⟨free', hbase, hex, -, hsame⟩ := h.popFront hs
    refine ⟨_, free', _, hnext, ⟨⟨hbase.congr rfl rfl rfl rfl, hex, ?_, rfl, hback _ rfl⟩, hcursor _ rfl rfl⟩, rfl, rfl⟩
    rw [hunread, List.drop_zero]
    exact hsame

theorem readLoop_cases {bm : BufferManager} {data : List UInt8} (h : readLoop bm (n :: ns) m b size = (m', b', data)) :
    (size = 0 ∧ m' = m ∧ b' = { b with sliceList := n :: ns }) ∨
    (0 < size ∧ size ≤ n.slice.size ∧ m' = m ∧
      b' = { b with sliceList := ⟨n.id, { n.slice with readIndex := n.slice.readIndex + size }⟩ :: ns }) ∨
    n.slice.size < size ∧ ∃ m₁ b₁ more, readNextSlice bm m { b with
        sliceList := ⟨n.id, { n.slice with readIndex := n.slice.readIndex + n.slice.size }⟩ :: ns } = (m₁, b₁) ∧
      readLoop bm ns m₁ b₁ (size - n.slice.size) = (m', b', more) := by
  rw [readLoop] at h
  by_cases hzero : size = 0
  · rw [if_pos hzero] at h
    cases h
    exact .inl ⟨hzero, rfl, rfl⟩
  rw [if_neg hzero] at h
  rcases Nat.lt_or_ge n.slice.size size with hlt | hle
  · have hmin : min size n.slice.size = n.slice.size := min_eq_right hlt.le
    simp only [BufferSlice.read, hmin, ne_eq, hlt.ne, not_false_eq_true, if_true] at h
    generalize hnext : readNextSlice bm m _ = r at h
    obtain ⟨m₁, b₁⟩ := r
    simp only at h
    generalize hloop : readLoop bm ns m₁ b₁ _ = r at h
    obtain ⟨m₂, b₂, more⟩ := r
    cases h
    exact .inr (.inr ⟨hlt, m₁, b₁, more, rfl, hloop⟩)
  · have hmin : min size n.slice.size = size := min_eq_left hle
    simp only [BufferSlice.read, hmin, ne_eq, not_true_eq_false, if_false] at h
    cases h
    exact .inr (.inl ⟨Nat.pos_of_ne_zero hzero, hle, rfl, rfl⟩)

theorem readLoop_drained (h : Base P e m free b) (hs : b.sliceList = ns) (hle : size ≤ sizeOf ns) :
    ∃ m' free' b', readLoop P.manager ns m b size = (m', b', (unreadOf m ns).take size) ∧
      Drained P e m free b size m' free' b' ∧ b'.len = b.len := by
  induction ns generalizing m free b size with
  | nil =>
    have hzero : size = 0 := by simpa [sizeOf] using hle
    subst hzero
    refine ⟨m, free, b, ?_, .refl h, rfl⟩
    rw [readLoop, ← hs]
    rfl
  | cons n rest ih =>
    rw [readLoop]
    by_cases hzero : size = 0
    · subst hzero
      refine ⟨m, free, b, ?_, .refl h, rfl⟩
      rw [if_pos rfl, List.take_zero, ← hs]
    rw [if_neg hzero]
    have hok := h.mem_slice (n := n) (by simp [hs])
    have hmin : min size n.slice.size ≤ n.slice.size := min_le_right _ _
    have hadv := h.advance hs hmin
    obtain ⟨hok', hsize', hdata, -⟩ := hok.consume (m := m) hmin
    have hlen := hok.unread_length m
    simp only [BufferSlice.read, hdata]
    by_cases hmore : min size n.slice.size ≠ size
    · have hall : min size n.slice.size = n.slice.size := by omega
      rw [if_pos hmore]
      rw [hall] at hadv hsize' ⊢
      rw [sizeOf_cons] at hle
      obtain ⟨m₁, free₁, b₁, hnext, hcons, hs₁, hlen₁⟩ := readNextSlice_drained hadv.base rfl
        (by rw [hsize', Nat.sub_self]) (by omega)
      obtain ⟨m', free', b', hloop, hcons', hlen'⟩ := ih hcons.base hs₁ (show size - n.slice.size ≤ sizeOf rest by omega)
      have hsame : unreadOf m₁ rest = unreadOf m rest := by
        have := hcons.unread
        rwa [hs₁, List.drop_zero, unreadOf_cons, unread_nil (hall ▸ hok') (by rw [hsize', Nat.sub_self]),
          List.nil_append] at this
      refine ⟨m', free', b', ?_, ?_, hlen'.trans hlen₁⟩
      · have hfst : (n.slice.unread m).take n.slice.size = n.slice.unread m := List.take_of_length_le hlen.le
        have hfst' : (n.slice.unread m).take size = n.slice.unread m := List.take_of_length_le (by omega)
        simp only [hnext, hloop, hsame, unreadOf_cons, List.take_append, hlen, hfst, hfst']
      · have htotal := (hadv.trans h hcons).trans h hcons'
        rwa [Nat.add_zero, Nat.add_sub_cancel' (by omega)] at htotal
    · rw [ne_eq, not_not] at hmore
      rw [if_neg (not_not.mpr hmore), hmore]
      rw [hmore] at hadv
      refine ⟨m, free, _, ?_, hadv, rfl⟩
      rw [unreadOf_cons, List.take_append_of_le_length (by omega)]

theorem skip_eq (s : BufferSlice) (size : ℕ) :
    s.skip size = (min size s.size, { s with readIndex := s.readIndex + min size s.size }) := by
  rw [BufferSlice.skip]
  split_ifs with hgt
  · rw [min_eq_left hgt.le]
  · rw [min_eq_right (not_lt.mp hgt)]

theorem discardLoop_cases {bm : BufferManager} {skipped : ℕ} (h : discardLoop bm (n :: ns) m b size = (m', b', skipped)) :
    (size ≤ n.slice.size ∧ m' = m ∧
      b' = { b with sliceList := ⟨n.id, { n.slice with readIndex := n.slice.readIndex + size }⟩ :: ns }) ∨
    n.slice.size < size ∧ ∃ m₁ b₁ more, readNextSlice bm m { b with
        sliceList := ⟨n.id, { n.slice with readIndex := n.slice.readIndex + n.slice.size }⟩ :: ns } = (m₁, b₁) ∧
      discardLoop bm ns m₁ b₁ (size - n.slice.size) = (m', b', more) := by
  rw [discardLoop] at h
  rcases Nat.lt_or_ge n.slice.size size with hlt | hle
  · have hmin : min size n.slice.size = n.slice.size := min_eq_right hlt.le
    have hmore : ¬ size - n.slice.size = 0 := by omega
    simp only [skip_eq, hmin, hmore, if_false] at h
    generalize hnext : readNextSlice bm m _ = r at h
    obtain ⟨m₁, b₁⟩ := r
    simp only at h
    generalize hloop : discardLoop bm ns m₁ b₁ _ = r at h
    obtain ⟨m₂, b₂, more⟩ := r
    cases h
    exact .inr ⟨hlt, m₁, b₁, more, rfl, hloop⟩
  · have hmin : min size n.slice.size = size := min_eq_left hle
    simp only [skip_eq, hmin, Nat.sub_self, if_true] at h
    cases h
    exact .inl ⟨hle, rfl, rfl⟩

theorem discardLoop_drained (h : Base P e m free b) (hs : b.sliceList = ns) (hle : size ≤ sizeOf ns) :
    ∃ m' free' b', discardLoop P.manager ns m b size = (m', b', size) ∧
      Drained P e m free b size m' free' b' ∧ b'.len = b.len := by
  induction ns generalizing m free b size with
  | nil =>
    have hzero : size = 0 := by simpa [sizeOf] using hle
    subst hzero
    refine ⟨m, free, b, ?_, .refl h, rfl⟩
    rw [discardLoop, ← hs]
  | cons n rest ih =>
    have hok := h.mem_slice (n := n) (by simp [hs])
    have hmin : min size n.slice.size ≤ n.slice.size := min_le_right _ _
    have hadv := h.advance hs hmin
    obtain ⟨-, hsize', -⟩ := hok.consume (m := m) hmin
    rw [discardLoop]
    simp only [skip_eq]
    by_cases hlast : size - min size n.slice.size = 0
    · have hall : min size n.slice.size = size := by omega
      rw [if_pos hlast, hall]
      rw [hall] at hadv
      exact ⟨m, free, _, rfl, hadv, rfl⟩
    · have hall : min size n.slice.size = n.slice.size := by omega
      rw [if_neg hlast]
      rw [hall] at hadv hsize' ⊢
      rw [sizeOf_cons] at hle
      obtain ⟨m₁, free₁, b₁, hnext, hcons, hs₁, hlen₁⟩ := readNextSlice_drained hadv.base rfl
        (by rw [hsize', Nat.sub_self]) (by omega)
      obtain ⟨m', free', b', hloop, hcons', hlen'⟩ := ih hcons.base hs₁ (show size - n.slice.size ≤ sizeOf rest by omega)
      refine ⟨m', free', b', ?_, ?_, hlen'.trans hlen₁⟩
      · simp only [hnext, hloop]
        rw [Nat.add_sub_cancel' (by omega)]
      · have htotal := (hadv.trans h hcons).trans h hcons'
        rwa [Nat.add_zero, Nat.add_sub_cancel' (by omega)] at htotal

theorem peekLoop_eq (hok : ∀ x ∈ ns, SliceOk P x.slice) (size : ℕ) : peekLoop m ns size = (unreadOf m ns).take size := by
  induction ns generalizing size with
  | nil => rw [peekLoop, unreadOf, List.flatMap_nil, List.take_nil]
  | cons n rest ih =>
    have hn := hok n List.mem_cons_self
    obtain ⟨-, -, hdata, -⟩ := hn.consume (m := m) (min_le_right size n.slice.size)
    rw [peekLoop]
    by_cases hzero : size = 0
    · rw [if_pos hzero, hzero, List.take_zero]
    · have hcut : (n.slice.unread m).take (min size n.slice.size) = (n.slice.unread m).take size := by
        rw [← hn.unread_length m, ← List.take_eq_take_min]
      rw [if_neg hzero, unreadOf_cons, List.take_append, hn.unread_length]
      simp only [BufferSlice.peek, hdata, ih (fun x hx => hok x (List.mem_cons_of_mem n hx)), hcut]
      congr 2
      omega

theorem Valid.unread_length (h : Valid P e m free b) : (unreadOf m b.sliceList).length = b.len := by
  rw [unreadOf_length (fun x hx => h.mem_slice hx), h.len]

theorem skipEmptyFront_drained (h : Base P e m free b) (hlen : b.len = sizeOf b.sliceList) (hpos : 0 < b.len) :
    ∃ m' free' b', skipEmptyFront P.manager m b = (m', b') ∧ Drained P e m free b 0 m' free' b' ∧ b'.len = b.len := by
  rw [skipEmptyFront]
  cases hs : b.sliceList with
  | nil => exact ⟨m, free, b, rfl, .refl h, rfl⟩
  | cons n rest =>
    by_cases hsize : n.slice.size = 0
    · simp only [if_pos hsize]
      rw [hs, sizeOf_cons, hsize] at hlen
      obtain ⟨m', free', b', hnext, hcons, -, hlen'⟩ := readNextSlice_drained h hs hsize (by omega)
      exact ⟨m', free', b', hnext, hcons, hlen'⟩
    · simp only [if_neg hsize]
      exact ⟨m, free, b, rfl, .refl h, rfl⟩

theorem readFront_drained (h : Base P e m free b) (hlen : b.len = sizeOf b.sliceList) (hpos : 0 < size) (hle : size ≤ b.len) :
    ∃ m' free' b' buf, readFront P.manager m b size = (m', b', .ok buf) ∧ Drained P e m free b size m' free' b' ∧
      b'.len = b.len - size ∧ buf.load m' = (unreadOf m b.sliceList).take size := by
  cases hs : b.sliceList with
  | nil =>
    rw [hs] at hlen
    simp only [sizeOf, List.map_nil, List.sum_nil] at hlen
    omega
  | cons n rest =>
    have hok := h.mem_slice (n := n) (by simp [hs])
    rw [readFront, hs]
    by_cases hfit : n.slice.size ≥ size
    · have hmin : min size n.slice.size = size := min_eq_left hfit
      obtain ⟨-, -, hdata, -⟩ := hok.consume (m := m) hfit
      have hadv := h.advance hs hfit
      simp only [if_pos hfit, BufferSlice.read, hmin]
      refine ⟨m, free, _, _, rfl, hadv.congr rfl rfl rfl rfl rfl, rfl, ?_⟩
      rw [Buf.load, hdata, unreadOf_cons, List.take_append_of_le_length]
      rwa [hok.unread_length]
    · have hbase : Base P e m free { b with len := b.len - size } := h.congr rfl rfl rfl rfl
      obtain ⟨m', free', b', hloop, hcons, hlen'⟩ := readLoop_drained hbase hs
        (show size ≤ sizeOf (n :: rest) by rw [← hs, ← hlen]; exact hle)
      rw [hs] at hloop
      simp only [if_neg hfit, hloop]
      exact ⟨m', free', b', _, rfl,
        ⟨⟨hcons.base, hcons.exchange, hcons.unread, hcons.write, hcons.back⟩, fun hc => hcons.cursor (hc.congr rfl rfl)⟩,
        hlen', rfl⟩

theorem readBytes_drained (h : Base P e m free b) (hlen : b.len = sizeOf b.sliceList) (hpos : 0 < size) (hle : size ≤ b.len) :
    ∃ m' free' b' buf, readBytes P.manager m b size = (m', b', .ok buf) ∧ Drained P e m free b size m' free' b' ∧
      b'.len = b.len - size ∧ buf.load m' = (unreadOf m b.sliceList).take size := by
  obtain ⟨m₁, free₁, b₁, hskip, hcons, hlen₁⟩ := skipEmptyFront_drained h hlen (by omega)
  obtain ⟨m', free', b', buf, hread, hcons', hlen', hbuf⟩ :=
    readFront_drained hcons.base (hcons.counts h hlen hlen₁) hpos (hlen₁ ▸ hle)
  have htotal := hcons.trans h hcons'
  rw [Nat.zero_add] at htotal
  refine ⟨m', free', b', buf, ?_, htotal, hlen₁ ▸ hlen', ?_⟩
  · rw [readBytes, if_neg (by omega), if_neg (by omega), hskip]
    exact hread
  · rw [hbuf, hcons.unread, List.drop_zero]

theorem discard_drained (h : Base P e m free b) (hlen : b.len = sizeOf b.sliceList) (hle : size ≤ b.len) :
    ∃ m' free' b', discard P.manager m b size = (m', b', .ok size) ∧ Drained P e m free b size m' free' b' ∧
      b'.len = b.len - size := by
  obtain ⟨m', free', b', hloop, hcons, hlen'⟩ := discardLoop_drained h rfl (hlen ▸ hle)
  refine ⟨m', free', { b' with len := b'.len - size }, ?_, hcons.congr rfl rfl rfl rfl rfl, ?_⟩
  · rw [discard, if_neg (by omega), hloop]
  · simp only [hlen']

def Takes (P : Pool) (e : Bool) (m : Mem) (free : ℕ → Prop) (b : LinkedBuffer) (size : ℕ) (m' : Mem) (b' : LinkedBuffer) :
    Prop :=
  ∃ free', Consumed P e m free b size m' free' b' ∧ Valid P e m' free' b'

theorem readBytes_takes (h : Valid P e m free b) (hpos : 0 < size) (hle : size ≤ b.len) :
    ∃ m' b' buf, readBytes P.manager m b size = (m', b', .ok buf) ∧ Takes P e m free b size m' b' ∧
      buf.load m' = (unreadOf m b.sliceList).take size := by
  obtain ⟨m', free', b', buf, hread, hcons, hlen, hbuf⟩ := readBytes_drained h.toBase h.len hpos hle
  exact ⟨m', b', buf, hread, ⟨free', hcons.toConsumed, hcons.valid h hlen⟩, hbuf⟩

theorem discard_takes (h : Valid P e m free b) (hle : size ≤ b.len) :
    ∃ m' b', discard P.manager m b size = (m', b', .ok size) ∧ Takes P e m free b size m' b' := by
  obtain ⟨m', free', b', hdisc, hcons, hlen⟩ := discard_drained h.toBase h.len hle
  exact ⟨m', b', hdisc, free', hcons.toConsumed, hcons.valid h hlen⟩

theorem peek_eq (h : Valid P e m free b) (hpos : 0 < size) (hle : size ≤ b.len) :
    ∃ pinned buf, peek m b size = ({ b with currentPinned := pinned }, .ok buf) ∧
      buf.load m = (unreadOf m b.sliceList).take size := by
  have hlen := h.len
  rw [peek, if_neg (by omega), if_neg (by omega)]
  cases hs : b.sliceList with
  | nil =>
    rw [hs] at hlen
    simp only [sizeOf, List.map_nil, List.sum_nil] at hlen
    omega
  | cons n rest =>
    have hok := h.mem_slice (n := n) (by simp [hs])
    by_cases hfit : min size n.slice.size = size
    · obtain ⟨-, -, hdata, -⟩ := hok.consume (m := m) (show size ≤ n.slice.size by omega)
      refine ⟨true, .shm n.id n.slice.data n.slice.readIndex size, ?_, ?_⟩
      · simp only [BufferSlice.peek, hfit, if_true]
      · rw [Buf.load, hdata, unreadOf_cons, List.take_append_of_le_length]
        rw [hok.unread_length]
        omega
    · refine ⟨b.currentPinned, .exm (peekLoop m (n :: rest) size), ?_, ?_⟩
      · simp only [BufferSlice.peek, hfit, if_false, ← hs]
      · rw [Buf.load, peekLoop_eq (P := P)]
        intro x hx
        exact h.mem_slice (hs ▸ hx)

theorem calls_fail (m : Mem) (hlt : b.len < size) (bm : BufferManager) :
    readBytes bm m b size = (m, b, .error (.ofKind .notEnoughData)) ∧
    peek m b size = (b, .error (.ofKind .notEnoughData)) ∧
    discard bm m b size = (m, b, .error (.ofKind .notEnoughData)) := by
  have hpos : size ≠ 0 := by omega
  refine ⟨?_, ?_, ?_⟩
  · rw [readBytes, if_neg hpos, if_pos hlt]
  · rw [peek, if_neg hpos, if_pos hlt]
  · rw [discard, if_pos hlt]

end LinkedBuffer

end Shmipc
