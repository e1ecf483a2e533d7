import Shmipc.LinkedBufferRead

namespace Shmipc

open ByteMemory

variable {P : Pool} {e : Bool} {m m' : Mem} {free free' : ℕ → Prop}

theorem Holds.recycleNodes {pre gone : List Node} (h : Holds P e m free (pre ++ gone)) :
    ∃ free', Holds P e (LinkedBuffer.recycleNodes P.manager m gone) free' pre ∧
      Exchange P m free (heldBy (pre ++ gone)) (LinkedBuffer.recycleNodes P.manager m gone) free' (heldBy pre) ∧
      Untouched P m (LinkedBuffer.recycleNodes P.manager m gone) (heldBy pre) := by
  induction gone generalizing m free with
  | nil =>
    rw [List.append_nil] at h ⊢
    exact ⟨free, h, .refl _ _ _ _, fun _ _ _ _ => SameOn.refl _ _ _⟩
  | cons n gone ih =>
    obtain ⟨free₁, h₁, hex, hsame⟩ := h.recycle
    obtain ⟨free', h', hex', hsame'⟩ := ih h₁
    refine ⟨free', h', hex.trans ?_ hex', (hsame.mono ?_).trans hsame'⟩
    · intro a ha
      obtain ⟨x, hx, hxa⟩ := List.mem_filterMap.mp ha
      exact ⟨_, ((h.ok x hx).refers hxa).1.slot⟩
    · intro a ha
      rw [heldBy_append]
      exact List.mem_append_left _ ha

namespace LinkedBuffer

variable {b b' : LinkedBuffer} {n : Node} {rest : List Node} {s : BufferSlice}

structure Keeps (P : Pool) (e : Bool) (m : Mem) (free : ℕ → Prop) (b : LinkedBuffer) (m' : Mem) (free' : ℕ → Prop)
    (b' : LinkedBuffer) : Prop where
  valid : Valid P e m' free' b'
  frame : SlotFrame P m free b.held m' free' b'.held
  unread : unreadOf m' b'.sliceList = unreadOf m b.sliceList

theorem Keeps.trans {m'' : Mem} {free'' : ℕ → Prop} {b'' : LinkedBuffer} (h : Keeps P e m free b m' free' b')
    (h' : Keeps P e m' free' b' m'' free'' b'') : Keeps P e m free b m'' free'' b'' :=
  ⟨h'.valid, h.frame.trans h'.frame, h'.unread.trans h.unread⟩

structure Retains (P : Pool) (e : Bool) (m : Mem) (free : ℕ → Prop) (b : LinkedBuffer) (m' : Mem) (free' : ℕ → Prop)
    (b' : LinkedBuffer) : Prop where
  base : Base P e m' free' b'
  frame : SlotFrame P m free b.held m' free' b'.held
  unread : unreadOf m' b'.sliceList = unreadOf m b.sliceList
  len : b'.len = b.len

namespace Retains

theorem refl (h : Base P e m free b) : Retains P e m free b m free b :=
  ⟨h, (Exchange.refl _ _ _ _).frame, rfl, rfl⟩

theorem trans {m'' : Mem} {free'' : ℕ → Prop} {b'' : LinkedBuffer} (h : Retains P e m free b m' free' b')
    (h' : Retains P e m' free' b' m'' free'' b'') : Retains P e m free b m'' free'' b'' :=
  ⟨h'.base, h.frame.trans h'.frame, h'.unread.trans h.unread, h'.len.trans h.len⟩

theorem counts (h : Retains P e m free b m' free' b') (hb : Base P e m free b) (hlen : b.len = sizeOf b.sliceList) :
    b'.len = sizeOf b'.sliceList := by
  rw [h.len, hlen, ← unreadOf_length (m := m) (fun x hx => hb.mem_slice hx), ← h.unread,
    unreadOf_length (fun x hx => h.base.mem_slice hx)]

theorem keeps (h : Retains P e m free b m' free' b') (hv : Valid P e m free b) (hcursor : b'.write = b'.back) :
    Keeps P e m free b m' free' b' :=
  ⟨⟨h.base, hcursor, h.counts hv.toBase hv.len⟩, h.frame, h.unread⟩

end Retains

theorem cleanPinnedList_retains (h : Base P e m free b) :
    ∃ m' free' b', cleanPinnedList P.manager m b = (m', b') ∧ Retains P e m free b m' free' b' ∧
      Exchange P m free b.held m' free' b'.held ∧ b'.sliceList = b.sliceList ∧ b'.write = b.write := by
  rw [cleanPinnedList]
  by_cases hp : b.pinnedList = []
  · rw [if_pos hp]
    exact ⟨m, free, b, rfl, .refl h, .refl _ _ _ _, rfl, rfl⟩
  rw [if_neg hp]
  have hholds : Holds P e m free (b.sliceList ++ b.pinnedList) := h.holds
  obtain ⟨free', h', hex, hsame⟩ := hholds.recycleNodes
  have hnodes : ({ b with pinnedList := [], currentPinned := false } : LinkedBuffer).nodes = b.sliceList := by
    simp only [nodes, List.append_nil]
  refine ⟨_, free', { b with pinnedList := [], currentPinned := false }, rfl, ⟨?_, ?_, ?_, rfl⟩, ?_, rfl, rfl⟩
  · refine h.of_nodes ?_ ?_ rfl rfl fun x hx => hx
    · rw [hnodes]
      exact h'
    · rw [hnodes]
      exact (List.sublist_append_left _ _).subperm
  · rw [held, held, hnodes]
    exact hex.frame
  · exact unreadOf_congr (fun x hx => h.mem_slice hx) hsame
  · rw [held, held, hnodes]
    exact hex

theorem cleanPinnedList_keeps (h : Valid P e m free b) :
    ∃ m' free' b', cleanPinnedList P.manager m b = (m', b') ∧ Keeps P e m free b m' free' b' ∧
      Exchange P m free b.held m' free' b'.held ∧ b'.sliceList = b.sliceList := by
  obtain ⟨m', free', b', hclean, hret, hex, hs, hw⟩ := cleanPinnedList_retains h.toBase
  refine ⟨m', free', b', hclean, hret.keeps h ?_, hex, hs⟩
  rw [hw, h.cursor, back, back, hs]

theorem releaseFront_retains (h : Base P e m free b) :
    ∃ m' free' b', releaseFront P.manager m b = (m', b') ∧ Retains P e m free b m' free' b' ∧
      Exchange P m free b.held m' free' b'.held ∧
      (b' = b ∨ ∃ n rest, b.sliceList = n :: rest ∧ b.write = some n.id ∧ b'.sliceList = rest ∧ b'.write = none) := by
  rw [releaseFront]
  cases hs : b.sliceList with
  | nil => exact ⟨m, free, b, rfl, .refl h, .refl _ _ _ _, .inl rfl⟩
  | cons n rest =>
    by_cases hfront : n.slice.size = 0 ∧ b.write = some n.id
    · obtain ⟨free', hbase, hex, -, hsame⟩ := h.popFront hs
      have hok := h.mem_slice (n := n) (by simp [hs])
      simp only [if_pos hfront]
      refine ⟨_, free', { b with sliceList := rest, write := none }, rfl, ⟨hbase.congr rfl rfl rfl rfl, hex.frame, ?_, rfl⟩,
        hex, .inr ⟨n, rest, rfl, hfront.2, rfl, rfl⟩⟩
      rw [hs, unreadOf_cons, unread_nil hok hfront.1]
      exact hsame
    · simp only [if_neg hfront]
      exact ⟨m, free, b, rfl, .refl h, .refl _ _ _ _, .inl rfl⟩

theorem releaseFront_keeps (h : Valid P e m free b) :
    ∃ m' free' b', releaseFront P.manager m b = (m', b') ∧ Keeps P e m free b m' free' b' ∧
      Exchange P m free b.held m' free' b'.held := by
  obtain ⟨m', free', b', hrel, hret, hex, hcase⟩ := releaseFront_retains h.toBase
  refine ⟨m', free', b', hrel, hret.keeps h ?_, hex⟩
  rcases hcase with rfl | ⟨n, rest, hs, hw, hs', hw'⟩
  · exact h.cursor
  · -- the cursor is at the last slice, so the front is the only one
    rcases List.eq_nil_or_concat' rest with rfl | ⟨init, x, rfl⟩
    · rw [hw', back, hs']
      rfl
    · have hids := (split_ids (b := b) (show b.sliceList = [] ++ n :: (init ++ [x]) from hs) h.toBase).2 x (by simp)
      have hcur := h.cursor
      rw [hw, back, hs, ← List.cons_append, List.getLast?_concat, Option.map_some, Option.some.injEq] at hcur
      exact absurd hcur.symm hids

theorem releasePreviousRead_keeps (h : Valid P e m free b) :
    ∃ m' free' b', releasePreviousRead P.manager m b = (m', b') ∧ Keeps P e m free b m' free' b' ∧
      Exchange P m free b.held m' free' b'.held := by
  obtain ⟨m₁, free₁, b₁, hclean, hkeep, hex, -⟩ := cleanPinnedList_keeps h
  obtain ⟨m', free', b', hrel, hkeep', hex'⟩ := releaseFront_keeps hkeep.valid
  refine ⟨m', free', b', ?_, hkeep.trans hkeep', hex.trans h.slots hex'⟩
  rw [releasePreviousRead, hclean]
  exact hrel

-- the memory was written in the slots of one node only
theorem Base.frame {pre behind : List Node} (h : Base P e m free b) (hsplit : b.sliceList = pre ++ n :: behind)
    (hw : n.slice.WritesSlot m m') : SlotFrame P m free b.held m' free b.held where
  foreign _ hf _ := hf
  kept d a hd _ ha := (h.mem_slice (by simp [hsplit])).frame hw hd fun hh => ha (Base.header_mem hsplit hh)
  origin _ ha := .inl ha

theorem reserveFront_retains (h : Base P e m free b) (hcount : b.len = sizeOf b.sliceList) :
    ∃ m' b', reserveFront m b = (m', b') ∧ Retains P e m free b m' free b' ∧
      (b' = b ∨ (b'.sliceList = [] ∧ b'.write = none) ∨
        ∃ n, b.sliceList = [n] ∧ b'.sliceList = [⟨n.id, (n.slice.reset m).2⟩] ∧ b'.write = b.write) := by
  rw [reserveFront]
  split
  · next n hs =>
    by_cases hlen : b.len = 0
    · have hok := h.mem_slice (n := n) (by simp [hs])
      have hunread : unreadOf m b.sliceList = [] := by
        rw [← List.length_eq_zero_iff, unreadOf_length (fun x hx => h.mem_slice hx), ← hcount, hlen]
      rw [if_pos hlen]
      have hsplit : b.sliceList = [] ++ n :: [] := hs
      cases hshm : n.slice.isFromShm with
      | true =>
        rw [if_pos rfl]
        obtain ⟨hok', hsize, hw, -⟩ := hok.reset (m := m)
        obtain ⟨hbase, hheld⟩ := h.replace hsplit hw hok' rfl rfl
        refine ⟨_, _, rfl, ⟨hbase, ?_, ?_, rfl⟩, .inr (.inr ⟨n, hs, rfl, rfl⟩)⟩
        · exact hheld ▸ h.frame hsplit hw
        · rw [hunread, unreadOf_cons]
          change (n.slice.reset m).2.unread (n.slice.reset m).1 ++ [] = []
          rw [List.append_nil, ← List.length_eq_zero_iff, hok'.unread_length, hsize]
      | false =>
        rw [if_neg Bool.false_ne_true]
        have hnone : n.slice.bufferHeader = none := by
          rcases hok.backed with ⟨a, ha, -⟩ | ⟨hnone, -⟩
          · rw [ha.shm] at hshm
            cases hshm
          · exact hnone
        have hheld : heldBy b.nodes = heldBy ({ b with sliceList := [], write := none } : LinkedBuffer).nodes := by
          simp [nodes, hs, heldBy_cons, hnone]
        refine ⟨_, _, rfl, ⟨?_, ?_, ?_, rfl⟩, .inr (.inl ⟨rfl, rfl⟩)⟩
        · refine h.of_nodes (h.holds.sub ?_) ?_ rfl rfl (by simp)
          · simp [nodes, hs]
          · simp only [nodes, hs, List.nil_append]
            exact (List.sublist_cons_self n _).subperm
        · rw [held, held, ← hheld]
          exact (Exchange.refl _ _ _ _).frame
        · rw [hunread]
          rfl
    · rw [if_neg hlen]
      exact ⟨m, b, rfl, .refl h, .inl rfl⟩
  · exact ⟨m, b, rfl, .refl h, .inl rfl⟩

theorem reserveFront_keeps (h : Valid P e m free b) :
    ∃ m' b', reserveFront m b = (m', b') ∧ Keeps P e m free b m' free b' := by
  obtain ⟨m', b', hres, hret, hcase⟩ := reserveFront_retains h.toBase h.len
  refine ⟨m', b', hres, hret.keeps h ?_⟩
  rcases hcase with rfl | ⟨hs, hw⟩ | ⟨n, hs, hs', hw⟩
  · exact h.cursor
  · rw [hw, back, hs]
    rfl
  · rw [hw, h.cursor, back, back, hs, hs']
    rfl

theorem releasePreviousReadAndReserve_keeps (h : Valid P e m free b) :
    ∃ m' free' b', releasePreviousReadAndReserve P.manager m b = (m', b') ∧ Keeps P e m free b m' free' b' := by
  obtain ⟨m₁, free₁, b₁, hclean, hkeep, -, -⟩ := cleanPinnedList_keeps h
  obtain ⟨m', b', hres, hkeep'⟩ := reserveFront_keeps hkeep.valid
  refine ⟨m', free₁, b', ?_, hkeep.trans hkeep'⟩
  rw [releasePreviousReadAndReserve, hclean]
  exact hres

structure Updates (P : Pool) (e : Bool) (m : Mem) (free : ℕ → Prop) (b : LinkedBuffer) (m' : Mem) : Prop where
  base : Base P e m' free b
  exchange : Exchange P m free b.held m' free b.held
  unread : unreadOf m' b.sliceList = unreadOf m b.sliceList

theorem Updates.refl (h : Base P e m free b) : Updates P e m free b m := ⟨h, .refl _ _ _ _, rfl⟩

theorem Updates.trans {m'' : Mem} (hb : Base P e m free b) (h : Updates P e m free b m')
    (h' : Updates P e m' free b m'') : Updates P e m free b m'' :=
  ⟨h'.base, h.exchange.trans hb.slots h'.exchange, h'.unread.trans h.unread⟩

theorem Base.update {pre behind : List Node} (h : Base P e m free b) (hsplit : b.sliceList = pre ++ n :: behind)
    (next : Option ℕ) : Updates P e m free b (n.slice.update m next) := by
  have hok := h.mem_slice (n := n) (by simp [hsplit])
  obtain ⟨hw, hunread, hu⟩ := hok.update (m := m) next
  obtain ⟨hbase, -⟩ := h.replace hsplit hw hok rfl rfl
  have hnodes : b.nodes = pre ++ n :: (behind ++ b.pinnedList) := by simp [nodes, hsplit]
  refine ⟨hbase.congr hsplit rfl rfl rfl, h.exchange hsplit hw hu, ?_⟩
  apply List.flatMap_congr
  intro x hx
  rw [hsplit] at hx
  simp only [List.mem_append, List.mem_cons] at hx
  rcases hx with hx | rfl | hx
  · exact (hnodes ▸ h.holds).unread_others hw (by simp [hx])
  · exact hunread
  · exact (hnodes ▸ h.holds).unread_others hw (by simp [hx])

theorem updateLoop_updates {pre ns : List Node} (write : Option ℕ) (h : Base P e m free b)
    (hsplit : b.sliceList = pre ++ ns) : Updates P e m free b (updateLoop write ns m) := by
  induction ns generalizing m pre with
  | nil => exact .refl h
  | cons n rest ih =>
    have hup := h.update hsplit (rest.head?.map fun x => x.slice.offsetInShm)
    rw [updateLoop]
    split_ifs
    · exact hup
    · have hsplit' : b.sliceList = (pre ++ [n]) ++ rest := by rw [hsplit, List.append_assoc, List.singleton_append]
      exact hup.trans h (ih hup.base hsplit')

theorem done_shared (h : Valid P e m free b) (hshm : b.isFromShm = true) :
    done P.manager m b = some (updateLoop b.write b.sliceList m, b) := by
  have hcur := h.cursor
  rw [done, if_pos hshm]
  rcases List.eq_nil_or_concat' b.sliceList with hnil | ⟨pre, n, hsplit⟩
  · rw [back, hnil, List.getLast?_nil, Option.map_none] at hcur
    simp only [hcur]
  · rw [back, hsplit, List.getLast?_concat, Option.map_some] at hcur
    simp only [hcur, dropUnused, nodeAt_split hsplit h.toBase, nextOf_split hsplit h.toBase,
      takeWhile_split hsplit h.toBase, Option.map_some, recycleNodes, List.foldl_nil]
    rw [← hsplit, ← hcur]

theorem done_updates (h : Valid P e m free b) : ∃ m', done P.manager m b = some (m', b) ∧ Updates P e m free b m' := by
  cases hshm : b.isFromShm with
  | false =>
    refine ⟨m, ?_, .refl h.toBase⟩
    rw [done, hshm]
    rfl
  | true => exact ⟨_, done_shared h hshm, updateLoop_updates b.write h.toBase (List.nil_append _).symm⟩

theorem Updates.keeps (hv : Valid P e m free b) (h : Updates P e m free b m') : Keeps P e m free b m' free b :=
  ⟨⟨h.base, hv.cursor, hv.len⟩, h.exchange.frame, h.unread⟩

theorem appendBufferSlice_eq (b : LinkedBuffer) (s : BufferSlice) : b.appendBufferSlice s =
    { b.grow [⟨b.nextId, s⟩] s.isFromShm with write := some b.nextId, len := b.len + s.size } := by
  rw [appendBufferSlice]
  cases hs : s.isFromShm with
  | true => simp [pushBack, grow, back]
  | false => simp [pushBack, grow, back]

theorem appendBufferSlice_base (h : Base P e m free b) (hok : SliceOk P s)
    (hnew : ∀ a, s.bufferHeader = some a → ¬ free a ∧ a ∉ b.held) :
    Base P e m free (b.appendBufferSlice s) ∧
      unreadOf m (b.appendBufferSlice s).sliceList = unreadOf m b.sliceList ++ s.unread m ∧
      (b.appendBufferSlice s).held.Perm (b.held ++ s.bufferHeader.toList) := by
  have hone : heldBy [⟨b.nextId, s⟩] = s.bufferHeader.toList := by rw [heldBy_cons]; exact List.append_nil _
  have hholds : Holds P e m free (b.nodes ++ numbered b.nextId [s]) := by
    refine ⟨h.holds.pool, ?_, ?_, ?_⟩
    · intro x hx
      rcases List.mem_append.mp hx with hx | hx
      · exact h.holds.ok x hx
      · rw [List.mem_singleton.mp hx]
        exact hok
    · intro a ha
      rw [heldBy_append] at ha
      rcases List.mem_append.mp ha with ha | ha
      · exact h.holds.owned a ha
      · exact (hnew a (by simpa [hone, numbered] using ha)).1
    · rw [heldBy_append, numbered, numbered, hone]
      refine h.holds.distinct.append (by cases s.bufferHeader <;> simp) ?_
      intro a ha ha'
      exact (hnew a (by simpa using ha')).2 ha
  have hgrow : Base P e m free (b.grow [⟨b.nextId, s⟩] s.isFromShm) := by
    apply h.grow hholds
    intro hs x hx
    rwa [List.mem_singleton.mp hx]
  rw [appendBufferSlice_eq]
  refine ⟨hgrow.congr rfl rfl rfl rfl, ?_, ?_⟩
  · simp [grow, unreadOf]
  · rw [← hone]
    exact held_grow b _ s.isFromShm

theorem appendBufferSlice_len (hlen : b.len = sizeOf b.sliceList) :
    (b.appendBufferSlice s).len = sizeOf (b.appendBufferSlice s).sliceList := by
  rw [appendBufferSlice_eq]
  simp [grow, hlen, sizeOf]

theorem appendBufferSlice_valid (h : Valid P e m free b) (hok : SliceOk P s)
    (hnew : ∀ a, s.bufferHeader = some a → ¬ free a ∧ a ∉ b.held) :
    Valid P e m free (b.appendBufferSlice s) ∧
      unreadOf m (b.appendBufferSlice s).sliceList = unreadOf m b.sliceList ++ s.unread m ∧
      (b.appendBufferSlice s).held.Perm (b.held ++ s.bufferHeader.toList) := by
  obtain ⟨hbase, hunread, hheld⟩ := appendBufferSlice_base h.toBase hok hnew
  refine ⟨⟨hbase, ?_, appendBufferSlice_len h.len⟩, hunread, hheld⟩
  rw [appendBufferSlice_eq]
  simp [grow, back]

theorem recycle_spec (h : Base P e m free b) :
    ∃ m' free', recycle P.manager m b = (m', b.cleared) ∧ Valid P e m' free' b.cleared ∧
      Exchange P m free b.held m' free' (heldBy b.pinnedList) := by
  have hperm : b.nodes.Perm (b.pinnedList ++ b.sliceList) := List.perm_append_comm
  obtain ⟨free', h', hex, -⟩ := (h.holds.perm hperm).recycleNodes
  refine ⟨_, free', rfl, ⟨⟨h', ?_, ?_, by simp [cleared]⟩, rfl, rfl⟩, ?_⟩
  · exact ((List.sublist_append_right _ _).map _).nodup h.ids
  · intro x hx
    exact h.below x (List.mem_append_right _ hx)
  · exact hex.congr_left fun a => (hperm.filterMap _).mem_iff

end LinkedBuffer

end Shmipc
