import Shmipc.LinkedBufferOpen
import Shmipc.ByteFifo

namespace Shmipc

open ByteMemory

namespace LinkedBuffer

structure Open (P : Pool) (e : Bool) (m : Mem) (free : ℕ → Prop) (b : LinkedBuffer) : Prop extends Base P e m free b where
  len : b.len = sizeOf b.sliceList
  ready : Ready b

variable {P : Pool} {e : Bool} {m m' : Mem} {free free' : ℕ → Prop} {b b' c : LinkedBuffer} {n : Node}
  {pre behind : List Node} {bytes : List UInt8} {size : ℕ} {s : BufferSlice}

theorem Ready.congr (h : Ready b) (hs : c.sliceList = b.sliceList) (hw : c.write = b.write) : Ready c := by
  rcases h with ⟨hnone, hblank⟩ | hcursor
  · exact .inl ⟨hw.trans hnone, hs ▸ hblank⟩
  · exact .inr (hcursor.congr hs hw)

theorem ready_nil (hs : b.sliceList = []) (hw : b.write = none) : Ready b := by
  refine .inl ⟨hw, ?_⟩
  rw [hs]
  exact nofun

theorem ready_front (hw : b.write = b.front) (hblank : ∀ x ∈ b.sliceList, Blank x.slice) : Ready b := by
  cases hs : b.sliceList with
  | nil =>
    apply ready_nil hs
    rw [hw, front, hs]
    rfl
  | cons x rest =>
    rw [hs] at hblank
    refine .inr ⟨[], x, rest, hs, ?_, fun y hy => hblank y (List.mem_cons_of_mem x hy)⟩
    rw [hw, front, hs]
    rfl

namespace Open

theorem others (h : Open P e m free b) (hf : P.Free e m' free') (hown : ∀ a ∈ b.held, ¬ free' a) : Open P e m' free' b :=
  ⟨h.toBase.others hf hown, h.len, h.ready⟩

theorem of_wrote (h : Open P e m free b) (hw : Wrote P e m free b bytes m' free' b') (hlen : b'.len = b.len + bytes.length)
    (hready : Ready b') : Open P e m' free' b' := by
  refine ⟨hw.base, ?_, hready⟩
  have hsize := congrArg List.length hw.unread
  rw [List.length_append, unreadOf_length (fun x hx => hw.base.mem_slice hx), unreadOf_length (fun x hx => h.mem_slice hx),
    ← h.len] at hsize
  rw [hlen, hsize]

theorem of_retains (h : Open P e m free b) (hr : Retains P e m free b m' free' b') (hready : Ready b') :
    Open P e m' free' b' :=
  ⟨hr.base, hr.counts h.toBase h.len, hready⟩

theorem of_drained (h : Open P e m free b) (hd : Drained P e m free b size m' free' b') (hlen : b'.len = b.len - size)
    (hcursor : HasCursor b) : Open P e m' free' b' :=
  ⟨hd.base, hd.counts h.toBase h.len hlen, .inr (hd.cursor hcursor)⟩

theorem of_valid (h : Valid P e m free b) : Open P e m free b := by
  refine ⟨h.toBase, h.len, ?_⟩
  rcases List.eq_nil_or_concat' b.sliceList with hnil | ⟨pre, n, hsplit⟩
  · apply ready_nil hnil
    rw [h.cursor, back, hnil]
    rfl
  · refine .inr ⟨pre, n, [], hsplit, ?_, List.forall_mem_nil _⟩
    rw [h.cursor, back, hsplit, List.getLast?_concat, Option.map_some]

theorem cursor_of_len (h : Open P e m free b) (hpos : 0 < b.len) : HasCursor b := by
  rcases h.ready with ⟨-, hblank⟩ | hcursor
  · rw [h.len, sizeOf_blank hblank] at hpos
    exact absurd hpos (lt_irrefl 0)
  · exact hcursor

theorem alloc (h : Open P e m free b) (hsize : size < 4294967296) (hcall : alloc P.manager m b size = (m', b')) :
    ∃ free', Open P e m' free' b' ∧ Exchange P m free b.held m' free' b'.held := by
  obtain ⟨m₁, free₁, new, shm, halloc, hwrote, hblank, -⟩ := alloc_wrote h.toBase hsize
  cases halloc.symm.trans hcall
  exact ⟨free₁, h.of_wrote hwrote rfl (h.ready.grow hblank), hwrote.exchange⟩

theorem setWriteFront (h : Open P e m free b) (hw : b.write = none) : Open P e m free { b with write := b.front } := by
  refine ⟨h.toBase.congr rfl rfl rfl rfl, h.len, ?_⟩
  rcases h.ready with ⟨-, hblank⟩ | ⟨pre, n, behind, hc⟩
  · exact ready_front rfl hblank
  · rw [hc.write] at hw
    cases hw

theorem pinned (h : Open P e m free b) (p : Bool) : Open P e m free { b with currentPinned := p } :=
  ⟨h.toBase.congr rfl rfl rfl rfl, h.len, h.ready.congr rfl rfl⟩

theorem peek_fst (m : Mem) (b : LinkedBuffer) (size : ℕ) : ∃ p, (peek m b size).1 = { b with currentPinned := p } := by
  rw [peek]
  split_ifs
  · exact ⟨b.currentPinned, rfl⟩
  · exact ⟨b.currentPinned, rfl⟩
  · split
    · simp only
      split_ifs
      · exact ⟨true, rfl⟩
      · exact ⟨b.currentPinned, rfl⟩
    · exact ⟨b.currentPinned, rfl⟩

theorem discard_zero (bm : BufferManager) (m : Mem) (b : LinkedBuffer) : discard bm m b 0 = (m, b, .ok 0) := by
  have hskip : ∀ s : BufferSlice, s.skip 0 = (0, s) := by
    intro s
    rw [BufferSlice.skip]
    split_ifs with hsize
    · rfl
    · rw [Nat.eq_zero_of_not_pos hsize]
      rfl
  rw [discard, if_neg (Nat.not_lt_zero _)]
  cases hs : b.sliceList with
  | nil => simp only [discardLoop, ← hs, Nat.sub_zero]
  | cons n rest => simp only [discardLoop, hskip, Nat.sub_zero, if_true, ← hs]

theorem readBytes (h : Open P e m free b) {r : Result Buf} (hcall : readBytes P.manager m b size = (m', b', r)) :
    ∃ free', Open P e m' free' b' ∧ Exchange P m free b.held m' free' b'.held := by
  by_cases hz : size = 0
  · rw [LinkedBuffer.readBytes, if_pos hz] at hcall
    cases hcall
    exact ⟨free, h, .refl _ _ _ _⟩
  by_cases hle : size ≤ b.len
  · obtain ⟨m₁, free₁, b₁, buf, hread, hdrained, hlen, -⟩ := readBytes_drained h.toBase h.len (Nat.pos_of_ne_zero hz) hle
    cases hread.symm.trans hcall
    exact ⟨free₁, h.of_drained hdrained hlen (h.cursor_of_len (by omega)), hdrained.exchange⟩
  · cases (calls_fail m (Nat.lt_of_not_le hle) P.manager).1.symm.trans hcall
    exact ⟨free, h, .refl _ _ _ _⟩

theorem discard (h : Open P e m free b) {r : Result ℕ} (hcall : discard P.manager m b size = (m', b', r)) :
    ∃ free', Open P e m' free' b' ∧ Exchange P m free b.held m' free' b'.held := by
  by_cases hz : size = 0
  · rw [hz, discard_zero] at hcall
    cases hcall
    exact ⟨free, h, .refl _ _ _ _⟩
  by_cases hle : size ≤ b.len
  · obtain ⟨m₁, free₁, b₁, hdisc, hdrained, hlen⟩ := discard_drained h.toBase h.len hle
    cases hdisc.symm.trans hcall
    exact ⟨free₁, h.of_drained hdrained hlen (h.cursor_of_len (by omega)), hdrained.exchange⟩
  · cases (calls_fail m (Nat.lt_of_not_le hle) P.manager).2.2.symm.trans hcall
    exact ⟨free, h, .refl _ _ _ _⟩

theorem cleanPinnedList (h : Open P e m free b) :
    ∃ m' free' b', cleanPinnedList P.manager m b = (m', b') ∧ Open P e m' free' b' ∧ Retains P e m free b m' free' b' ∧
      Exchange P m free b.held m' free' b'.held ∧ b'.sliceList = b.sliceList := by
  obtain ⟨m', free', b', hclean, hret, hex, hs, hw⟩ := cleanPinnedList_retains h.toBase
  exact ⟨m', free', b', hclean, h.of_retains hret (h.ready.congr hs hw), hret, hex, hs⟩

theorem releasePreviousRead (h : Open P e m free b) (hcall : releasePreviousRead P.manager m b = (m', b')) :
    ∃ free', Open P e m' free' b' ∧ Exchange P m free b.held m' free' b'.held := by
  obtain ⟨m₁, free₁, b₁, hclean, h₁, -, hex, -⟩ := h.cleanPinnedList
  obtain ⟨m₂, free₂, b₂, hrel, hret, hex', hcase⟩ := releaseFront_retains h₁.toBase
  simp only [LinkedBuffer.releasePreviousRead, hclean, hrel] at hcall
  cases hcall
  refine ⟨free₂, h₁.of_retains hret ?_, hex.trans h.slots hex'⟩
  rcases hcase with rfl | ⟨n, rest, hs, hw, hs', hw'⟩
  · exact h₁.ready
  · -- the slices behind the front are those ahead of the cursor
    rcases h₁.ready with ⟨hnone, -⟩ | ⟨pre, x, behind, hc⟩
    · rw [hw] at hnone
      cases hnone
    · have hid := Option.some.inj (hw.symm.trans hc.write)
      cases pre with
      | nil =>
        obtain ⟨-, rfl⟩ := List.cons.inj (hs.symm.trans hc.split)
        exact .inl ⟨hw', hs' ▸ hc.blank⟩
      | cons y pre =>
        obtain ⟨rfl, -⟩ := List.cons.inj (hs.symm.trans hc.split)
        exact absurd hid ((split_ids hc.split h₁.toBase).1 n List.mem_cons_self)

theorem releasePreviousReadAndReserve (h : Open P e m free b) :
    ∃ m' free' b', releasePreviousReadAndReserve P.manager m b = (m', b') ∧ Open P e m' free' b' ∧
      Retains P e m free b m' free' b' := by
  obtain ⟨m₁, free₁, b₁, hclean, h₁, hret₁, -, -⟩ := h.cleanPinnedList
  obtain ⟨m', b', hres, hret, hcase⟩ := reserveFront_retains h₁.toBase h₁.len
  refine ⟨m', free₁, b', ?_, h₁.of_retains hret ?_, hret₁.trans hret⟩
  · rw [LinkedBuffer.releasePreviousReadAndReserve, hclean]
    exact hres
  rcases hcase with rfl | ⟨hs, hw⟩ | ⟨n, hs, hs', hw⟩
  · exact h₁.ready
  · exact ready_nil hs hw
  · rcases h₁.ready with ⟨hnone, hblank⟩ | ⟨pre, x, behind, hc⟩
    · refine .inl ⟨hw.trans hnone, fun y hy => ?_⟩
      rw [hs', List.mem_singleton] at hy
      rw [hy]
      exact ⟨rfl, rfl, rfl, (hblank n (by simp [hs])).cap⟩
    · have hx : x = n := by
        have hmem : x ∈ b₁.sliceList := by simp [hc.split]
        rwa [hs, List.mem_singleton] at hmem
      exact .inr ⟨[], _, [], hs', hw.trans (hx ▸ hc.write), List.forall_mem_nil _⟩

theorem appendBufferSlice (h : Open P e m free b) (hok : SliceOk P s)
    (hnew : ∀ a, s.bufferHeader = some a → ¬ free a ∧ a ∉ b.held) : Open P e m free (b.appendBufferSlice s) := by
  refine ⟨(appendBufferSlice_base h.toBase hok hnew).1, appendBufferSlice_len h.len, ?_⟩
  rw [appendBufferSlice_eq]
  exact .inr ⟨b.sliceList, ⟨b.nextId, s⟩, [], rfl, rfl, nofun⟩

theorem clean (h : Open P e m free b) : Open P e m free b.clean := by
  have hnodes : b.clean.nodes = b.pinnedList := rfl
  have hsub : b.pinnedList.Sublist b.nodes := List.sublist_append_right _ _
  refine ⟨⟨?_, ?_, ?_, nofun⟩, rfl, ready_nil rfl rfl⟩
  · rw [hnodes]
    exact h.holds.sub hsub
  · rw [hnodes]
    exact (hsub.map Node.id).nodup h.ids
  · intro x hx
    exact h.below x (hsub.subset (hnodes ▸ hx))

theorem done (h : Open P e m free b) :
    ∃ m' free' b', done P.manager m b = some (m', b') ∧ Open P e m' free' b' ∧ Exchange P m free b.held m' free' b'.held := by
  rw [LinkedBuffer.done]
  cases hshm : b.isFromShm with
  | false => exact ⟨m, free, b, rfl, h, .refl _ _ _ _⟩
  | true =>
    have hup := updateLoop_updates b.write h.toBase (List.nil_append _).symm
    rw [if_pos rfl]
    generalize updateLoop b.write b.sliceList m = m₁ at hup
    rcases h.ready with ⟨hnone, hblank⟩ | ⟨pre, n, behind, hc⟩
    · rw [hnone]
      exact ⟨m₁, free, b, rfl, ⟨hup.base, h.len, .inl ⟨hnone, hblank⟩⟩, hup.exchange⟩
    · have hperm : b.nodes.Perm ((pre ++ [n] ++ b.pinnedList) ++ behind) := by
        rw [nodes, hc.split, List.append_assoc, List.append_assoc, List.append_assoc, List.singleton_append, List.cons_append]
        exact List.Perm.append_left _ (List.Perm.cons n List.perm_append_comm)
      obtain ⟨free', hholds, hex, -⟩ := (hup.base.holds.perm hperm).recycleNodes
      have hheld : ∀ a, a ∈ b.held ↔ a ∈ heldBy ((pre ++ [n] ++ b.pinnedList) ++ behind) :=
        fun a => (hperm.filterMap _).mem_iff
      have hnodes : ({ b with sliceList := pre ++ [n] } : LinkedBuffer).nodes = pre ++ [n] ++ b.pinnedList := rfl
      refine ⟨recycleNodes P.manager m₁ behind, free', { b with sliceList := pre ++ [n] }, ?_, ⟨?_, ?_,
        .inr ⟨pre, n, [], rfl, hc.write, List.forall_mem_nil _⟩⟩, hup.exchange.trans h.slots (hex.congr_left hheld)⟩
      · simp only [hc.write, dropUnused, nodeAt_split hc.split h.toBase, nextOf_split hc.split h.toBase,
          takeWhile_split hc.split h.toBase, Option.map_some]
      · refine hup.base.of_nodes hholds ?_ rfl rfl ?_
        · exact ((List.sublist_append_left _ _).subperm).trans hperm.symm.subperm
        · intro x hx
          rw [hc.split]
          rcases List.mem_append.mp hx with hx | hx
          · simp [hx]
          · simp [List.mem_singleton.mp hx]
      · have hsum : sizeOf b.sliceList = sizeOf (pre ++ [n]) + sizeOf behind := by
          simp only [hc.split, sizeOf, List.map_append, List.map_cons, List.map_nil, List.sum_append, List.sum_cons,
            List.sum_nil]
          omega
        change b.len = _
        rw [h.len, hsum, sizeOf_blank hc.blank, Nat.add_zero]

theorem writeBytes (h : Open P e m free b) (hcall : writeBytes P.manager m b bytes = some (m', b')) :
    ∃ free', Open P e m' free' b' ∧ Wrote P e m free b bytes m' free' b' := by
  obtain ⟨free', hwrote, hlen, hready⟩ := writeBytes_ready h.toBase h.ready hcall
  exact ⟨free', h.of_wrote hwrote hlen hready, hwrote⟩

end Open

/-- The sizes that `reserve` can serve: they fit the 32 bits that the pool and the slices count in, and where nothing is
asked for there is a slice to point to. -/
def Fits (bm : BufferManager) (m : Mem) (b : LinkedBuffer) (size : ℕ) : Prop :=
  size < 4294967296 ∧ (0 < size ∨ b.write ≠ none ∨ b.sliceList ≠ [] ∨ givesFirst bm m = true)

/-- A span of `size` bytes in one slice, or an error without a trace. `none` is the null write cursor. -/
def Delivers (m : Mem) (b : LinkedBuffer) (size : ℕ) : Option (Mem × LinkedBuffer × Result (ℕ × ℕ)) → Prop
  | none => False
  | some (_, b', .ok (id, pos)) => b'.len = b.len + size ∧ ∃ x ∈ b'.sliceList, x.id = id ∧ pos + size ≤ x.slice.cap
  | some (m', b', .error _) => b'.len = b.len ∧ b'.write = b.write ∧ unreadOf m' b'.sliceList = unreadOf m b.sliceList

theorem u32_of_lt (h : size < 4294967296) : u32 size = size := Nat.mod_eq_of_lt h

theorem Open.reserve (h : Open P e m free b) (hfits : Fits P.manager m b bytes.length) :
    Reserved P e m free b bytes (reserve P.manager m b bytes.length) := by
  obtain ⟨m', free', c, hopen, hwrote, hlen, hcursor⟩ := openWrite_ready h.toBase h.ready bytes.length
  rcases hcursor with ⟨pre, n, behind, hc⟩ | ⟨-, hzero, hnone, hnil, hgives⟩
  · exact (reserve_reserved hopen hwrote.base hc hfits.1).after h.toBase hwrote hlen
  · rw [u32_of_lt hfits.1] at hzero
    rcases hfits.2 with hpos | hw | hs | hg
    · omega
    · exact absurd hnone hw
    · exact absurd hnil hs
    · rw [hgives] at hg
      cases hg

theorem Open.reserveFill (h : Open P e m free b) (hfits : Fits P.manager m b bytes.length)
    (hcall : LinkedBuffer.reserveFill bytes (LinkedBuffer.reserve P.manager m b bytes.length) = some (m', b')) :
    ∃ free', Open P e m' free' b' ∧ Wrote P e m free b bytes m' free' b' := by
  obtain ⟨m₁, b₁, id, pos, hr, -, -, m₂, free₂, b₂, hfill, hwrote, hlen, hcursor⟩ := h.reserve hfits
  rw [hr] at hcall
  cases hfill.symm.trans hcall
  exact ⟨free₂, h.of_wrote hwrote hlen (.inr hcursor), hwrote⟩

theorem Reserved.delivers {r : Option (Mem × LinkedBuffer × Result (ℕ × ℕ))} (h : Reserved P e m free b bytes r) :
    Delivers m b bytes.length r := by
  obtain ⟨m₁, b₁, id, pos, rfl, hlen, hspan, -⟩ := h
  exact ⟨hlen, hspan⟩

theorem Open.reserve_null (h : Open P e m free b) (hw : b.write = none) (hs : b.sliceList = [])
    (hgives : givesFirst P.manager m = false) : LinkedBuffer.reserve P.manager m b 0 = none := by
  have hopen : (openWrite P.manager m b 0).2.write = none := by
    rw [openWrite, if_pos hw]
    rcases alloc_zero h.toBase with ⟨hg, -⟩ | ⟨-, halloc⟩
    · rw [hgives] at hg
      cases hg
    · change front (LinkedBuffer.alloc P.manager m b 0).2 = none
      rw [halloc, front, hs]
      rfl
  rw [LinkedBuffer.reserve]
  simp only [hopen, Option.bind_none]

section Large

theorem alloc_small (h : P.Free e m free) (b : LinkedBuffer) (size : ℕ) :
    ∀ x ∈ (alloc P.manager m b size).2.sliceList, x ∈ b.sliceList ∨ x.slice.cap < 4294967296 := by
  have hfresh : ∀ {c a : ℕ}, P.Slot c a → (freshSlice c a).cap < 4294967296 := by
    intro c a hslot
    have hlt := hslot.lt
    change c < _
    omega
  intro x hx
  cases alloc_cases h b size with
  | one _ _ ht hr =>
    rw [hr] at hx
    rcases List.mem_append.mp hx with hx | hx
    · exact .inl hx
    · rw [List.mem_singleton.mp hx]
      exact .inr (hfresh ht.slot)
  | many _ _ ht _ hhs hr =>
    rw [hr] at hx
    rcases List.mem_append.mp hx with hx | hx
    · exact .inl hx
    · right
      rcases List.mem_append.mp (mem_numbered hx).1 with hs | hs
      · obtain ⟨c, a, hsa, hslot, -⟩ := ht.mem hs
        rw [hsa]
        exact hfresh hslot
      · rw [hhs] at hs
        split_ifs at hs
        · rw [List.mem_singleton.mp hs]
          exact u32_lt _
        · cases hs

theorem openWrite_small (h : P.Free e m free) (hcap : ∀ x ∈ b.sliceList, x.slice.cap < 4294967296)
    (hopen : openWrite P.manager m b size = (m', c)) : ∀ x ∈ c.sliceList, x.slice.cap < 4294967296 := by
  rw [openWrite] at hopen
  split_ifs at hopen
  · cases hopen
    intro x hx
    exact (alloc_small h b _ x hx).elim (hcap x) id
  · cases hopen
    exact hcap

theorem reserveAt_large (hok : SliceOk P n.slice) (hcap : n.slice.cap < 4294967296) (hsize : 4294967296 ≤ size) :
    reserveAt m b n size = none := by
  have hremain := hok.remain_eq
  apply reserveAt_none
  omega

theorem reserve_pushed (hbelow : ∀ x ∈ b.sliceList, x.id < b.nextId) (hw : s.writeIndex = 0)
    (hcap : s.cap < 4294967296) (hsize : 4294967296 ≤ size) (hs : c.sliceList = (b.pushBack s).sliceList) :
    ∃ node, ({ c with write := c.back } : LinkedBuffer).write = some node.id ∧
      ({ c with write := c.back } : LinkedBuffer).nodeAt node.id = some node ∧
      reserveAt m { c with write := c.back } node size = none := by
  refine ⟨⟨b.nextId, s⟩, ?_, ?_, ?_⟩
  · simp [back, hs, pushBack]
  · have hnot : b.sliceList.find? (fun x => x.id = b.nextId) = none := by
      rw [List.find?_eq_none]
      intro x hx
      simpa using (hbelow x hx).ne
    simp [nodeAt, hs, pushBack, List.find?_append, hnot]
  · apply reserveAt_none
    rw [BufferSlice.remain, hw, usub_of_le (Nat.zero_le _), Nat.sub_zero, not_le]
    exact lt_of_lt_of_le hcap hsize

/-- Behind the 32 bits every attempt fails. `len` has grown, and so has the slice list. -/
theorem reserve_large (h : Base P e m free b) (hready : Ready b) (hcap : ∀ x ∈ b.sliceList, x.slice.cap < 4294967296)
    (hsize : 4294967296 ≤ size) :
    reserve P.manager m b size = none ∨
      ∃ m' b' err, reserve P.manager m b size = some (m', b', .error err) ∧ b'.len = b.len + size ∧
        (b'.isFromShm = false ∨ ∃ free', Wrote P e m free b [] m' free' b' ∧ HasCursor b') := by
  obtain ⟨m₁, free₁, c, hopen, hwrote, hlen, hcursor⟩ := openWrite_ready h hready size
  have hsmall := openWrite_small h.holds.pool hcap hopen
  have hbelow : ∀ x ∈ c.sliceList, x.id < c.nextId := fun x hx => hwrote.base.below x (List.mem_append_left _ hx)
  have hfail : ∀ x ∈ c.sliceList, reserveAt m₁ c x size = none :=
    fun x hx => reserveAt_large (hwrote.base.mem_slice hx) (hsmall x hx) hsize
  rw [reserve, hopen]
  rcases hcursor with ⟨pre, n, behind, hc⟩ | ⟨hnone, -⟩
  · right
    have hnext : (behind.head?.bind fun next => reserveAt m₁ c next size) = none := by
      cases behind with
      | nil => rfl
      | cons x rest => exact hfail x (by simp [hc.split])
    simp only [hc.write, Option.bind_some, nodeAt_split hc.split hwrote.base, nextOf_split hc.split hwrote.base,
      hfail n (by simp [hc.split]), hnext, Option.none_or]
    rcases hwrote.base.holds.pool.allocShmBuffer (u32 size) with ⟨err, he⟩ | ⟨d, a, m₂, he, -, ht⟩
    · rw [he]
      obtain ⟨node, hnode, hat, hres⟩ := reserve_pushed (m := m₁) (c := c.heapSlice size) hbelow rfl (u32_lt _) hsize rfl
      simp only [reserveNew, setWrite, hnode, hat, hres, Option.bind_some, Option.none_or]
      exact ⟨_, _, _, rfl, congrArg (· + size) hlen, .inl rfl⟩
    · rw [he]
      have hlt := ht.slot.lt
      obtain ⟨node, hnode, hat, hres⟩ := reserve_pushed (m := m₂) (c := c.pushBack (freshSlice d a)) hbelow rfl
        (show d < 4294967296 by omega) hsize rfl
      have hgrown := hwrote.trans h ((Supply.of_took hwrote.base ht one_pos ht.slot.cap_pos).wrote hwrote.base)
      rw [← pushBack_eq_grow] at hgrown
      simp only [reserveNew, setWrite, hnode, hat, hres, Option.bind_some, Option.none_or]
      refine ⟨_, _, _, rfl, congrArg (· + size) hlen, .inr ⟨_, hgrown.congr rfl rfl rfl rfl rfl, ?_⟩⟩
      refine ⟨c.sliceList, ⟨c.nextId, freshSlice d a⟩, [], rfl, ?_, List.forall_mem_nil _⟩
      rw [← hnode]
      simp [back, pushBack]
  · left
    simp only [hnone, Option.bind_none]

theorem Open.not_delivers_large (h : Open P e m free b) (hcap : ∀ x ∈ b.sliceList, x.slice.cap < 4294967296)
    (hsize : 4294967296 ≤ size) : ¬ Delivers m b size (LinkedBuffer.reserve P.manager m b size) := by
  rcases reserve_large h.toBase h.ready hcap hsize with hr | ⟨m', b', err, hr, hlen, -⟩
  · rw [hr]
    exact id
  · rw [hr]
    rintro ⟨hsame, -⟩
    omega

end Large

end LinkedBuffer

open LinkedBuffer

namespace Reserving

inductive Call
  | alloc (size : ℕ)
  /-- `set_write(front())` on the slice list, as its users do behind `alloc`. -/
  | setWriteFront
  | writeBytes (bytes : List UInt8)
  | reserve (bytes : List UInt8)
  | appendBufferSlice (slice : BufferSlice)
  | readBytes (size : ℕ)
  | peek (size : ℕ)
  | discard (size : ℕ)
  | done
  | releasePreviousRead
  | releasePreviousReadAndReserve
  | recycle
  | clean

def call (bm : BufferManager) (m : Mem) (b : LinkedBuffer) : Call → Option (Mem × LinkedBuffer)
  | .alloc size => some (alloc bm m b size)
  | .setWriteFront => some (m, { b with write := b.front })
  | .writeBytes bytes => writeBytes bm m b bytes
  | .reserve bytes => reserveFill bytes (reserve bm m b bytes.length)
  | .appendBufferSlice slice => some (m, b.appendBufferSlice slice)
  | .readBytes size => some ((readBytes bm m b size).1, (readBytes bm m b size).2.1)
  | .peek size => some (m, (peek m b size).1)
  | .discard size => some ((discard bm m b size).1, (discard bm m b size).2.1)
  | .done => done bm m b
  | .releasePreviousRead => some (releasePreviousRead bm m b)
  | .releasePreviousReadAndReserve => some (releasePreviousReadAndReserve bm m b)
  | .recycle => some (recycle bm m b)
  | .clean => some (m, b.clean)

-- the size of `alloc` is a `uint32_t`
def Legal (P : Pool) (e : Bool) (m : Mem) (b : LinkedBuffer) : Call → Prop
  | .alloc size => size < 4294967296
  | .setWriteFront => b.write = none
  | .reserve bytes => Fits P.manager m b bytes.length
  | .appendBufferSlice slice => SliceOk P slice ∧ ByteFifo.Foreign P e m b.held slice
  | _ => True

inductive Run (P : Pool) (e : Bool) : Mem → LinkedBuffer → Prop
  | start {m : Mem} {free : ℕ → Prop} : P.Free e m free → Run P e m .empty
  | call {m m' : Mem} {b b' : LinkedBuffer} {c : Call} : Run P e m b → Legal P e m b c →
      call P.manager m b c = some (m', b') → Run P e m' b'
  | others {m m' : Mem} {b : LinkedBuffer} {free' : ℕ → Prop} : Run P e m b → P.Free e m' free' →
      (∀ a ∈ b.held, ¬ free' a) → Run P e m' b

variable {P : Pool} {e : Bool} {m m' : Mem} {free : ℕ → Prop} {b b' : LinkedBuffer} {c : Call}

theorem open_start (h : P.Free e m free) : Open P e m free .empty := .of_valid (.empty h)

def Call.Plain : Call → Prop
  | .appendBufferSlice _ | .releasePreviousReadAndReserve | .clean => False
  | _ => True

theorem exchange_call (h : Open P e m free b) (hlegal : Legal P e m b c) (hplain : c.Plain)
    (hcall : call P.manager m b c = some (m', b')) :
    ∃ free', Open P e m' free' b' ∧ Exchange P m free b.held m' free' b'.held := by
  cases c with
  | alloc size =>
    have halloc : alloc P.manager m b size = (m', b') := Option.some.inj hcall
    exact h.alloc hlegal halloc
  | setWriteFront =>
    cases hcall
    exact ⟨free, h.setWriteFront hlegal, .refl _ _ _ _⟩
  | writeBytes bytes =>
    obtain ⟨free', h', hwrote⟩ := h.writeBytes hcall
    exact ⟨free', h', hwrote.exchange⟩
  | reserve bytes =>
    obtain ⟨free', h', hwrote⟩ := h.reserveFill hlegal hcall
    exact ⟨free', h', hwrote.exchange⟩
  | appendBufferSlice slice => exact hplain.elim
  | readBytes size =>
    cases hcall
    exact h.readBytes (Prod.mk.eta.symm.trans (congrArg (Prod.mk _) Prod.mk.eta.symm))
  | peek size =>
    obtain ⟨p, hp⟩ := Open.peek_fst m b size
    cases hcall
    rw [hp]
    exact ⟨free, h.pinned p, .refl _ _ _ _⟩
  | discard size =>
    cases hcall
    exact h.discard (Prod.mk.eta.symm.trans (congrArg (Prod.mk _) Prod.mk.eta.symm))
  | done =>
    obtain ⟨m₁, free₁, b₁, hdone, h₁, hex⟩ := h.done
    cases hdone.symm.trans hcall
    exact ⟨free₁, h₁, hex⟩
  | releasePreviousRead =>
    have hrel : releasePreviousRead P.manager m b = (m', b') := Option.some.inj hcall
    exact h.releasePreviousRead hrel
  | releasePreviousReadAndReserve => exact hplain.elim
  | recycle =>
    obtain ⟨m₁, free₁, hrec, hvalid, hex⟩ := recycle_spec h.toBase
    rw [call, hrec] at hcall
    cases hcall
    exact ⟨free₁, .of_valid hvalid, hex⟩
  | clean => exact hplain.elim

def Call.Own : Call → Prop
  | .appendBufferSlice _ => False
  | _ => True

theorem frame_call (h : Open P e m free b) (hlegal : Legal P e m b c) (hown : c.Own)
    (hcall : call P.manager m b c = some (m', b')) :
    ∃ free', Open P e m' free' b' ∧ SlotFrame P m free b.held m' free' b'.held := by
  by_cases hplain : c.Plain
  · obtain ⟨free', h', hex⟩ := exchange_call h hlegal hplain hcall
    exact ⟨free', h', hex.frame⟩
  · cases c with
    | appendBufferSlice slice => exact hown.elim
    | releasePreviousReadAndReserve =>
      have hrel : releasePreviousReadAndReserve P.manager m b = (m', b') := Option.some.inj hcall
      obtain ⟨m₁, free₁, b₁, hrel₁, h₁, hret⟩ := h.releasePreviousReadAndReserve
      cases hrel₁.symm.trans hrel
      exact ⟨free₁, h₁, hret.frame⟩
    | clean =>
      cases hcall
      refine ⟨free, h.clean, .drop m free fun a ha => ?_⟩
      rw [held, nodes, heldBy_append]
      exact List.mem_append_right _ ha
    | _ => exact (hplain trivial).elim

theorem open_call (h : Open P e m free b) (hlegal : Legal P e m b c) (hcall : call P.manager m b c = some (m', b')) :
    ∃ free', Open P e m' free' b' := by
  by_cases hown : c.Own
  · obtain ⟨free', h', -⟩ := frame_call h hlegal hown hcall
    exact ⟨free', h'⟩
  · cases c with
    | appendBufferSlice slice =>
      obtain ⟨hok, free', hf, hown, hnew⟩ := hlegal
      cases hcall
      exact ⟨free', (h.others hf hown).appendBufferSlice hok hnew⟩
    | _ => exact (hown trivial).elim

theorem open_of_run (h : Run P e m b) : ∃ free, Open P e m free b := by
  induction h with
  | start hf => exact ⟨_, open_start hf⟩
  | call _ hlegal hcall ih =>
    obtain ⟨free, hopen⟩ := ih
    exact open_call hopen hlegal hcall
  | others _ hf hown ih =>
    obtain ⟨free, hopen⟩ := ih
    exact ⟨_, hopen.others hf hown⟩

-- the capacity of a slice is a `uint32_t`
theorem reserve_delivers (h : Run P e m b) (hcap : ∀ x ∈ b.sliceList, x.slice.cap < 4294967296) (size : ℕ) :
    Delivers m b size (reserve P.manager m b size) ↔ Fits P.manager m b size := by
  obtain ⟨free, hopen⟩ := open_of_run h
  constructor
  · intro hdel
    by_cases hsize : size < 4294967296
    · refine ⟨hsize, ?_⟩
      by_contra hnot
      simp only [not_or, not_lt, Nat.le_zero, not_not, Bool.not_eq_true] at hnot
      obtain ⟨rfl, hw, hs, hgives⟩ := hnot
      rw [hopen.reserve_null hw hs hgives] at hdel
      exact hdel
    · exact absurd hdel (hopen.not_delivers_large hcap (not_lt.mp hsize))
  · intro hfits
    have hlen : (List.replicate size (0 : UInt8)).length = size := List.length_replicate
    have hres : Reserved P e m free b (List.replicate size 0)
        (reserve P.manager m b (List.replicate size (0 : UInt8)).length) := by
      apply hopen.reserve
      rwa [hlen]
    have hdel := hres.delivers
    rwa [hlen] at hdel

theorem reserve_delivers_small : ∃ m b, Run ByteFifo.smallPool true m b ∧
    Delivers m b 3 (reserve ByteFifo.smallPool.manager m b 3) := by
  obtain ⟨m, hfree⟩ : ∃ m, ByteFifo.smallPool.Free true m _ := ⟨_, Pool.single_free _ _ _ ⟨fun _ => 0⟩⟩
  have hstart : Run ByteFifo.smallPool true m .empty := .start hfree
  have hsmall := alloc_small hfree .empty 6
  rcases halloc : alloc ByteFifo.smallPool.manager m .empty 6 with ⟨m', b'⟩
  rw [halloc] at hsmall
  have hrun := hstart.call (c := .alloc 6) (show 6 < 4294967296 by decide) (congrArg some halloc)
  refine ⟨m', b', hrun, (reserve_delivers hrun ?_ 3).mpr ⟨by decide, .inl (by decide)⟩⟩
  intro x hx
  exact (hsmall x hx).resolve_left List.not_mem_nil

def oneSlot : Pool := Pool.single (n := 1) (by decide) (show _ ≤ 60 by decide) (by decide)

theorem reserve_not_delivered :
    (∃ m, Run ByteFifo.smallPool true m .empty ∧
      ¬ Delivers m .empty 4294967296 (reserve ByteFifo.smallPool.manager m .empty 4294967296)) ∧
    ∃ m, Run oneSlot true m .empty ∧ ¬ Delivers m .empty 0 (reserve oneSlot.manager m .empty 0) := by
  constructor
  · obtain ⟨m, hfree⟩ : ∃ m, ByteFifo.smallPool.Free true m _ := ⟨_, Pool.single_free _ _ _ ⟨fun _ => 0⟩⟩
    exact ⟨m, .start hfree, (open_start hfree).not_delivers_large nofun le_rfl⟩
  · have hfree : oneSlot.Free true (BufferList.created ⟨0, 1 * (4 + 20), 36⟩ 1 4 ⟨fun _ => 0⟩) _ :=
      Pool.single_free _ _ _ _
    have hlist := BufferList.created_freeList (l := ⟨0, 1 * (4 + 20), 36⟩) (n := 1) (c := 4) (m := ⟨fun _ => 0⟩)
      (by decide) (by decide)
    generalize BufferList.created ⟨0, 1 * (4 + 20), 36⟩ 1 4 ⟨fun _ => 0⟩ = m at hfree hlist
    have hgives : givesFirst oneSlot.manager m = false := by
      change BufferList.spare ⟨0, 1 * (4 + 20), 36⟩ m = false
      rw [BufferList.spare, hlist.size]
      rfl
    refine ⟨m, .start hfree, ?_⟩
    rw [(open_start hfree).reserve_null rfl rfl hgives]
    exact id

end Reserving

end Shmipc
