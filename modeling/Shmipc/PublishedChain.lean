import Shmipc.ReserveDelivers
import Shmipc.StreamChain
import Shmipc.HomeList

namespace Shmipc

open ByteMemory

namespace LinkedBuffer

structure Tagged (b : LinkedBuffer) : Prop where
  ids : (b.sliceList.map Node.id).Nodup
  below : ∀ x ∈ b.sliceList, x.id < b.nextId
  heap : b.isFromShm = false → ∃ x ∈ b.sliceList, x.slice.isFromShm = false

structure Grows (b b' : LinkedBuffer) : Prop where
  tagged : Tagged b → Tagged b'
  shared : b'.isFromShm = true → b.isFromShm = true

variable {P : Pool} {e : Bool} {m m' m₁ : Mem} {free free' : ℕ → Prop} {b b' b₁ c : LinkedBuffer} {n : Node}
  {pre behind ns : List Node} {bytes : List UInt8} {size k : ℕ} {s : BufferSlice} {bm : BufferManager}

namespace Grows

theorem refl (b : LinkedBuffer) : Grows b b := ⟨id, id⟩

theorem trans (h : Grows b b₁) (h' : Grows b₁ b') : Grows b b' :=
  ⟨fun ht => h'.tagged (h.tagged ht), fun hs => h.shared (h'.shared hs)⟩

theorem congr (h : Grows b b') (hs : c.sliceList = b'.sliceList) (hn : c.nextId = b'.nextId)
    (hi : c.isFromShm = b'.isFromShm) : Grows b c := by
  constructor
  · intro ht
    have h' := h.tagged ht
    exact ⟨hs ▸ h'.ids, hs ▸ hn ▸ h'.below, hi ▸ hs ▸ h'.heap⟩
  · intro hshm
    exact h.shared (hi ▸ hshm)

theorem push (hs : c.sliceList = b.sliceList ++ [⟨b.nextId, s⟩]) (hn : c.nextId = b.nextId + 1)
    (hi : c.isFromShm = b.isFromShm ∨ s.isFromShm = false ∧ c.isFromShm = false) : Grows b c := by
  constructor
  · intro ht
    constructor
    · rw [hs, List.map_append]
      apply ht.ids.append (List.nodup_singleton _)
      intro i hi hi'
      obtain ⟨x, hx, rfl⟩ := List.mem_map.mp hi
      exact absurd (List.mem_singleton.mp hi') (ht.below x hx).ne
    · intro x hx
      rw [hs, List.mem_append, List.mem_singleton] at hx
      rw [hn]
      rcases hx with hx | rfl
      · exact Nat.lt_succ_of_lt (ht.below x hx)
      · exact Nat.lt_succ_self _
    · intro hc
      rw [hs]
      rcases hi with hi | ⟨hheap, -⟩
      · obtain ⟨x, hx, hxs⟩ := ht.heap (hi ▸ hc)
        exact ⟨x, List.mem_append_left _ hx, hxs⟩
      · exact ⟨_, List.mem_append_right _ (List.mem_singleton_self _), hheap⟩
  · intro hc
    rcases hi with hi | ⟨-, hfalse⟩
    · exact hi ▸ hc
    · rw [hfalse] at hc
      cases hc

theorem pushBack (b : LinkedBuffer) (s : BufferSlice) : Grows b (b.pushBack s) := push rfl rfl (.inl rfl)

theorem heapSlice (b : LinkedBuffer) (size : ℕ) : Grows b (b.heapSlice size) := push rfl rfl (.inr ⟨rfl, rfl⟩)

theorem foldl_pushBack (b : LinkedBuffer) (ss : List BufferSlice) : Grows b (ss.foldl LinkedBuffer.pushBack b) := by
  induction ss generalizing b with
  | nil => exact .refl b
  | cons s ss ih => exact (pushBack b s).trans (ih _)

theorem alloc (bm : BufferManager) (m : Mem) (b : LinkedBuffer) (size : ℕ) : Grows b (alloc bm m b size).2 := by
  rw [LinkedBuffer.alloc]
  rcases bm.allocShmBuffer m size with ⟨m', err | buf⟩
  · rw [allocFrom]
    rcases bm.allocShmBuffers m' size with ⟨m', k, ss⟩
    rw [allocRest]
    simp only
    split_ifs
    · exact (foldl_pushBack b ss).trans (heapSlice _ _)
    · exact foldl_pushBack b ss
  · exact pushBack b buf

theorem openWrite (bm : BufferManager) (m : Mem) (b : LinkedBuffer) (size : ℕ) : Grows b (openWrite bm m b size).2 := by
  rw [LinkedBuffer.openWrite]
  split_ifs
  · exact (alloc bm m b _).congr rfl rfl rfl
  · exact .refl b

-- a slice is changed in place and stays where it is
theorem setSlice (hn : n ∈ b.sliceList) (hk : s.isFromShm = n.slice.isFromShm) : Grows b (b.setSlice n.id s) := by
  refine ⟨fun ht => ?_, id⟩
  have hids : (b.setSlice n.id s).sliceList.map Node.id = b.sliceList.map Node.id := by
    simp only [LinkedBuffer.setSlice, List.map_map]
    apply List.map_congr_left
    intro x _
    by_cases hx : x.id = n.id
    · simp [hx]
    · simp [hx]
  constructor
  · rw [hids]
    exact ht.ids
  · intro x hx
    have hid : x.id ∈ b.sliceList.map Node.id := hids ▸ List.mem_map_of_mem hx
    obtain ⟨y, hy, hyx⟩ := List.mem_map.mp hid
    exact hyx ▸ ht.below y hy
  · intro hshm
    obtain ⟨x, hx, hheap⟩ := ht.heap hshm
    refine ⟨if x.id = n.id then ⟨n.id, s⟩ else x, List.mem_map_of_mem hx, ?_⟩
    by_cases hid : x.id = n.id
    · have hxn : x = n := List.inj_on_of_nodup_map ht.ids hx hn hid
      rw [if_pos hid, hk, ← hxn]
      exact hheap
    · rw [if_neg hid]
      exact hheap

theorem nodeAt_mem (h : b.nodeAt k = some n) : n ∈ b.sliceList ∧ n.id = k := by
  refine ⟨List.mem_of_find?_eq_some h, ?_⟩
  simpa using List.find?_some h

theorem append_kind (m : Mem) (s : BufferSlice) (bytes : List UInt8) : (s.append m bytes).2.1.isFromShm = s.isFromShm := by
  rw [BufferSlice.append]
  split_ifs <;> rfl

theorem writeRound {k : ℕ} (h : writeRound bm m b bytes = some (k, m', b')) : Grows b b' := by
  obtain ⟨id, -, h⟩ := Option.bind_eq_some_iff.mp h
  obtain ⟨n, hn, h⟩ := Option.map_eq_some_iff.mp h
  obtain ⟨hmem, rfl⟩ := nodeAt_mem hn
  have hset := setSlice (s := (n.slice.append m bytes).2.1) hmem (append_kind m n.slice bytes)
  generalize n.slice.append m bytes = r at h hset
  simp only at h
  split_ifs at h
  · cases h
    exact (hset.trans (alloc _ _ _ _)).congr rfl rfl rfl
  · cases h
    exact hset.congr rfl rfl rfl
  · cases h
    exact hset

theorem writeLoop {fuel : ℕ} (h : writeLoop bm fuel m b bytes = some (m', b')) : Grows b b' := by
  induction fuel generalizing m b bytes with
  | zero => cases h
  | succ fuel ih =>
    obtain ⟨⟨k, m₁, b₁⟩, hround, h⟩ := Option.bind_eq_some_iff.mp h
    simp only at h
    split_ifs at h
    · exact (writeRound hround).trans (ih h)
    · cases h
      exact writeRound hround

theorem writeBytes (h : writeBytes bm m b bytes = some (m', b')) : Grows b b' := by
  rw [LinkedBuffer.writeBytes] at h
  split_ifs at h
  · cases h
    exact .refl b
  · have hopen := openWrite bm m b bytes.length
    generalize LinkedBuffer.openWrite bm m b bytes.length = r at h hopen
    obtain ⟨r', hloop, hr⟩ := Option.map_eq_some_iff.mp h
    cases hr
    exact (hopen.trans (writeLoop hloop)).congr rfl rfl rfl

theorem reserveAt {r : Result (ℕ × ℕ)} (hn : n ∈ b.sliceList) (h : reserveAt m b n size = some (m', b', r)) : Grows b b' := by
  rw [LinkedBuffer.reserveAt, BufferSlice.reserve] at h
  split_ifs at h
  cases h
  have hset := setSlice (s := { n.slice with writeIndex := n.slice.writeIndex + size }) hn rfl
  exact hset.congr rfl rfl rfl

theorem reserveNew (b : LinkedBuffer) (size : ℕ) (r : Mem × Result BufferSlice) : Grows b (reserveNew b size r).2 := by
  rcases r with ⟨m, err | buf⟩
  · exact (heapSlice b size).congr rfl rfl rfl
  · exact (pushBack b buf).congr rfl rfl rfl

theorem nextOf_mem {k : ℕ} (h : (b.nextOf k).head? = some n) : n ∈ b.sliceList :=
  (List.dropWhile_suffix _).subset (List.mem_of_mem_tail (List.mem_of_head? h))

theorem reserve {r : Result (ℕ × ℕ)} (h : reserve bm m b size = some (m', b', r)) : Grows b b' := by
  have hopen := openWrite bm m b size
  rw [LinkedBuffer.reserve] at h
  generalize LinkedBuffer.openWrite bm m b size = o at h hopen
  obtain ⟨id, -, h⟩ := Option.bind_eq_some_iff.mp h
  obtain ⟨n, hn, h⟩ := Option.bind_eq_some_iff.mp h
  refine hopen.trans ?_
  -- the three attempts
  rcases Option.or_eq_some_iff.mp h with h | ⟨-, h⟩
  · exact reserveAt (nodeAt_mem hn).1 h
  rcases Option.or_eq_some_iff.mp h with h | ⟨-, h⟩
  · obtain ⟨x, hx, h⟩ := Option.bind_eq_some_iff.mp h
    exact reserveAt (nextOf_mem hx) h
  · have hnew := reserveNew o.2 size (bm.allocShmBuffer o.1 (u32 size))
    generalize LinkedBuffer.reserveNew o.2 size (bm.allocShmBuffer o.1 (u32 size)) = r' at h hnew
    obtain ⟨id', -, h⟩ := Option.bind_eq_some_iff.mp h
    obtain ⟨n', hn', h⟩ := Option.bind_eq_some_iff.mp h
    refine hnew.trans ?_
    rcases Option.or_eq_some_iff.mp h with h | ⟨-, h⟩
    · exact reserveAt (nodeAt_mem hn').1 h
    · cases h
      exact (refl _).congr rfl rfl rfl

theorem fill {span : ℕ × ℕ} (h : fill m b bytes span = some (m', b')) : Grows b b' := by
  obtain ⟨n, hn, h⟩ := Option.map_eq_some_iff.mp h
  obtain ⟨hmem, hid⟩ := nodeAt_mem hn
  cases h
  rw [← hid]
  exact setSlice hmem rfl

end Grows

structure Draft (P : Pool) (e : Bool) (m : Mem) (free : ℕ → Prop) (b : LinkedBuffer) : Prop extends Base P e m free b where
  ready : Ready b
  starts : ∀ x ∈ b.sliceList, AtStart x.slice
  unlinked : ∀ a ∈ b.held, BufferHeader.hasNext m a = false

namespace Draft

theorem start (h : P.Free e m free) : Draft P e m free .empty :=
  ⟨(Valid.empty h).toBase, ready_nil rfl rfl, nofun, nofun⟩

theorem of_wrote (h : Draft P e m free b) (hw : Wrote P e m free b bytes m' free' b') (hready : Ready b') :
    Draft P e m' free' b' := by
  refine ⟨hw.base, hready, hw.starts h.starts, fun a ha => ?_⟩
  by_cases hold : a ∈ b.held
  · rw [BufferHeader.hasNext_congr (hw.kept a hold).2]
    exact h.unlinked a hold
  · exact (hw.flags a ha hold).2

theorem setWriteFront (h : Draft P e m free b) (hw : b.write = none) : Draft P e m free { b with write := b.front } := by
  refine ⟨h.toBase.congr rfl rfl rfl rfl, ?_, h.starts, h.unlinked⟩
  rcases h.ready with ⟨-, hblank⟩ | ⟨pre, n, behind, hc⟩
  · exact ready_front rfl hblank
  · rw [hc.write] at hw
    cases hw

theorem alloc (h : Draft P e m free b) (hsize : size < 4294967296) (halloc : alloc P.manager m b size = (m', b')) :
    ∃ free', Draft P e m' free' b' ∧ b'.write = b.write := by
  obtain ⟨m₁, free', new, shm, heq, hwrote, hblank, -⟩ := alloc_wrote h.toBase hsize
  cases heq.symm.trans halloc
  exact ⟨free', h.of_wrote hwrote (h.ready.grow hblank), rfl⟩

theorem writeBytes (h : Draft P e m free b) (hcall : writeBytes P.manager m b bytes = some (m', b')) :
    ∃ free', Draft P e m' free' b' := by
  obtain ⟨free', hwrote, -, hready⟩ := writeBytes_ready h.toBase h.ready hcall
  exact ⟨free', h.of_wrote hwrote hready⟩

theorem small (h : Draft P e m free b) (hshm : b.isFromShm = true) : ∀ x ∈ b.sliceList, x.slice.cap < 4294967296 := by
  intro x hx
  obtain ⟨a, ha⟩ := (h.mem_slice hx).of_isFromShm (h.shm hshm x hx)
  have hlt := ha.slot.lt
  omega

-- below 2^32 bytes the span is there, unless the write cursor is null
theorem reserve_cases (h : Draft P e m free b) (hsize : bytes.length < 4294967296) :
    reserve P.manager m b bytes.length = none ∨ Reserved P e m free b bytes (reserve P.manager m b bytes.length) := by
  obtain ⟨m', free', c, hopen, hwrote, hlen, hcursor⟩ := openWrite_ready h.toBase h.ready bytes.length
  rcases hcursor with ⟨pre, n, behind, hc⟩ | ⟨hnone, -⟩
  · exact .inr ((reserve_reserved hopen hwrote.base hc hsize).after h.toBase hwrote hlen)
  · left
    rw [reserve, hopen]
    simp only [hnone, Option.bind_none]

theorem reserve (h : Draft P e m free b) (hshm : b.isFromShm = true) {span : ℕ × ℕ}
    (hcall : reserve P.manager m b bytes.length = some (m₁, b₁, .ok span)) (hfill : fill m₁ b₁ bytes span = some (m', b')) :
    ∃ free', Draft P e m' free' b' := by
  by_cases hsize : bytes.length < 4294967296
  · rcases h.reserve_cases hsize with hnone | ⟨m₂, b₂, id, pos, hr, -, -, m₃, free₃, b₃, hfill', hwrote, -, hcursor⟩
    · rw [hnone] at hcall
      cases hcall
    · cases hr.symm.trans hcall
      cases hfill'.symm.trans hfill
      exact ⟨free₃, h.of_wrote hwrote (.inr hcursor)⟩
  · rcases reserve_large h.toBase h.ready (h.small hshm) (not_lt.mp hsize) with hnone | ⟨m₂, b₂, err, hr, -⟩
    · rw [hnone] at hcall
      cases hcall
    · rw [hr] at hcall
      cases hcall

theorem reserve_error (h : Draft P e m free b) (hshm : b.isFromShm = true) {err : Error}
    (hcall : LinkedBuffer.reserve P.manager m b size = some (m', b', .error err)) (hshm' : b'.isFromShm = true) :
    ∃ free', Draft P e m' free' b' := by
  by_cases hsize : size < 4294967296
  · have hlen : (List.replicate size (0 : UInt8)).length = size := List.length_replicate
    have hcases := h.reserve_cases (hlen.symm ▸ hsize)
    rw [hlen, hcall] at hcases
    rcases hcases with hnone | ⟨m₂, b₂, id, pos, hr, -⟩
    · cases hnone
    · cases hr
  · rcases reserve_large h.toBase h.ready (h.small hshm) (not_lt.mp hsize) with hnone | ⟨m₂, b₂, err, hr, -, hgrown⟩
    · rw [hnone] at hcall
      cases hcall
    · cases hr.symm.trans hcall
      rcases hgrown with hheap | ⟨free', hwrote, hcursor⟩
      · rw [hshm'] at hheap
        cases hheap
      · exact ⟨free', h.of_wrote hwrote (.inr hcursor)⟩

end Draft

section Links

variable {a d : ℕ} {A : List ℕ}

theorem update_fields (hok : SliceOk P s) (hr : P.Refers s a) (hstart : s.start = 0) (next : Option ℕ)
    (hnext : ∀ off, next = some off → off < 4294967296) :
    BufferHeader.size (s.update m next) a = s.size ∧ BufferHeader.start (s.update m next) a = 0 ∧
      BufferHeader.hasNext (s.update m next) a = (next.isSome || BufferHeader.hasNext m a) ∧
      ∀ off, next = some off → BufferHeader.nextBufferOffset (s.update m next) a = off := by
  have hlt := hr.slot.lt
  have hsize : s.size % 4294967296 = s.size := by
    apply Nat.mod_eq_of_lt
    have h1 := hok.size_eq
    have h2 := hok.write_le
    omega
  cases next with
  | none => simp [BufferSlice.update, hr.header, hsize, hstart]
  | some off => simp [BufferSlice.update, hr.header, hsize, hstart, Nat.mod_eq_of_lt (hnext off rfl)]

theorem readable_of_fields (hok : SliceOk P s) (hr : P.Refers s a) (hsize : BufferHeader.size m a = s.size)
    (hstart : BufferHeader.start m a = 0) : Readable P m a := by
  refine ⟨_, hr.slot, ?_⟩
  rw [hsize, hstart, Nat.zero_add, hok.size_eq]
  exact (Nat.sub_le _ _).trans hok.write_le

theorem offset_lt (hok : SliceOk P s) (hshm : s.isFromShm = true) : s.offsetInShm < 4294967296 := by
  obtain ⟨a, ha⟩ := hok.of_isFromShm hshm
  have hlt := ha.slot.lt
  rw [ha.offset]
  omega

theorem updateLoop_frame (write : Option ℕ) (hok : ∀ x ∈ ns, SliceOk P x.slice) (hd : P.Slot d a) (ha : a ∉ heldBy ns) :
    SameOn m (updateLoop write ns m) a (a + (d + 20)) := by
  induction ns generalizing m with
  | nil => exact .refl _ _ _
  | cons x rest ih =>
    rw [heldBy_cons, List.mem_append, not_or] at ha
    have hx := hok x List.mem_cons_self
    have hsame : SameOn m (x.slice.update m (rest.head?.map fun n => n.slice.offsetInShm)) a (a + (d + 20)) := by
      apply hx.frame (hx.update _).1 hd
      intro hh
      exact ha.1 (by simp [hh])
    rw [updateLoop]
    split_ifs
    · exact hsame
    · exact hsame.trans (ih (fun y hy => hok y (List.mem_cons_of_mem x hy)) ha.2)

theorem updateLoop_links (hids : ∀ x ∈ pre, x.id ≠ n.id) (hok : ∀ x ∈ pre ++ n :: behind, SliceOk P x.slice)
    (hshm : ∀ x ∈ pre ++ n :: behind, x.slice.isFromShm = true) (hstart : ∀ x ∈ pre ++ n :: behind, x.slice.start = 0)
    (hdist : (heldBy (pre ++ n :: behind)).Nodup)
    (hnone : ∀ a ∈ heldBy (pre ++ n :: behind), BufferHeader.hasNext m a = false)
    (hm' : updateLoop (some n.id) (pre ++ n :: behind) m = m') :
    (∀ x ∈ pre ++ [n], ∀ a, x.slice.bufferHeader = some a →
      BufferHeader.size m' a = x.slice.size ∧ BufferHeader.start m' a = 0) ∧
    (∀ a, n.slice.bufferHeader = some a → BufferHeader.hasNext m' a = behind.head?.isSome) ∧
    (behind = [] → ∀ r, (pre ++ [n]).head?.map (fun x => x.slice.offsetInShm) = some r →
      Chain P m' r (heldBy (pre ++ [n]))) := by
  induction pre generalizing m with
  | nil =>
    rw [List.nil_append] at hok hshm hstart hdist hnone hm'
    obtain ⟨a, ha⟩ := (hok n List.mem_cons_self).of_isFromShm (hshm n List.mem_cons_self)
    have hnext : ∀ off, (behind.head?.map fun x => x.slice.offsetInShm) = some off → off < 4294967296 := by
      intro off hoff
      obtain ⟨x, hx, rfl⟩ := Option.map_eq_some_iff.mp hoff
      have hmem := List.mem_cons_of_mem n (List.mem_of_head? hx)
      exact offset_lt (hok x hmem) (hshm x hmem)
    rw [updateLoop, if_pos rfl] at hm'
    obtain ⟨hsize, hst, hhas, -⟩ := update_fields (m := m) (hok n List.mem_cons_self) ha (hstart n List.mem_cons_self) _ hnext
    rw [hm'] at hsize hst hhas
    rw [hnone a (by simp [heldBy_cons, ha.header]), Bool.or_false, Option.isSome_map] at hhas
    refine ⟨?_, ?_, ?_⟩
    · intro x hx a' ha'
      rw [List.nil_append, List.mem_singleton] at hx
      rw [hx, ha.header] at ha'
      cases ha'
      rw [hx]
      exact ⟨hsize, hst⟩
    · intro a' ha'
      rw [ha.header] at ha'
      cases ha'
      exact hhas
    · rintro rfl r hr
      rw [List.nil_append, List.head?_cons, Option.map_some, ha.offset] at hr
      cases hr
      have hheld : heldBy ([] ++ [n]) = [a] := by simp [ha.header, heldBy]
      rw [hheld]
      exact .last (readable_of_fields (hok n List.mem_cons_self) ha hsize hst) hhas
  | cons x pre ih =>
    obtain ⟨y, hy, hy'⟩ : ∃ y, (pre ++ n :: behind).head? = some y ∧ (pre ++ [n]).head? = some y := by
      cases pre with
      | nil => exact ⟨n, rfl, rfl⟩
      | cons z pre => exact ⟨z, rfl, rfl⟩
    rw [List.cons_append] at hok hshm hstart hdist hnone hm'
    have hmem : y ∈ x :: (pre ++ n :: behind) := List.mem_cons_of_mem x (List.mem_of_head? hy)
    have hxok := hok x List.mem_cons_self
    obtain ⟨a, ha⟩ := hxok.of_isFromShm (hshm x List.mem_cons_self)
    rw [updateLoop, hy, Option.map_some, if_neg (by simpa using (hids x List.mem_cons_self).symm)] at hm'
    rw [heldBy_cons, ha.header, Option.toList_some, List.singleton_append, List.nodup_cons] at hdist
    obtain ⟨hsize, hst, hhas, hnext⟩ := update_fields (m := m) hxok ha (hstart x List.mem_cons_self)
      (some y.slice.offsetInShm) (by rintro _ ⟨⟩; exact offset_lt (hok y hmem) (hshm y hmem))
    have hwrites := (hxok.update (m := m) (some y.slice.offsetInShm)).1
    generalize x.slice.update m (some y.slice.offsetInShm) = m₁ at hsize hst hhas hnext hwrites hm'
    have hok' : ∀ z ∈ pre ++ n :: behind, SliceOk P z.slice := fun z hz => hok z (List.mem_cons_of_mem x hz)
    obtain ⟨hsizes, hlast, hchain⟩ := ih (fun z hz => hids z (List.mem_cons_of_mem x hz)) hok'
      (fun z hz => hshm z (List.mem_cons_of_mem x hz)) (fun z hz => hstart z (List.mem_cons_of_mem x hz)) hdist.2 (by
        intro z hz
        obtain ⟨w, hw, hwz⟩ := List.mem_filterMap.mp hz
        have hslot := ((hok' w hw).refers hwz).1.slot
        have hsame := hxok.frame hwrites hslot (by
          rw [ha.header]
          rintro ⟨⟩
          exact hdist.1 hz)
        rw [BufferHeader.hasNext_congr (hsame.mono le_rfl (by omega))]
        exact hnone z (by rw [heldBy_cons]; exact List.mem_append_right _ hz)) hm'
    -- the headers behind leave that of the first slice alone
    have hsame : SameOn m₁ m' a (a + 20) := by
      rw [← hm']
      exact (updateLoop_frame _ hok' ha.slot hdist.1).mono le_rfl (by omega)
    rw [← BufferHeader.size_congr hsame] at hsize
    rw [← BufferHeader.start_congr hsame] at hst
    rw [← BufferHeader.hasNext_congr hsame] at hhas
    refine ⟨?_, hlast, ?_⟩
    · intro z hz a' ha'
      rcases List.mem_cons.mp hz with rfl | hz
      · rw [ha.header] at ha'
        cases ha'
        exact ⟨hsize, hst⟩
      · exact hsizes z hz a' ha'
    · intro hnil r hr
      rw [List.cons_append, List.head?_cons, Option.map_some, ha.offset] at hr
      cases hr
      have htail := hchain hnil y.slice.offsetInShm (by rw [hy', Option.map_some])
      rw [← hnext _ rfl, ← BufferHeader.nextBufferOffset_congr hsame] at htail
      rw [List.cons_append, heldBy_cons, ha.header, Option.toList_some, List.singleton_append]
      exact .cons (readable_of_fields hxok ha hsize hst) hhas htail

theorem updateLoop_data {lo hi : ℕ} (write : Option ℕ) (ns : List Node) (hout : ∀ a ∈ heldBy ns, a + 20 ≤ lo ∨ hi ≤ a) :
    SameOn m (updateLoop write ns m) lo hi := by
  induction ns generalizing m with
  | nil => exact .refl _ _ _
  | cons x rest ih =>
    rw [heldBy_cons] at hout
    have hsame : SameOn m (x.slice.update m (rest.head?.map fun n => n.slice.offsetInShm)) lo hi := by
      apply SliceOk.sameOn_update
      intro a ha
      exact hout a (by simp [ha])
    rw [updateLoop]
    split_ifs
    · exact hsame
    · exact hsame.trans (ih fun a ha => hout a (List.mem_append_right _ ha))

theorem Valid.done_chain (h : Valid P e m free b) (hshm : b.isFromShm = true) (hne : b.sliceList ≠ [])
    (hstart : ∀ x ∈ b.sliceList, x.slice.start = 0) (hunlinked : ∀ a ∈ b.held, BufferHeader.hasNext m a = false) :
    ∃ m', done P.manager m b = some (m', b) ∧ Updates P e m free b m' ∧ Chain P m' b.rootBufOffset (heldBy b.sliceList) ∧
      (∀ x ∈ b.sliceList, ∀ a, x.slice.bufferHeader = some a →
        BufferHeader.size m' a = x.slice.size ∧ BufferHeader.start m' a = 0) ∧
      ∀ lo hi, (∀ a ∈ heldBy b.sliceList, a + 20 ≤ lo ∨ hi ≤ a) → SameOn m m' lo hi := by
  have hup := updateLoop_updates b.write h.toBase (List.nil_append _).symm
  obtain ⟨pre, n, hsplit⟩ := (List.eq_nil_or_concat' b.sliceList).resolve_left hne
  have hwrite : b.write = some n.id := by rw [h.cursor, back, hsplit, List.getLast?_concat, Option.map_some]
  have hheld : b.held = heldBy b.sliceList ++ heldBy b.pinnedList := by rw [held, nodes, heldBy_append]
  have hdist := h.holds.distinct
  rw [show heldBy b.nodes = b.held from rfl, hheld] at hdist
  have hloop : updateLoop (some n.id) (pre ++ n :: []) m = updateLoop b.write b.sliceList m := by rw [hwrite, hsplit]
  obtain ⟨hfields, -, hchain⟩ := updateLoop_links (P := P) (split_ids hsplit h.toBase).1
    (fun x hx => h.mem_slice (hsplit ▸ hx)) (fun x hx => h.shm hshm x (hsplit ▸ hx)) (fun x hx => hstart x (hsplit ▸ hx))
    (hsplit ▸ (List.nodup_append.mp hdist).1)
    (fun a ha => hunlinked a (by rw [hheld, hsplit]; exact List.mem_append_left _ ha)) hloop
  refine ⟨_, done_shared h hshm, hup, ?_, ?_, fun lo hi hout => updateLoop_data _ _ hout⟩
  · rw [← hsplit] at hchain
    apply hchain rfl
    obtain ⟨y, hy⟩ : ∃ y, b.sliceList.head? = some y := Option.isSome_iff_exists.mp (List.isSome_head?.mpr hne)
    rw [rootBufOffset, hy]
    rfl
  · rw [← hsplit] at hfields
    exact hfields

theorem chain_end (h : Chain P m a A) : ∃ d, A.getLast? = some d ∧ BufferHeader.hasNext m d = false := by
  induction h with
  | last _ hnone => exact ⟨_, rfl, hnone⟩
  | cons _ _ _ ih =>
    obtain ⟨d, hlast, hnone⟩ := ih
    exact ⟨d, by rw [List.getLast?_cons, hlast]; rfl, hnone⟩

end Links

structure Published (P : Pool) (m : Mem) (root : ℕ) (sent gone : List Node) : Prop where
  chain : Chain P m root (heldBy sent)
  sizes : ∀ x ∈ sent, ∀ a, x.slice.bufferHeader = some a → BufferHeader.size m a = x.slice.size
  apart : ∀ a ∈ heldBy sent, BufferHeader.hasNext m a = true → BufferHeader.nextBufferOffset m a ∉ heldBy gone

theorem Draft.done (h : Draft P e m free b) (hshm : b.isFromShm = true) (hc : CursorAt b pre n behind) :
    ∃ m', done P.manager m b = some (m', { b with sliceList := pre ++ [n] }) ∧
      (Published P m' ({ b with sliceList := pre ++ [n] } : LinkedBuffer).rootBufOffset (pre ++ [n]) behind ↔ behind = []) := by
  have hup := updateLoop_updates b.write h.toBase (List.nil_append _).symm
  have hdone : LinkedBuffer.done P.manager m b =
      some (recycleNodes P.manager (updateLoop b.write b.sliceList m) behind, { b with sliceList := pre ++ [n] }) := by
    rw [LinkedBuffer.done, if_pos hshm]
    simp only [hc.write, dropUnused, nodeAt_split hc.split h.toBase, nextOf_split hc.split h.toBase,
      takeWhile_split hc.split h.toBase, Option.map_some]
  rw [hdone]
  refine ⟨_, rfl, ?_⟩
  have hheld : b.held = heldBy (pre ++ n :: behind) ++ heldBy b.pinnedList := by rw [held, nodes, hc.split, heldBy_append]
  have hdist : (heldBy (pre ++ n :: behind) ++ heldBy b.pinnedList).Nodup := by
    rw [← hheld]
    exact h.holds.distinct
  generalize hm₁ : updateLoop b.write b.sliceList m = m₁ at hup
  rw [hc.write, hc.split] at hm₁
  obtain ⟨hsizes, hlast, hchain⟩ := updateLoop_links (P := P) (split_ids hc.split h.toBase).1
    (fun x hx => h.mem_slice (hc.split ▸ hx)) (fun x hx => h.shm hshm x (hc.split ▸ hx))
    (fun x hx => (h.starts x (hc.split ▸ hx)).1) (List.nodup_append.mp hdist).1
    (fun a ha => h.unlinked a (hheld ▸ List.mem_append_left _ ha)) hm₁
  cases behind with
  | nil =>
    refine iff_of_true ⟨hchain rfl _ ?_, fun x hx a ha => (hsizes x hx a ha).1, fun a _ _ => List.not_mem_nil⟩ rfl
    obtain ⟨y, hy⟩ : ∃ y, (pre ++ [n]).head? = some y := by
      cases pre with
      | nil => exact ⟨n, rfl⟩
      | cons z pre => exact ⟨z, rfl⟩
    rw [rootBufOffset, hy]
    rfl
  | cons x rest =>
    refine iff_of_false (fun hpub => ?_) (List.cons_ne_nil x rest)
    -- the write slice is still linked to the slice that was given back
    have hmem : n ∈ b.sliceList := by simp [hc.split]
    obtain ⟨a, ha⟩ := (h.mem_slice hmem).of_isFromShm (h.shm hshm n hmem)
    have hperm : b.nodes.Perm ((pre ++ [n] ++ b.pinnedList) ++ (x :: rest)) := by
      rw [nodes, hc.split, List.append_assoc, List.append_assoc, List.append_assoc, List.singleton_append, List.cons_append]
      exact List.Perm.append_left _ (List.Perm.cons n List.perm_append_comm)
    obtain ⟨-, -, -, hsame⟩ := (hup.base.holds.perm hperm).recycleNodes
    have hkept : SameOn m₁ (recycleNodes P.manager m₁ (x :: rest)) a (a + 20) := by
      refine (hsame _ a ha.slot ?_).mono le_rfl (by omega)
      simp [heldBy_append, heldBy_cons, ha.header]
    obtain ⟨d, hd, hend⟩ := chain_end hpub.chain
    have hda : a = d := by
      rw [heldBy_append, heldBy_cons, ha.header] at hd
      exact Option.some.inj (List.getLast?_concat.symm.trans hd)
    rw [← hda, BufferHeader.hasNext_congr hkept, hlast a ha.header] at hend
    cases hend

end LinkedBuffer

open LinkedBuffer

/-- A buffer that was allocated, with the cursor set to its front, and then written. A span is filled once it is there. -/
inductive Built (P : Pool) (e : Bool) : Mem → LinkedBuffer → Prop
  | alloc {m m' : Mem} {free : ℕ → Prop} {b : LinkedBuffer} {size : ℕ} : P.Free e m free → size < 4294967296 →
      alloc P.manager m .empty size = (m', b) → Built P e m' { b with write := b.front }
  | writeBytes {m m' : Mem} {b b' : LinkedBuffer} {bytes : List UInt8} : Built P e m b →
      writeBytes P.manager m b bytes = some (m', b') → Built P e m' b'
  | reserve {m m₁ m' : Mem} {b b₁ b' : LinkedBuffer} {bytes : List UInt8} {span : ℕ × ℕ} : Built P e m b →
      reserve P.manager m b bytes.length = some (m₁, b₁, .ok span) → fill m₁ b₁ bytes span = some (m', b') →
      Built P e m' b'
  | reserveError {m m' : Mem} {b b' : LinkedBuffer} {size : ℕ} {err : Error} : Built P e m b →
      reserve P.manager m b size = some (m', b', .error err) → Built P e m' b'

namespace Built

variable {P : Pool} {e : Bool} {m m' : Mem} {b b' : LinkedBuffer}

theorem tagged_draft (h : Built P e m b) : Tagged b ∧ (b.isFromShm = true → ∃ free, Draft P e m free b) := by
  induction h with
  | @alloc m m' free b size hfree hsize halloc =>
    have hgrows := Grows.alloc P.manager m .empty size
    rw [halloc] at hgrows
    have hempty : Tagged .empty := ⟨List.nodup_nil, by simp [LinkedBuffer.empty], by simp [LinkedBuffer.empty]⟩
    have htagged : Tagged b := hgrows.tagged hempty
    refine ⟨⟨htagged.1, htagged.2, htagged.3⟩, fun _ => ?_⟩
    obtain ⟨free', hdraft, hw⟩ := (Draft.start hfree).alloc hsize halloc
    exact ⟨free', hdraft.setWriteFront hw⟩
  | writeBytes _ hcall ih =>
    have hgrows := Grows.writeBytes hcall
    refine ⟨hgrows.tagged ih.1, fun hshm => ?_⟩
    obtain ⟨free, hdraft⟩ := ih.2 (hgrows.shared hshm)
    exact hdraft.writeBytes hcall
  | reserve _ hcall hfill ih =>
    have hgrows := Grows.reserve hcall
    have hfills := Grows.fill hfill
    refine ⟨(hgrows.trans hfills).tagged ih.1, fun hshm => ?_⟩
    have hshm₀ := (hgrows.trans hfills).shared hshm
    obtain ⟨free, hdraft⟩ := ih.2 hshm₀
    exact hdraft.reserve hshm₀ hcall hfill
  | reserveError _ hcall ih =>
    have hgrows := Grows.reserve hcall
    refine ⟨hgrows.tagged ih.1, fun hshm => ?_⟩
    obtain ⟨free, hdraft⟩ := ih.2 (hgrows.shared hshm)
    exact hdraft.reserve_error (hgrows.shared hshm) hcall hshm

-- the flag of the buffer tells the truth about its slices
theorem shared (h : Built P e m b) (hshm : ∀ x ∈ b.sliceList, x.slice.isFromShm = true) : b.isFromShm = true := by
  cases hflag : b.isFromShm with
  | true => rfl
  | false =>
    obtain ⟨x, hx, hheap⟩ := h.tagged_draft.1.heap hflag
    rw [hshm x hx] at hheap
    cases hheap

theorem cursor (h : Built P e m b) (hshm : ∀ x ∈ b.sliceList, x.slice.isFromShm = true) {id : ℕ} (hw : b.write = some id) :
    ∃ free pre n, Draft P e m free b ∧ n.id = id ∧ CursorAt b pre n (b.nextOf id) := by
  obtain ⟨free, hdraft⟩ := h.tagged_draft.2 (h.shared hshm)
  rcases hdraft.ready with ⟨hnone, -⟩ | ⟨pre, n, behind, hc⟩
  · rw [hw] at hnone
    cases hnone
  · have hid : n.id = id := Option.some.inj (hc.write.symm.trans hw)
    have hnext := nextOf_split hc.split hdraft.toBase
    rw [hid] at hnext
    exact ⟨free, pre, n, hdraft, hid, hnext ▸ hc⟩

theorem done_publishes (h : Built P e m b) (hshm : ∀ x ∈ b.sliceList, x.slice.isFromShm = true) {id : ℕ}
    (hw : b.write = some id) :
    ∃ m' b', done P.manager m b = some (m', b') ∧ b.sliceList = b'.sliceList ++ b.nextOf id ∧ b'.back = some id ∧
      (Published P m' b'.rootBufOffset b'.sliceList (b.nextOf id) ↔ b.nextOf id = []) := by
  obtain ⟨free, pre, n, hdraft, hid, hc⟩ := h.cursor hshm hw
  obtain ⟨m', hdone, hpub⟩ := hdraft.done (h.shared hshm) hc
  refine ⟨m', _, hdone, ?_, ?_, hpub⟩
  · rw [hc.split, List.append_assoc, List.singleton_append]
  · rw [back, List.getLast?_concat, Option.map_some, hid]

def threeSlots : Pool := Pool.single (n := 3) (by decide) (show _ ≤ 108 by decide) (by decide)

def threeList : BufferList := ⟨0, 3 * (4 + 20), 36⟩

def threeMem : Mem := threeList.created 3 4 ⟨fun _ => 0⟩

-- the region when the bytes are written to slots and linked for the peer
def published (bm : BufferManager) (m : Mem) (bytes : List UInt8) : Option Mem :=
  (LinkedBuffer.writeBytes bm m .empty bytes).bind fun r => (done bm r.1 r.2).map Prod.fst

theorem threeMem_free : threeSlots.Free true threeMem (· ∈ [36, 60, 84]) := Pool.single_free _ _ _ _

theorem threeSlots_slot {d a : ℕ} (h : threeSlots.Slot d a) : a ∈ [36, 60, 84] := by
  obtain ⟨k, hk, -, i, hi, rfl⟩ := h
  rw [List.mem_singleton.mp hk] at hi ⊢
  have hi : i < 3 := hi
  change 36 + i * 24 ∈ [36, 60, 84]
  interval_cases i <;> decide

-- seven bytes take two slots, and both are written
theorem done_publishes_two : ∃ m b m' b', Built threeSlots true m b ∧ b.len = 7 ∧ heldBy b'.sliceList = [36, 60] ∧
    done threeSlots.manager m b = some (m', b') ∧ Published threeSlots m' b'.rootBufOffset b'.sliceList [] := by
  have hwrite : (LinkedBuffer.writeBytes threeSlots.manager (LinkedBuffer.alloc threeSlots.manager threeMem .empty 7).1
      { (LinkedBuffer.alloc threeSlots.manager threeMem .empty 7).2 with
        write := (LinkedBuffer.alloc threeSlots.manager threeMem .empty 7).2.front } [1, 2, 3, 4, 5, 6, 7]).map Prod.snd =
      some ⟨[⟨0, { freshSlice 4 36 with writeIndex := 4 }⟩, ⟨1, { freshSlice 4 60 with writeIndex := 3 }⟩], some 1, [], false, true, 7, 2⟩ := by
    decide +kernel
  obtain ⟨⟨m, b⟩, hwrite, rfl⟩ := Option.map_eq_some_iff.mp hwrite
  have hbuilt := (Built.alloc threeMem_free (show 7 < 4294967296 by decide) Prod.mk.eta.symm).writeBytes hwrite
  obtain ⟨m', b', hdone, hlist, -, hpub⟩ := hbuilt.done_publishes (by decide) (show _ = some 1 from rfl)
  change _ = b'.sliceList ++ [] at hlist
  rw [List.append_nil] at hlist
  exact ⟨m, _, m', b', hbuilt, rfl, by rw [← hlist]; rfl, hdone, hpub.mpr rfl⟩

-- eight bytes take two slots, and the cursor stays at the first
theorem done_links_free_slot : ∃ m b m' b', Built threeSlots true m b ∧ (∀ x ∈ b.sliceList, x.slice.isFromShm = true) ∧
    b.write = some 0 ∧ done threeSlots.manager m b = some (m', b') ∧
      ¬ Published threeSlots m' b'.rootBufOffset b'.sliceList (b.nextOf 0) := by
  have halloc : (LinkedBuffer.alloc threeSlots.manager threeMem .empty 8).2 =
      (LinkedBuffer.empty.pushBack (freshSlice 4 36)).pushBack (freshSlice 4 60) := by
    decide +kernel
  have hbuilt := Built.alloc threeMem_free (show 8 < 4294967296 by decide) Prod.mk.eta.symm
  rw [halloc] at hbuilt
  obtain ⟨free', pre, n, hdraft, -, hc⟩ := hbuilt.cursor (by decide) (show _ = some 0 from rfl)
  obtain ⟨m', hdone, hpub⟩ := hdraft.done rfl hc
  exact ⟨_, _, m', _, hbuilt, by decide, rfl, hdone, fun h => absurd (hpub.mp h) (List.cons_ne_nil _ _)⟩

end Built

end Shmipc
