import Shmipc.LinkedBufferInv

namespace Shmipc

open ByteMemory

namespace LinkedBuffer

variable {P : Pool} {e : Bool} {m m' m'' : Mem} {free free' free'' : ℕ → Prop} {b b' b'' : LinkedBuffer} {n : Node}
  {pre behind : List Node} {s : BufferSlice} {bytes more : List UInt8}

def AtStart (s : BufferSlice) : Prop := s.start = 0 ∧ s.readIndex = 0

def placeOf (n : Node) : ℕ × ℕ × ℕ := (n.id, n.slice.start, n.slice.readIndex)

def places (b : LinkedBuffer) : List (ℕ × ℕ × ℕ) := b.sliceList.map placeOf

structure Wrote (P : Pool) (e : Bool) (m : Mem) (free : ℕ → Prop) (b : LinkedBuffer) (bytes : List UInt8) (m' : Mem)
    (free' : ℕ → Prop) (b' : LinkedBuffer) : Prop where
  base : Base P e m' free' b'
  exchange : Exchange P m free b.held m' free' b'.held
  unread : unreadOf m' b'.sliceList = unreadOf m b.sliceList ++ bytes
  pinned : b'.pinnedList = b.pinnedList ∧ b'.currentPinned = b.currentPinned
  kept : ∀ a ∈ b.held, a ∈ b'.held ∧ SameOn m m' a (a + 20)
  flags : ∀ a ∈ b'.held, a ∉ b.held → BufferHeader.isInUsed m' a = true ∧ BufferHeader.hasNext m' a = false
  places : ∃ new, b'.places = b.places ++ new ∧ ∀ p ∈ new, p.2 = (0, 0)

theorem Wrote.refl (h : Base P e m free b) : Wrote P e m free b [] m free b where
  base := h
  exchange := .refl _ _ _ _
  unread := (List.append_nil _).symm
  pinned := ⟨rfl, rfl⟩
  kept _ ha := ⟨ha, .refl _ _ _⟩
  flags _ ha hna := absurd ha hna
  places := ⟨[], (List.append_nil _).symm, nofun⟩

theorem Wrote.trans (hb : Base P e m free b) (h : Wrote P e m free b bytes m' free' b')
    (h' : Wrote P e m' free' b' more m'' free'' b'') : Wrote P e m free b (bytes ++ more) m'' free'' b'' where
  base := h'.base
  exchange := h.exchange.trans hb.slots h'.exchange
  unread := by rw [h'.unread, h.unread, List.append_assoc]
  pinned := ⟨h'.pinned.1.trans h.pinned.1, h'.pinned.2.trans h.pinned.2⟩
  kept a ha := by
    obtain ⟨ha', hs⟩ := h.kept a ha
    obtain ⟨ha'', hs'⟩ := h'.kept a ha'
    exact ⟨ha'', hs.trans hs'⟩
  flags a ha hna := by
    by_cases ha' : a ∈ b'.held
    · obtain ⟨-, hs⟩ := h'.kept a ha'
      obtain ⟨hu, hn⟩ := h.flags a ha' hna
      rw [BufferHeader.isInUsed_congr hs, BufferHeader.hasNext_congr hs]
      exact ⟨hu, hn⟩
    · exact h'.flags a ha ha'
  places := by
    obtain ⟨new, hnew, hstart⟩ := h.places
    obtain ⟨new', hnew', hstart'⟩ := h'.places
    refine ⟨new ++ new', by rw [hnew', hnew, List.append_assoc], fun p hp => ?_⟩
    exact (List.mem_append.mp hp).elim (hstart p) (hstart' p)

theorem atStart_iff (n : Node) : AtStart n.slice ↔ (placeOf n).2 = (0, 0) := by
  rw [AtStart, placeOf, Prod.mk.injEq]

theorem Wrote.starts (h : Wrote P e m free b bytes m' free' b') (hstart : ∀ x ∈ b.sliceList, AtStart x.slice) :
    ∀ x ∈ b'.sliceList, AtStart x.slice := by
  intro x hx
  obtain ⟨new, hnew, hblank⟩ := h.places
  have hmem : placeOf x ∈ b'.places := List.mem_map_of_mem hx
  rw [atStart_iff]
  rw [hnew] at hmem
  rcases List.mem_append.mp hmem with hmem | hmem
  · obtain ⟨y, hy, hyx⟩ := List.mem_map.mp hmem
    rw [← hyx, ← atStart_iff]
    exact hstart y hy
  · exact hblank _ hmem

theorem Wrote.congr {c : LinkedBuffer} (h : Wrote P e m free b bytes m' free' b') (hs : c.sliceList = b'.sliceList)
    (hp : c.pinnedList = b'.pinnedList) (hc : c.currentPinned = b'.currentPinned) (hn : c.nextId = b'.nextId)
    (hi : c.isFromShm = b'.isFromShm) : Wrote P e m free b bytes m' free' c := by
  have hnodes : c.nodes = b'.nodes := by rw [nodes, nodes, hs, hp]
  have hheld : c.held = b'.held := by rw [held, held, hnodes]
  constructor
  · exact h.base.congr hs hp hn hi
  · exact hheld ▸ h.exchange
  · rw [hs]
    exact h.unread
  · exact ⟨hp.trans h.pinned.1, hc.trans h.pinned.2⟩
  · exact hheld ▸ h.kept
  · exact hheld ▸ h.flags
  · rw [LinkedBuffer.places, hs]
    exact h.places

theorem Blank.size (h : Blank s) : s.size = 0 := by
  rw [BufferSlice.size, h.read, h.write]
  rfl

theorem Blank.unread (h : Blank s) (m : Mem) : s.unread m = [] := by
  rw [BufferSlice.unread, h.size, Storage.load_zero]

theorem Blank.remain (h : Blank s) : s.remain = s.cap := by
  rw [BufferSlice.remain, h.write, usub_of_le (Nat.zero_le _), Nat.sub_zero]

theorem unreadOf_blank {ns : List Node} (h : ∀ x ∈ ns, Blank x.slice) (m : Mem) : unreadOf m ns = [] := by
  rw [unreadOf, List.flatMap_eq_nil_iff]
  intro x hx
  exact (h x hx).unread m

theorem unreadOf_append (m : Mem) (ns ns' : List Node) : unreadOf m (ns ++ ns') = unreadOf m ns ++ unreadOf m ns' :=
  List.flatMap_append

theorem unreadOf_cons (m : Mem) (x : Node) (ns : List Node) : unreadOf m (x :: ns) = x.slice.unread m ++ unreadOf m ns :=
  List.flatMap_cons

theorem Supply.wrote {size : ℕ} {new : List Node} {shm : Bool} (h : Base P e m free b)
    (hs : Supply P e m free b size m' free' new shm) : Wrote P e m free b [] m' free' (b.grow new shm) := by
  have hmem : ∀ a, a ∈ (b.grow new shm).held ↔ a ∈ b.held ∨ a ∈ heldBy new := by
    intro a
    rw [(held_grow b new shm).mem_iff, List.mem_append]
  constructor
  · exact hs.base
  · exact hs.exchange
  · have hold := h.unread_untouched hs.untouched
    rw [grow, unreadOf_append, hold, unreadOf_blank hs.blank]
  · exact ⟨rfl, rfl⟩
  · intro a ha
    obtain ⟨d, hd⟩ := h.slots a ha
    exact ⟨(hmem a).mpr (.inl ha), (hs.untouched d a hd ha).mono le_rfl (by omega)⟩
  · intro a ha hna
    exact hs.flags a (((hmem a).mp ha).resolve_left hna)
  · refine ⟨new.map placeOf, List.map_append, ?_⟩
    intro p hp
    obtain ⟨x, hx, rfl⟩ := List.mem_map.mp hp
    exact (atStart_iff x).mp ⟨(hs.blank x hx).start, (hs.blank x hx).read⟩

theorem Supply.nonempty {size : ℕ} {new : List Node} {shm : Bool} (hs : Supply P e m free b size m' free' new shm)
    (hpos : 0 < size) : ∃ x rest, new = x :: rest := by
  cases new with
  | nil =>
    have := hs.enough
    simp only [capsOf, List.map_nil, List.sum_nil] at this
    omega
  | cons x rest => exact ⟨x, rest, rfl⟩

theorem Base.extend (h : Base P e m free b) (hsplit : b.sliceList = pre ++ n :: behind)
    (hblank : ∀ x ∈ behind, Blank x.slice) (hfit : bytes.length ≤ n.slice.remain) {data : Storage}
    (hd : n.slice.data.store m n.slice.writeIndex bytes = (m', data)) :
    Wrote P e m free b bytes m' free { b with sliceList := pre ++
      ⟨n.id, { n.slice with data := data, writeIndex := n.slice.writeIndex + bytes.length }⟩ :: behind } := by
  have hn : n ∈ b.sliceList := by simp [hsplit]
  have hok := h.mem_slice hn
  obtain ⟨hok', hunread, hw⟩ := hok.extend hfit hd
  obtain ⟨hbase, hheld⟩ := h.replace hsplit hw.slot hok' rfl rfl
  constructor
  · exact hbase
  · rw [hheld]
    exact h.exchange hsplit hw.slot fun a ha => BufferHeader.isInUsed_congr (hw.header ha)
  · have hnodes : b.nodes = pre ++ n :: (behind ++ b.pinnedList) := by simp [nodes, hsplit]
    have hpre : unreadOf m' pre = unreadOf m pre := by
      apply List.flatMap_congr
      intro x hx
      exact (hnodes ▸ h.holds).unread_others hw.slot (by simp [hx])
    simp only [hsplit, unreadOf_append, hpre, unreadOf_cons, hunread, unreadOf_blank hblank, List.append_nil,
      List.append_assoc]
  · exact ⟨rfl, rfl⟩
  · intro a ha
    refine ⟨hheld ▸ ha, ?_⟩
    by_cases hh : n.slice.bufferHeader = some a
    · exact hw.header hh
    · obtain ⟨d, hd⟩ := h.slots a ha
      exact (hok.frame hw.slot hd hh).mono le_rfl (by omega)
  · intro a ha hna
    exact absurd (hheld ▸ ha) hna
  · refine ⟨[], ?_, List.forall_mem_nil _⟩
    rw [places, places, hsplit, List.append_nil, List.map_append, List.map_append]
    rfl

theorem Base.append (h : Base P e m free b) (hsplit : b.sliceList = pre ++ n :: behind)
    (hblank : ∀ x ∈ behind, Blank x.slice) (hne : bytes ≠ []) :
    ∃ m' s', n.slice.append m bytes = (m', s', min bytes.length n.slice.remain) ∧
      Wrote P e m free b (bytes.take (min bytes.length n.slice.remain)) m' free
        { b with sliceList := pre ++ ⟨n.id, s'⟩ :: behind } := by
  rcases hd : n.slice.data.store m n.slice.writeIndex (bytes.take (min bytes.length n.slice.remain)) with ⟨m', data⟩
  have htake : (bytes.take (min bytes.length n.slice.remain)).length = min bytes.length n.slice.remain := by
    rw [List.length_take, min_eq_left (min_le_left _ _)]
  have hwrote := h.extend hsplit hblank (htake.le.trans (min_le_right _ _)) hd
  rw [htake] at hwrote
  refine ⟨m', _, ?_, hwrote⟩
  rw [BufferSlice.append, if_neg (by simpa using hne)]
  simp only [hd]

-- what is left of a supply behind its first slice
theorem capsOf_cons (x : Node) (ns : List Node) : capsOf (x :: ns) = x.slice.cap + capsOf ns := by
  simp [capsOf]

structure Writing (P : Pool) (e : Bool) (m : Mem) (free : ℕ → Prop) (b : LinkedBuffer) (pre : List Node) (n : Node)
    (behind : List Node) (bytes : List UInt8) : Prop where
  base : Base P e m free b
  split : b.sliceList = pre ++ n :: behind
  cursor : b.write = some n.id
  blank : ∀ x ∈ behind, Blank x.slice
  short : bytes.length < 4294967296
  enough : behind ≠ [] → bytes.length ≤ n.slice.remain + capsOf behind
  tight : ∀ init last, behind = init ++ [last] → n.slice.remain + capsOf init < bytes.length

namespace Writing

-- the cursor at the first of slices that are all blank
theorem of_blank {x : Node} {rest : List Node} (hb : Base P e m free b) (hsplit : b.sliceList = pre ++ x :: rest)
    (hcursor : b.write = some x.id) (hblank : ∀ y ∈ x :: rest, Blank y.slice) (hshort : bytes.length < 4294967296)
    (henough : bytes.length ≤ capsOf (x :: rest))
    (htight : ∀ init last, x :: rest = init ++ [last] → capsOf init < bytes.length) :
    Writing P e m free b pre x rest bytes := by
  have hremain := (hblank x List.mem_cons_self).remain
  refine ⟨hb, hsplit, hcursor, fun y hy => hblank y (List.mem_cons_of_mem x hy), hshort, ?_, ?_⟩
  · intro _
    rw [hremain, ← capsOf_cons]
    exact henough
  · intro init last hrest
    rw [hremain, ← capsOf_cons]
    exact htight (x :: init) last (by rw [hrest, List.cons_append])

theorem last (h : Writing P e m free b pre n behind bytes) (hne : bytes ≠ []) (hfit : bytes.length ≤ n.slice.remain) :
    ∃ m' b', writeRound P.manager m b bytes = some (bytes.length, m', b') ∧
      Wrote P e m free b bytes m' free b' ∧ b'.write = b'.back ∧ b'.len = b.len := by
  have hbehind : behind = [] := by
    rcases List.eq_nil_or_concat' behind with hnil | ⟨init, x, hx⟩
    · exact hnil
    · have := h.tight init x hx
      omega
  have hmin : min bytes.length n.slice.remain = bytes.length := min_eq_left hfit
  obtain ⟨m', s', happ, hwrote⟩ := h.base.append h.split h.blank hne
  rw [hmin] at happ
  rw [hmin, List.take_length] at hwrote
  refine ⟨m', { b with sliceList := pre ++ ⟨n.id, s'⟩ :: behind }, ?_, hwrote, ?_, rfl⟩
  · rw [writeRound, h.cursor, Option.bind_some, nodeAt_split h.split h.base, Option.map_some, happ]
    simp only [setSlice_split h.split h.base, lt_irrefl, if_false]
    rw [h.cursor]
  · simp only [back, hbehind, List.getLast?_concat, h.cursor, Option.map_some]

theorem next (h : Writing P e m free b pre n behind bytes) (hmore : n.slice.remain < bytes.length) :
    ∃ m' free' b' x rest, writeRound P.manager m b bytes = some (n.slice.remain, m', b') ∧
      Wrote P e m free b (bytes.take n.slice.remain) m' free' b' ∧ b'.len = b.len ∧ Blank x.slice ∧
      ∃ pre', Writing P e m' free' b' pre' x rest (bytes.drop n.slice.remain) := by
  have hne : bytes ≠ [] := by
    rintro rfl
    simp at hmore
  have hshort := h.short
  have hmin : min bytes.length n.slice.remain = n.slice.remain := min_eq_right hmore.le
  have hdrop : (bytes.drop n.slice.remain).length = bytes.length - n.slice.remain := List.length_drop
  obtain ⟨m₁, s₁, happ, hwrote⟩ := h.base.append h.split h.blank hne
  rw [hmin] at happ hwrote
  generalize hb₁ : ({ b with sliceList := pre ++ ⟨n.id, s₁⟩ :: behind } : LinkedBuffer) = b₁ at hwrote
  have hsplit₁ : b₁.sliceList = pre ++ ⟨n.id, s₁⟩ :: behind := by rw [← hb₁]
  have hround : writeRound P.manager m b bytes = some (n.slice.remain,
      setWrite (fun b => (b.nextOf n.id).head?.map Node.id)
        (if behind = [] then alloc P.manager m₁ b₁ (u32 (bytes.length - n.slice.remain)) else (m₁, b₁))) := by
    rw [writeRound, h.cursor, Option.bind_some, nodeAt_split h.split h.base, Option.map_some, happ]
    simp only [setSlice_split h.split h.base, if_pos hmore, hb₁]
    rw [nextOf_split hsplit₁ hwrote.base]
  have hlen₁ : b₁.len = b.len := by rw [← hb₁]
  cases behind with
  | nil =>
    have hsize : u32 (bytes.length - n.slice.remain) = bytes.length - n.slice.remain := by
      rw [u32, Nat.mod_eq_of_lt]
      omega
    obtain ⟨m', free', new, shm, halloc, hs⟩ := alloc_supply hwrote.base
      (show 0 < bytes.length - n.slice.remain by omega) (by omega)
    obtain ⟨x, rest, rfl⟩ := hs.nonempty (by omega)
    have hsplit' : (b₁.grow (x :: rest) shm).sliceList = pre ++ ⟨n.id, s₁⟩ :: (x :: rest) := by
      rw [grow, hsplit₁, List.append_assoc, List.singleton_append]
    have hnext : (b₁.grow (x :: rest) shm).nextOf n.id = x :: rest :=
      nextOf_split (n := ⟨n.id, s₁⟩) hsplit' hs.base
    have hall := hwrote.trans h.base (hs.wrote hwrote.base)
    rw [List.append_nil] at hall
    have hmoved : Wrote P e m free b (bytes.take n.slice.remain) m' free'
        { b₁.grow (x :: rest) shm with write := some x.id } := hall.congr rfl rfl rfl rfl rfl
    refine ⟨m', free', { b₁.grow (x :: rest) shm with write := some x.id }, x, rest, ?_, hmoved, hlen₁,
      hs.blank x List.mem_cons_self, pre ++ [⟨n.id, s₁⟩], .of_blank hmoved.base ?_ rfl hs.blank (by omega) ?_ ?_⟩
    · rw [hround, if_pos rfl, hsize, halloc, setWrite]
      simp only [hnext, List.head?_cons, Option.map_some]
    · rw [List.append_assoc, List.singleton_append]
      exact hsplit'
    · rw [hdrop]
      exact hs.enough
    · rw [hdrop]
      exact hs.tight
  | cons x rest =>
    have hmoved : Wrote P e m free b (bytes.take n.slice.remain) m₁ free { b₁ with write := some x.id } :=
      hwrote.congr rfl rfl rfl rfl rfl
    refine ⟨m₁, free, { b₁ with write := some x.id }, x, rest, ?_, hmoved, hlen₁, h.blank x List.mem_cons_self,
      pre ++ [⟨n.id, s₁⟩], .of_blank hmoved.base ?_ rfl h.blank (by omega) ?_ ?_⟩
    · rw [hround, if_neg (by simp), setWrite]
      simp only [nextOf_split (n := ⟨n.id, s₁⟩) hsplit₁ hwrote.base, List.head?_cons, Option.map_some]
    · rw [List.append_assoc, List.singleton_append]
      exact hsplit₁
    · have := h.enough (List.cons_ne_nil x rest)
      omega
    · intro init last hrest
      have := h.tight init last hrest
      omega

-- every round but one at a full slice writes a byte
theorem loop {fuel : ℕ} (h : Writing P e m free b pre n behind bytes) (hne : bytes ≠ [])
    (hfuel : bytes.length + (if n.slice.remain = 0 then 1 else 0) ≤ fuel) :
    ∃ m' free' b', writeLoop P.manager fuel m b bytes = some (m', b') ∧ Wrote P e m free b bytes m' free' b' ∧
      b'.write = b'.back ∧ b'.len = b.len := by
  induction fuel generalizing m free b pre n behind bytes with
  | zero =>
    have := List.length_pos_iff.mpr hne
    omega
  | succ fuel ih =>
    rw [writeLoop]
    by_cases hfit : bytes.length ≤ n.slice.remain
    · obtain ⟨m', b', hround, hwrote, hback, hlen⟩ := h.last hne hfit
      refine ⟨m', free, b', ?_, hwrote, hback, hlen⟩
      rw [hround, Option.bind_some]
      simp only [lt_irrefl, if_false]
    · rw [Nat.not_le] at hfit
      obtain ⟨m₁, free₁, b₁, x, rest, hround, hwrote, hlen₁, hblank, pre', hw⟩ := h.next hfit
      have hdrop : (bytes.drop n.slice.remain).length = bytes.length - n.slice.remain := List.length_drop
      have hne' : bytes.drop n.slice.remain ≠ [] := by
        intro hnil
        rw [hnil, List.length_nil] at hdrop
        omega
      have hpos : x.slice.remain ≠ 0 := by
        have := hblank.cap
        rw [hblank.remain]
        omega
      obtain ⟨m', free', b', hloop, hwrote', hback, hlen'⟩ := ih hw hne' (by
        rw [if_neg hpos, hdrop]
        split_ifs at hfuel <;> omega)
      refine ⟨m', free', b', ?_, ?_, hback, hlen'.trans hlen₁⟩
      · rw [hround, Option.bind_some]
        simp only [if_pos hfit]
        exact hloop
      · have hall := hwrote.trans h.base hwrote'
        rwa [List.take_append_drop] at hall

end Writing

/-- The cursor after the first lines of `write_bytes` and `reserve`: at the last slice as before, or at
the first of the slices that were allocated. -/
theorem openWrite_cases {size : ℕ} (h : Valid P e m free b) (hpos : 0 < size) (hsize : size < 4294967296) :
    (∃ pre n, b.sliceList = pre ++ [n] ∧ b.write = some n.id ∧ openWrite P.manager m b size = (m, b)) ∨
    ∃ m' free' x rest shm, b.sliceList = [] ∧
      openWrite P.manager m b size = (m', { b.grow (x :: rest) shm with write := some x.id }) ∧
      Supply P e m free b size m' free' (x :: rest) shm := by
  rcases List.eq_nil_or_concat' b.sliceList with hnil | ⟨pre, n, hsplit⟩
  · right
    have hwrite : b.write = none := by rw [h.cursor, back, hnil]; rfl
    obtain ⟨m', free', new, shm, halloc, hs⟩ := alloc_supply h.toBase hpos hsize
    obtain ⟨x, rest, rfl⟩ := hs.nonempty hpos
    refine ⟨m', free', x, rest, shm, hnil, ?_, hs⟩
    rw [openWrite, if_pos hwrite, u32, Nat.mod_eq_of_lt hsize, halloc, setWrite]
    simp [front, grow, hnil]
  · left
    have hwrite : b.write = some n.id := by rw [h.cursor, back, hsplit, List.getLast?_concat, Option.map_some]
    exact ⟨pre, n, hsplit, hwrite, by rw [openWrite, if_neg (by simp [hwrite])]⟩

theorem Valid.of_wrote (hv : Valid P e m free b) (h : Wrote P e m free b bytes m' free' b')
    (hback : b'.write = b'.back) (hlen : b'.len = b.len + bytes.length) : Valid P e m' free' b' := by
  refine ⟨h.base, hback, ?_⟩
  have hsize := congrArg List.length h.unread
  rw [unreadOf_length (fun x hx => h.base.mem_slice hx), List.length_append,
    unreadOf_length (fun x hx => hv.mem_slice hx)] at hsize
  rw [hsize, hlen, hv.len]

def Puts (P : Pool) (e : Bool) (m : Mem) (free : ℕ → Prop) (b : LinkedBuffer) (bytes : List UInt8)
    (r : Option (Mem × LinkedBuffer)) : Prop :=
  ∃ m' free' b', r = some (m', b') ∧ Wrote P e m free b bytes m' free' b' ∧ b'.write = b'.back ∧
    b'.len = b.len + bytes.length

theorem Puts.after {c : LinkedBuffer} {r : Option (Mem × LinkedBuffer)} (hb : Base P e m free b)
    (h : Wrote P e m free b [] m' free' c) (hlen : c.len = b.len) (hr : Puts P e m' free' c bytes r) :
    Puts P e m free b bytes r := by
  obtain ⟨m'', free'', b', hr, hw, hback, hlen'⟩ := hr
  exact ⟨m'', free'', b', hr, h.trans hb hw, hback, hlen ▸ hlen'⟩

theorem Writing.puts (h : Writing P e m free b pre n behind bytes) (hne : bytes ≠ []) :
    Puts P e m free b bytes ((writeLoop P.manager (bytes.length + 1) m b bytes).map fun r =>
      (r.1, { r.2 with len := r.2.len + bytes.length })) := by
  have hfuel : bytes.length + (if n.slice.remain = 0 then 1 else 0) ≤ bytes.length + 1 := by split_ifs <;> omega
  obtain ⟨m', free', b', hloop, hwrote, hback, hlen⟩ := h.loop hne hfuel
  refine ⟨m', free', { b' with len := b'.len + bytes.length }, ?_, hwrote.congr rfl rfl rfl rfl rfl, hback, ?_⟩
  · rw [hloop, Option.map_some]
  · simp only [hlen]

theorem writeBytes_puts (h : Valid P e m free b) (hlen : bytes.length < 4294967296) :
    Puts P e m free b bytes (writeBytes P.manager m b bytes) := by
  rw [writeBytes]
  by_cases hne : bytes = []
  · subst hne
    exact ⟨m, free, b, rfl, .refl h.toBase, h.cursor, rfl⟩
  rw [if_neg (by simpa using hne)]
  have hpos := List.length_pos_iff.mpr hne
  rcases openWrite_cases h hpos hlen with ⟨pre, n, hsplit, hcursor, hopen⟩ | ⟨m', free', x, rest, shm, hnil, hopen, hs⟩
  · rw [hopen]
    refine Writing.puts (n := n) ⟨h.toBase, hsplit, hcursor, by simp, hlen, by simp, ?_⟩ hne
    intro init last hcut
    simp at hcut
  · rw [hopen]
    have hwrote : Wrote P e m free b [] m' free' { b.grow (x :: rest) shm with write := some x.id } :=
      (hs.wrote h.toBase).congr rfl rfl rfl rfl rfl
    have hsplit : (b.grow (x :: rest) shm).sliceList = [] ++ x :: rest := by rw [grow, hnil]
    apply Puts.after h.toBase hwrote rfl
    exact Writing.puts (.of_blank hwrote.base hsplit rfl hs.blank hlen hs.enough hs.tight) hne

def fill (m : Mem) (b : LinkedBuffer) (bytes : List UInt8) (span : ℕ × ℕ) : Option (Mem × LinkedBuffer) :=
  (b.nodeAt span.1).map fun node =>
    let (m, data) := node.slice.data.store m span.2 bytes
    (m, b.setSlice span.1 { node.slice with data := data })

def reserveFill (bytes : List UInt8) (r : Option (Mem × LinkedBuffer × Result (ℕ × ℕ))) : Option (Mem × LinkedBuffer) :=
  r.bind fun r => r.2.2.toOption.bind (fill r.1 r.2.1 bytes)

section Reserve

theorem reserveAt_none {size : ℕ} (h : ¬ size ≤ n.slice.remain) : reserveAt m b n size = none := by
  rw [reserveAt, BufferSlice.reserve, if_neg h]

theorem reserveAt_puts (h : Base P e m free b) (hsplit : b.sliceList = pre ++ [n]) (hfit : bytes.length ≤ n.slice.remain) :
    ∃ r, reserveAt m b n bytes.length = some r ∧ Puts P e m free b bytes (reserveFill bytes (some r)) := by
  rcases hd : n.slice.data.store m n.slice.writeIndex bytes with ⟨m', data⟩
  have hwrote := h.extend hsplit (by simp) hfit hd
  have hbase := (h.replace hsplit (.refl _ _) ((h.mem_slice (by simp [hsplit])).reserve hfit) rfl rfl).1
  generalize hn' : ({ n.slice with writeIndex := n.slice.writeIndex + bytes.length } : BufferSlice) = s at hbase
  have hres : reserveAt m b n bytes.length = some (m, { b with
      sliceList := pre ++ [⟨n.id, s⟩]
      write := some n.id
      len := b.len + bytes.length }, .ok (n.id, n.slice.writeIndex)) := by
    rw [reserveAt, BufferSlice.reserve, if_pos hfit]
    simp only [setSlice_split hsplit h, hn']
  refine ⟨_, hres, m', free, { b with
    sliceList := pre ++ [⟨n.id, { s with data := data }⟩]
    write := some n.id
    len := b.len + bytes.length }, ?_, ?_, ?_, rfl⟩
  · have hc : Base P e m free { b with
        sliceList := pre ++ [⟨n.id, s⟩]
        write := some n.id
        len := b.len + bytes.length } := hbase.congr rfl rfl rfl rfl
    simp only [reserveFill, Option.bind_some, Except.toOption, fill, nodeAt_split (n := ⟨n.id, s⟩) rfl hc,
      setSlice_split (n := ⟨n.id, s⟩) rfl hc, Option.map_some]
    rw [← hn']
    simp only [hd]
  · rw [← hn']
    exact hwrote.congr rfl rfl rfl rfl rfl
  · simp only [back, List.getLast?_concat, Option.map_some]

theorem reserveNew_supply {size : ℕ} (h : Base P e m free b) (hpos : 0 < size) (hsize : size < 4294967296) :
    ∃ m' free' x shm, reserveNew b size (P.manager.allocShmBuffer m (u32 size)) =
      (m', { b.grow [x] shm with write := some x.id }) ∧ Supply P e m free b size m' free' [x] shm := by
  rw [u32, Nat.mod_eq_of_lt hsize]
  rcases h.holds.pool.allocShmBuffer size with ⟨err, he⟩ | ⟨c, a, m', he, hle, ht⟩
  · obtain ⟨hok, hnone, hblank, hcap⟩ := heapFor_ok P hsize
    have hs : Supply P e m free b size m free (numbered b.nextId ([] ++ [heapFor size])) false := by
      refine .of_takes h (.nil h.holds.pool) ?_ (by simp) ?_ ?_
      · intro s hs
        rw [List.mem_singleton.mp hs]
        exact ⟨hok, hnone, hblank⟩
      · simp [Pool.caps, hcap]
      · intro init last hcut
        obtain ⟨rfl, -⟩ := List.append_inj' hcut rfl
        simpa [Pool.caps] using hpos
    refine ⟨m, free, ⟨b.nextId, heapFor size⟩, false, ?_, hs⟩
    rw [he, reserveNew, setWrite]
    simp [heapSlice, pushBack, grow, back, heapFor]
  · refine ⟨m', _, ⟨b.nextId, freshSlice c a⟩, true, ?_, Supply.of_took h ht hpos hle⟩
    rw [he, reserveNew, setWrite]
    simp [pushBack, grow, back]

theorem Supply.fits {size : ℕ} {x : Node} {shm : Bool} (hs : Supply P e m free b size m' free' [x] shm) :
    size ≤ x.slice.remain := by
  rw [(hs.blank x List.mem_cons_self).remain]
  simpa [capsOf] using hs.enough

theorem reserveNew_puts (h : Base P e m free b) (hne : bytes ≠ []) (hlen : bytes.length < 4294967296) :
    Puts P e m free b bytes (reserveFill bytes
      (let (m, b) := reserveNew b bytes.length (P.manager.allocShmBuffer m (u32 bytes.length))
      b.write.bind fun id => (b.nodeAt id).bind fun node => (reserveAt m b node bytes.length).or
        (some (m, { b with len := b.len + bytes.length }, .error (.ofKind .noMoreBuffer))))) := by
  obtain ⟨m', free', x, shm, hnew, hs⟩ := reserveNew_supply h (List.length_pos_iff.mpr hne) hlen
  have hwrote : Wrote P e m free b [] m' free' { b.grow [x] shm with write := some x.id } :=
    (hs.wrote h).congr rfl rfl rfl rfl rfl
  obtain ⟨r, hr, hputs⟩ := reserveAt_puts hwrote.base (n := x) rfl hs.fits
  rw [hnew]
  simp only [Option.bind_some, nodeAt_split (n := x) rfl hwrote.base, hr, Option.some_or]
  exact hputs.after h hwrote rfl

-- a slice that has room for the bytes has no slice behind it
theorem reserve_of_open {c : LinkedBuffer} (hopen : openWrite P.manager m b bytes.length = (m', c))
    (h : Base P e m' free' c) (hsplit : c.sliceList = pre ++ n :: behind) (hcursor : c.write = some n.id)
    (hlast : ∀ init x after, n :: behind = init ++ x :: after → bytes.length ≤ x.slice.remain → after = [])
    (hlen : bytes.length < 4294967296) :
    Puts P e m' free' c bytes (reserveFill bytes (reserve P.manager m b bytes.length)) := by
  rw [reserve, hopen]
  simp only [hcursor, Option.bind_some, nodeAt_split hsplit h, nextOf_split hsplit h]
  by_cases hfit : bytes.length ≤ n.slice.remain
  · have hnil := hlast [] n behind rfl hfit
    rw [hnil] at hsplit
    obtain ⟨r, hr, hputs⟩ := reserveAt_puts h hsplit hfit
    rw [hr, Option.some_or]
    exact hputs
  have hne : bytes ≠ [] := by
    rintro rfl
    exact hfit (Nat.zero_le _)
  rw [reserveAt_none hfit, Option.none_or]
  cases behind with
  | nil => exact reserveNew_puts h hne hlen
  | cons x rest =>
    rw [List.head?_cons, Option.bind_some]
    by_cases hfit' : bytes.length ≤ x.slice.remain
    · have hnil := hlast [n] x rest rfl hfit'
      have hsplit' : c.sliceList = (pre ++ [n]) ++ [x] := by rw [hsplit, hnil, List.append_assoc, List.singleton_append]
      obtain ⟨r, hr, hputs⟩ := reserveAt_puts h hsplit' hfit'
      rw [hr, Option.some_or]
      exact hputs
    · rw [reserveAt_none hfit', Option.none_or]
      exact reserveNew_puts h hne hlen

theorem reserve_puts (h : Valid P e m free b) (hne : bytes ≠ []) (hlen : bytes.length < 4294967296) :
    Puts P e m free b bytes (reserveFill bytes (reserve P.manager m b bytes.length)) := by
  rcases openWrite_cases h (List.length_pos_iff.mpr hne) hlen with
    ⟨pre, n, hsplit, hcursor, hopen⟩ | ⟨m', free', x, rest, shm, hnil, hopen, hs⟩
  · refine reserve_of_open hopen h.toBase hsplit hcursor ?_ hlen
    intro init x after hcut _
    cases init with
    | nil => exact (List.cons.inj hcut).2.symm
    | cons y init => simp at hcut
  · have hwrote : Wrote P e m free b [] m' free' { b.grow (x :: rest) shm with write := some x.id } :=
      (hs.wrote h.toBase).congr rfl rfl rfl rfl rfl
    have hsplit : (b.grow (x :: rest) shm).sliceList = [] ++ x :: rest := by rw [grow, hnil]
    refine Puts.after h.toBase hwrote rfl (reserve_of_open hopen hwrote.base hsplit rfl ?_ hlen)
    intro init y after hcut hfit
    rcases List.eq_nil_or_concat' after with hnil | ⟨mid, last, rfl⟩
    · exact hnil
    · have htight := hs.tight (init ++ y :: mid) last (by rw [hcut, List.append_assoc, List.cons_append])
      rw [(hs.blank y (by rw [hcut]; simp)).remain] at hfit
      simp only [capsOf, List.map_append, List.map_cons, List.sum_append, List.sum_cons] at htight
      omega

end Reserve

end LinkedBuffer

end Shmipc
