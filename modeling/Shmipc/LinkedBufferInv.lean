import Shmipc.Holding

namespace Shmipc

open ByteMemory

namespace LinkedBuffer

def nodes (b : LinkedBuffer) : List Node := b.sliceList ++ b.pinnedList

def held (b : LinkedBuffer) : List ℕ := heldBy b.nodes

structure Base (P : Pool) (e : Bool) (m : Mem) (free : ℕ → Prop) (b : LinkedBuffer) : Prop where
  holds : Holds P e m free b.nodes
  ids : (b.nodes.map Node.id).Nodup
  below : ∀ n ∈ b.nodes, n.id < b.nextId
  shm : b.isFromShm = true → ∀ n ∈ b.sliceList, n.slice.isFromShm = true

/-- Between calls the cursor is at the last slice, and `len` is what the slices hold. -/
structure Valid (P : Pool) (e : Bool) (m : Mem) (free : ℕ → Prop) (b : LinkedBuffer) : Prop
    extends Base P e m free b where
  cursor : b.write = b.back
  len : b.len = sizeOf b.sliceList

def numbered : ℕ → List BufferSlice → List Node
  | _, [] => []
  | k, s :: ss => ⟨k, s⟩ :: numbered (k + 1) ss

structure Blank (s : BufferSlice) : Prop where
  start : s.start = 0
  read : s.readIndex = 0
  write : s.writeIndex = 0
  cap : 0 < s.cap

structure CursorAt (b : LinkedBuffer) (pre : List Node) (n : Node) (behind : List Node) : Prop where
  split : b.sliceList = pre ++ n :: behind
  write : b.write = some n.id
  blank : ∀ x ∈ behind, Blank x.slice

def HasCursor (b : LinkedBuffer) : Prop := ∃ pre n behind, CursorAt b pre n behind

def capsOf (ns : List Node) : ℕ := (ns.map fun n => n.slice.cap).sum

variable {P : Pool} {e : Bool} {m m' : Mem} {free free' : ℕ → Prop} {b : LinkedBuffer} {n : Node} {pre behind : List Node}
  {size : ℕ} {s : BufferSlice} {ss : List BufferSlice} {k : ℕ}

theorem foldl_pushBack (ss : List BufferSlice) (b : LinkedBuffer) : ss.foldl pushBack b =
    { b with sliceList := b.sliceList ++ numbered b.nextId ss, nextId := b.nextId + ss.length } := by
  induction ss generalizing b with
  | nil => simp [numbered]
  | cons s ss ih =>
    rw [List.foldl_cons, ih]
    simp only [pushBack, numbered, List.append_assoc, List.singleton_append, List.length_cons, mk.injEq, true_and]
    omega

theorem map_slice_numbered (k : ℕ) (ss : List BufferSlice) : (numbered k ss).map Node.slice = ss := by
  induction ss generalizing k with
  | nil => rfl
  | cons s ss ih => rw [numbered, List.map_cons, ih]

theorem heldBy_numbered (k : ℕ) (ss : List BufferSlice) : heldBy (numbered k ss) = Pool.slots ss := by
  rw [← congrArg Pool.slots (map_slice_numbered k ss), Pool.slots, List.filterMap_map]
  rfl

theorem mem_numbered {k : ℕ} {ss : List BufferSlice} (h : n ∈ numbered k ss) :
    n.slice ∈ ss ∧ k ≤ n.id ∧ n.id < k + ss.length := by
  induction ss generalizing k with
  | nil => cases h
  | cons s ss ih =>
    rcases List.mem_cons.mp h with rfl | h
    · simp
    · obtain ⟨hs, hlo, hhi⟩ := ih h
      exact ⟨List.mem_cons_of_mem s hs, by omega, by simp only [List.length_cons]; omega⟩

theorem nodup_numbered (k : ℕ) (ss : List BufferSlice) : ((numbered k ss).map Node.id).Nodup := by
  induction ss generalizing k with
  | nil => exact List.nodup_nil
  | cons s ss ih =>
    rw [numbered, List.map_cons, List.nodup_cons]
    refine ⟨fun h => ?_, ih (k + 1)⟩
    obtain ⟨n, hn, hid⟩ := List.mem_map.mp h
    have := (mem_numbered hn).2.1
    simp only at hid
    omega

theorem capsOf_numbered (k : ℕ) (ss : List BufferSlice) : capsOf (numbered k ss) = Pool.caps ss := by
  rw [← congrArg Pool.caps (map_slice_numbered k ss), Pool.caps, List.map_map]
  rfl

theorem Valid.empty (h : P.Free e m free) : Valid P e m free .empty :=
  ⟨⟨⟨h, nofun, nofun, List.nodup_nil⟩, List.nodup_nil, nofun, nofun⟩, rfl, rfl⟩

namespace Base

theorem slots (h : Base P e m free b) : ∀ a ∈ b.held, ∃ d, P.Slot d a := by
  intro a ha
  obtain ⟨n, hn, hna⟩ := List.mem_filterMap.mp ha
  exact ⟨_, ((h.holds.ok n hn).refers hna).1.slot⟩

-- the write cursor, the pin of the front and the length play no part in it
theorem congr {c : LinkedBuffer} (h : Base P e m free b) (hs : c.sliceList = b.sliceList)
    (hp : c.pinnedList = b.pinnedList) (hn : c.nextId = b.nextId) (hi : c.isFromShm = b.isFromShm) :
    Base P e m free c := by
  have hnodes : c.nodes = b.nodes := by rw [nodes, nodes, hs, hp]
  exact ⟨hnodes ▸ h.holds, hnodes ▸ h.ids, hnodes ▸ hn ▸ h.below, hi ▸ hs ▸ h.shm⟩

theorem mem_slice (h : Base P e m free b) (hn : n ∈ b.sliceList) : SliceOk P n.slice :=
  h.holds.ok n (List.mem_append_left _ hn)

theorem unread_untouched (h : Base P e m free b) (hsame : Untouched P m m' b.held) :
    unreadOf m' b.sliceList = unreadOf m b.sliceList := by
  refine unreadOf_congr (fun x hx => h.mem_slice hx) (hsame.mono ?_)
  intro a ha
  rw [held, nodes, heldBy_append]
  exact List.mem_append_left _ ha

end Base

-- others have changed the memory, but not the slots of the buffer
theorem Base.others (h : Base P e m free b) (hf : P.Free e m' free') (hown : ∀ a ∈ b.held, ¬ free' a) : Base P e m' free' b where
  holds := ⟨hf, h.holds.ok, hown, h.holds.distinct⟩
  ids := h.ids
  below := h.below
  shm := h.shm

theorem Valid.others (h : Valid P e m free b) (hf : P.Free e m' free') (hown : ∀ a ∈ b.held, ¬ free' a) :
    Valid P e m' free' b := ⟨h.toBase.others hf hown, h.cursor, h.len⟩

section Split

variable (hsplit : b.sliceList = pre ++ n :: behind)
include hsplit

theorem split_ids (h : Base P e m free b) : (∀ x ∈ pre, x.id ≠ n.id) ∧ ∀ x ∈ behind, x.id ≠ n.id := by
  have hids := h.ids
  rw [nodes, hsplit, List.append_assoc, List.cons_append, List.map_append, List.map_cons] at hids
  obtain ⟨-, hrest, hapart⟩ := List.nodup_append.mp hids
  rw [List.nodup_cons] at hrest
  constructor
  · intro x hx
    exact hapart _ (List.mem_map_of_mem hx) _ List.mem_cons_self
  · intro x hx he
    exact hrest.1 (he ▸ List.mem_map_of_mem (List.mem_append_left _ hx))

theorem nodeAt_split (h : Base P e m free b) : b.nodeAt n.id = some n := by
  obtain ⟨hpre, -⟩ := split_ids hsplit h
  rw [nodeAt, hsplit, List.find?_append, List.find?_eq_none.mpr (by simpa using hpre)]
  simp

theorem takeWhile_split (h : Base P e m free b) : b.sliceList.takeWhile (fun x => x.id ≠ n.id) = pre := by
  obtain ⟨hpre, -⟩ := split_ids hsplit h
  rw [hsplit, List.takeWhile_append_of_pos (by simpa using hpre)]
  simp

theorem nextOf_split (h : Base P e m free b) : b.nextOf n.id = behind := by
  obtain ⟨hpre, -⟩ := split_ids hsplit h
  rw [nextOf, hsplit, List.dropWhile_append_of_pos (by simpa using hpre)]
  simp

theorem setSlice_split (h : Base P e m free b) (s : BufferSlice) :
    b.setSlice n.id s = { b with sliceList := pre ++ ⟨n.id, s⟩ :: behind } := by
  obtain ⟨hpre, hbehind⟩ := split_ids hsplit h
  have hkeep : ∀ ns : List Node, (∀ x ∈ ns, x.id ≠ n.id) →
      ns.map (fun x => if x.id = n.id then ⟨n.id, s⟩ else x) = ns := by
    intro ns hns
    rw [List.map_congr_left (g := id), List.map_id]
    intro x hx
    rw [if_neg (hns x hx), id]
  rw [setSlice, hsplit, List.map_append, List.map_cons, if_pos rfl, hkeep pre hpre, hkeep behind hbehind]

theorem Base.replace (h : Base P e m free b) (hw : n.slice.WritesSlot m m') (hok : SliceOk P s)
    (hh : s.bufferHeader = n.slice.bufferHeader) (hshm : s.isFromShm = n.slice.isFromShm) :
    Base P e m' free { b with sliceList := pre ++ ⟨n.id, s⟩ :: behind } ∧
      ({ b with sliceList := pre ++ ⟨n.id, s⟩ :: behind } : LinkedBuffer).held = b.held := by
  have hnodes : b.nodes = pre ++ n :: (behind ++ b.pinnedList) := by simp [nodes, hsplit]
  have hnodes' : ({ b with sliceList := pre ++ ⟨n.id, s⟩ :: behind } : LinkedBuffer).nodes =
      pre ++ ⟨n.id, s⟩ :: (behind ++ b.pinnedList) := by simp [nodes]
  have hn : n ∈ b.nodes := by simp [hnodes]
  obtain ⟨hholds, hheld⟩ := Holds.replace ⟨n.id, s⟩ (hnodes ▸ h.holds) hw hok hh
  refine ⟨⟨hnodes' ▸ hholds, ?_, ?_, ?_⟩, ?_⟩
  · have hids := h.ids
    rw [hnodes] at hids
    rw [hnodes']
    simpa using hids
  · intro x hx
    rw [hnodes'] at hx
    simp only [List.mem_append, List.mem_cons] at hx
    rcases hx with hx | rfl | hx | hx
    · exact h.below x (by simp [hnodes, hx])
    · exact h.below n hn
    · exact h.below x (by simp [hnodes, hx])
    · exact h.below x (by simp [hnodes, hx])
  · intro ht x hx
    have hall := h.shm ht
    rw [hsplit] at hall
    simp only [List.mem_append, List.mem_cons] at hx
    rcases hx with hx | rfl | hx
    · exact hall x (by simp [hx])
    · exact hshm.trans (hall n (by simp))
    · exact hall x (by simp [hx])
  · rw [held, held, hnodes', hheld, ← hnodes]

theorem Base.header_mem {a : ℕ} (ha : n.slice.bufferHeader = some a) : a ∈ b.held :=
  List.mem_filterMap.mpr ⟨n, by simp [nodes, hsplit], ha⟩

theorem Base.exchange (h : Base P e m free b) (hw : n.slice.WritesSlot m m')
    (hu : ∀ a, n.slice.bufferHeader = some a → BufferHeader.isInUsed m' a = BufferHeader.isInUsed m a) :
    Exchange P m free b.held m' free b.held :=
  .writesSlot (h.mem_slice (by simp [hsplit])) hw (fun _ ha => Base.header_mem hsplit ha) h.slots hu

end Split

def grow (b : LinkedBuffer) (new : List Node) (shm : Bool) : LinkedBuffer :=
  { b with
    sliceList := b.sliceList ++ new
    nextId := b.nextId + new.length
    isFromShm := b.isFromShm && shm }

structure Supply (P : Pool) (e : Bool) (m : Mem) (free : ℕ → Prop) (b : LinkedBuffer) (size : ℕ) (m' : Mem)
    (free' : ℕ → Prop) (new : List Node) (shm : Bool) : Prop where
  base : Base P e m' free' (b.grow new shm)
  exchange : Exchange P m free b.held m' free' (b.grow new shm).held
  untouched : Untouched P m m' b.held
  blank : ∀ n ∈ new, Blank n.slice
  enough : size ≤ capsOf new
  tight : ∀ init last, new = init ++ [last] → capsOf init < size
  flags : ∀ a ∈ heldBy new, BufferHeader.isInUsed m' a = true ∧ BufferHeader.hasNext m' a = false

theorem nodes_grow (b : LinkedBuffer) (new : List Node) (shm : Bool) :
    (b.grow new shm).nodes.Perm (b.nodes ++ new) := by
  simp only [nodes, grow, List.append_assoc]
  exact List.Perm.append_left _ List.perm_append_comm

theorem held_grow (b : LinkedBuffer) (new : List Node) (shm : Bool) :
    (b.grow new shm).held.Perm (b.held ++ heldBy new) := by
  rw [held, held, ← heldBy_append]
  exact (nodes_grow b new shm).filterMap _

theorem length_numbered (k : ℕ) (ss : List BufferSlice) : (numbered k ss).length = ss.length := by
  rw [← List.length_map Node.slice, map_slice_numbered]

theorem Base.grow {shm : Bool} (h : Base P e m free b) (hh : Holds P e m' free' (b.nodes ++ numbered b.nextId ss))
    (hshm : shm = true → ∀ s ∈ ss, s.isFromShm = true) :
    Base P e m' free' (b.grow (numbered b.nextId ss) shm) := by
  have hp := nodes_grow b (numbered b.nextId ss) shm
  refine ⟨hh.perm hp.symm, ?_, ?_, ?_⟩
  · rw [(hp.map Node.id).nodup_iff, List.map_append]
    refine h.ids.append (nodup_numbered _ _) ?_
    intro i hi hi'
    obtain ⟨n, hn, rfl⟩ := List.mem_map.mp hi
    obtain ⟨n', hn', hid⟩ := List.mem_map.mp hi'
    have hlt := h.below n hn
    have hle := (mem_numbered hn').2.1
    omega
  · intro n hn
    simp only [LinkedBuffer.grow, length_numbered]
    rcases List.mem_append.mp (hp.mem_iff.mp hn) with hn | hn
    · have := h.below n hn
      omega
    · exact (mem_numbered hn).2.2
  · intro ht n hn
    simp only [LinkedBuffer.grow, Bool.and_eq_true] at ht
    rcases List.mem_append.mp hn with hn | hn
    · exact h.shm ht.1 n hn
    · exact hshm ht.2 _ (mem_numbered hn).1

theorem blank_freshSlice {c a : ℕ} (h : P.Slot c a) : Blank (freshSlice c a) := ⟨rfl, rfl, rfl, h.cap_pos⟩

theorem numbered_append (k : ℕ) (ss ts : List BufferSlice) :
    numbered k (ss ++ ts) = numbered k ss ++ numbered (k + ss.length) ts := by
  induction ss generalizing k with
  | nil => rfl
  | cons s ss ih =>
    simp only [List.cons_append, numbered, ih, List.length_cons]
    congr 3
    omega

-- `hs` holds the heap slice, if one is needed
theorem Supply.of_takes {hs : List BufferSlice} {shm : Bool} (h : Base P e m free b)
    (ht : P.Takes e m free ss m' free')
    (hhs : ∀ s ∈ hs, SliceOk P s ∧ s.bufferHeader = none ∧ Blank s) (hshm : shm = true → hs = [])
    (henough : size ≤ Pool.caps (ss ++ hs))
    (htight : ∀ init last, ss ++ hs = init ++ [last] → Pool.caps init < size) :
    Supply P e m free b size m' free' (numbered b.nextId (ss ++ hs)) shm := by
  have hheap : Pool.slots hs = [] := List.filterMap_eq_nil_iff.mpr fun s hs => (hhs s hs).2.1
  have hheld : heldBy (numbered b.nextId (ss ++ hs)) = Pool.slots ss := by
    rw [heldBy_numbered, Pool.slots, List.filterMap_append]
    change Pool.slots ss ++ Pool.slots hs = _
    rw [hheap, List.append_nil]
  have hholds : Holds P e m' free' (b.nodes ++ numbered b.nextId (ss ++ hs)) := by
    rw [numbered_append, ← List.append_assoc]
    apply (h.holds.takes ht (map_slice_numbered _ _)).plain
    intro n hn
    obtain ⟨hok, hnone, -⟩ := hhs _ (mem_numbered hn).1
    exact ⟨hok, hnone⟩
  constructor
  · apply h.grow hholds
    intro hs' s hs
    rw [hshm hs', List.append_nil] at hs
    exact ht.isFromShm hs
  · apply (Exchange.takes ht h.slots h.holds.owned).congr
    intro a
    rw [(held_grow b _ shm).mem_iff, hheld]
  · intro d a hd ha
    exact ht.frame hd (h.holds.owned a ha)
  · intro n hn
    rcases List.mem_append.mp (mem_numbered hn).1 with hs | hs
    · obtain ⟨c, a, hsa, hslot, -⟩ := ht.mem hs
      rw [hsa]
      exact blank_freshSlice hslot
    · exact (hhs _ hs).2.2
  · rw [capsOf_numbered]
    exact henough
  · intro init last hsplit
    have hslices := congrArg (List.map Node.slice) hsplit
    rw [map_slice_numbered, List.map_append, List.map_singleton] at hslices
    have hlt := htight _ _ hslices
    rwa [Pool.caps, List.map_map] at hlt
  · intro a ha
    rw [hheld] at ha
    obtain ⟨s, hs, hsa⟩ := List.mem_filterMap.mp ha
    obtain ⟨c, a', rfl, -, -, hu, hnext⟩ := ht.mem hs
    cases hsa
    exact ⟨hu, hnext⟩

def heapFor (size : ℕ) : BufferSlice := .fromHeap (List.replicate (max size kDefaultSingleBufferSize) 0)

theorem heapFor_ok (P : Pool) (hsize : size < 4294967296) :
    SliceOk P (heapFor size) ∧ (heapFor size).bufferHeader = none ∧ Blank (heapFor size) ∧
      (heapFor size).cap = max size kDefaultSingleBufferSize := by
  have hlt : max size kDefaultSingleBufferSize < 4294967296 := max_lt hsize (by decide)
  have hcap : (heapFor size).cap = max size kDefaultSingleBufferSize := by
    rw [heapFor, BufferSlice.fromHeap, List.length_replicate, u32, Nat.mod_eq_of_lt hlt]
  refine ⟨.fromHeap (by rwa [List.length_replicate]), rfl, ⟨rfl, rfl, rfl, ?_⟩, hcap⟩
  rw [hcap]
  exact lt_max_of_lt_right (by decide)

theorem pushBack_eq_grow (b : LinkedBuffer) (s : BufferSlice) : b.pushBack s = b.grow (numbered b.nextId [s]) true := by
  simp [pushBack, grow, numbered]

theorem foldl_pushBack_eq_grow (b : LinkedBuffer) (ss : List BufferSlice) :
    ss.foldl pushBack b = b.grow (numbered b.nextId ss) true := by
  simp [foldl_pushBack, grow, length_numbered]

theorem heapSlice_grow (b : LinkedBuffer) (ss : List BufferSlice) (size : ℕ) :
    (b.grow (numbered b.nextId ss) true).heapSlice size = b.grow (numbered b.nextId (ss ++ [heapFor size])) false := by
  simp [heapSlice, pushBack, grow, numbered_append, length_numbered, numbered, heapFor, Nat.add_assoc]

theorem Supply.of_took {c a : ℕ} (h : Base P e m free b) (ht : P.Took e m free c a m') (hpos : 0 < size) (hle : size ≤ c) :
    Supply P e m free b size m' (fun x => free x ∧ x ≠ a) (numbered b.nextId [freshSlice c a]) true := by
  have htakes : P.Takes e m free [freshSlice c a] m' (fun x => free x ∧ x ≠ a) := .cons ht (.nil ht.state)
  refine (Supply.of_takes h htakes (by simp) (fun _ => rfl) ?_ ?_ :
    Supply P e m free b size m' _ (numbered b.nextId ([freshSlice c a] ++ [])) true)
  · simpa [Pool.caps, freshSlice] using hle
  · intro init last hsplit
    cases init with
    | nil => simpa [Pool.caps] using hpos
    | cons s init => simp at hsplit

/-- What `alloc` does: one slot that is large enough, or slots of all lists and a heap slice for the rest. -/
inductive AllocCase (P : Pool) (e : Bool) (m : Mem) (free : ℕ → Prop) (b : LinkedBuffer) (size : ℕ) (r : Mem × LinkedBuffer) : Prop
  | one {c a : ℕ} {m' : Mem} : P.manager.allocShmBuffer m size = (m', .ok (freshSlice c a)) → size ≤ c →
    P.Took e m free c a m' → r = (m', b.grow (numbered b.nextId [freshSlice c a]) true) → AllocCase P e m free b size r
  | many {err : Error} {m' : Mem} {free' : ℕ → Prop} {n : ℤ} {ss hs : List BufferSlice} :
    P.manager.allocShmBuffer m size = (m, .error err) → P.manager.allocShmBuffers m size = (m', n, ss) →
    P.Takes e m free ss m' free' → (∀ init last, ss = init ++ [last] → Pool.caps init < size) →
    hs = (if Pool.caps ss < size then [heapFor (size - Pool.caps ss)] else []) →
    r = (m', b.grow (numbered b.nextId (ss ++ hs)) hs.isEmpty) → AllocCase P e m free b size r

theorem alloc_cases (h : P.Free e m free) (b : LinkedBuffer) (size : ℕ) : AllocCase P e m free b size (alloc P.manager m b size) := by
  rw [alloc]
  rcases h.allocShmBuffer size with ⟨err, he⟩ | ⟨c, a, m', he, hle, ht⟩
  · rcases hmany : P.manager.allocShmBuffers m size with ⟨m', n, ss⟩
    obtain ⟨free', ht, rfl, htight⟩ := h.allocShmBuffers hmany
    refine .many he hmany ht htight rfl ?_
    rw [he, allocFrom, hmany, allocRest, foldl_pushBack_eq_grow]
    by_cases hremain : Pool.caps ss < size
    · have hrest : ((size : ℤ) - (Pool.caps ss : ℤ)).toNat = size - Pool.caps ss := by omega
      rw [if_pos (by omega), if_pos hremain, hrest, heapSlice_grow]
      rfl
    · rw [if_neg (by omega), if_neg hremain, List.append_nil]
      rfl
  · exact .one he hle ht (by rw [he, allocFrom, pushBack_eq_grow])

-- `hs` is the heap slice, if the slots do not reach
theorem caps_heap {hs : List BufferSlice} (P : Pool) (hsize : size < 4294967296)
    (hhs : hs = if Pool.caps ss < size then [heapFor (size - Pool.caps ss)] else [])
    (htight : ∀ init last, ss = init ++ [last] → Pool.caps init < size) :
    size ≤ Pool.caps (ss ++ hs) ∧ ∀ init last, ss ++ hs = init ++ [last] → Pool.caps init < size := by
  by_cases hremain : Pool.caps ss < size
  · rw [if_pos hremain] at hhs
    obtain ⟨-, -, -, hcap⟩ := heapFor_ok P (show size - Pool.caps ss < 4294967296 by omega)
    have hheap : Pool.caps [heapFor (size - Pool.caps ss)] = max (size - Pool.caps ss) kDefaultSingleBufferSize := by
      rw [← hcap, Pool.caps, List.map_singleton, List.sum_singleton]
    have hle := le_max_left (size - Pool.caps ss) kDefaultSingleBufferSize
    subst hhs
    constructor
    · rw [Pool.caps_append, hheap]
      omega
    · intro init last hsplit
      obtain ⟨rfl, -⟩ := List.append_inj' hsplit rfl
      exact hremain
  · rw [if_neg hremain] at hhs
    subst hhs
    rw [List.append_nil]
    exact ⟨not_lt.mp hremain, htight⟩

theorem heap_ok {hs : List BufferSlice} (P : Pool) (hsize : size < 4294967296)
    (hhs : hs = if Pool.caps ss < size then [heapFor (size - Pool.caps ss)] else []) :
    ∀ s ∈ hs, SliceOk P s ∧ s.bufferHeader = none ∧ Blank s := by
  intro s hs'
  rw [hhs] at hs'
  split_ifs at hs'
  · rw [List.mem_singleton.mp hs']
    obtain ⟨hok, hnone, hblank, -⟩ := heapFor_ok P (show size - Pool.caps ss < 4294967296 by omega)
    exact ⟨hok, hnone, hblank⟩
  · cases hs'

theorem alloc_supply (h : Base P e m free b) (hpos : 0 < size) (hsize : size < 4294967296) :
    ∃ m' free' new shm, alloc P.manager m b size = (m', b.grow new shm) ∧
      Supply P e m free b size m' free' new shm := by
  cases alloc_cases h.holds.pool b size with
  | one _ hle ht hr => exact ⟨_, _, _, _, hr, Supply.of_took h ht hpos hle⟩
  | many _ _ ht htight hhs hr =>
    obtain ⟨henough, htight⟩ := caps_heap P hsize hhs htight
    refine ⟨_, _, _, _, hr, Supply.of_takes h ht (heap_ok P hsize hhs) ?_ henough htight⟩
    exact List.isEmpty_iff.mp

end LinkedBuffer

end Shmipc
