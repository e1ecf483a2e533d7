import Shmipc.Library.Transition
import Shmipc.ListCreate
import Shmipc.BufferManager

namespace Shmipc.ListFifo

open ByteMemory Transition

inductive Call
  | pop
  | push (slice : BufferSlice)
  | recycle (slice : BufferSlice)
  | rewrite (a size start next : ℕ) (link : Bool) (data : List UInt8)

structure State where
  mem : Mem
  free : List ℕ

def slotOf (slice : BufferSlice) : ℕ := slice.bufferHeader.getD 0

def rewriteSlot (m : Mem) (a size start next : ℕ) (link : Bool) (data : List UInt8) : Mem :=
  let m := BufferHeader.setNext (BufferHeader.setStart (BufferHeader.setSize m a size) a start) a next
  let m := if link then BufferHeader.setHasNext m a
    else BufferHeader.setInUsed (BufferHeader.clearFlag m a) a
  storeBytes m (a + kBufferHeaderSize) data

variable (bm : BufferManager) (l : BufferList) (n c : ℕ)

def exec (m : Mem) : Call → Mem
  | .pop => after (l.pop m)
  | .push slice => l.push m slice
  | .recycle slice => bm.recycleBuffer m slice
  | .rewrite a size start next link data => rewriteSlot m a size start next link data

/-- The queue: `pop` takes the oldest slot unless it is the only one, a slot given back goes to
the end, and a slot that is free cannot be given back. -/
def queueStep (free : List ℕ) : Call → List ℕ
  | .pop => if 2 ≤ free.length then free.tail else free
  | .push slice => free ++ [slotOf slice]
  | .recycle slice => if slotOf slice ∈ free then free else free ++ [slotOf slice]
  | .rewrite .. => free

def Legal (s : State) : Call → Prop
  | .pop => True
  | .push slice => ∃ a, IsSlot l n c a ∧ Alias l c a slice ∧ a ∉ s.free
  | .recycle slice => ∃ a, IsSlot l n c a ∧ Alias l c a slice
  | .rewrite a _ _ _ _ data => IsSlot l n c a ∧ a ∉ s.free ∧ data.length ≤ c

def system (m : Mem) : System State Call where
  initial s := s = ⟨m, l.slots n c⟩
  step s call := some ⟨exec bm l s.mem call, queueStep s.free call⟩

structure Serves (m : Mem) (before behind : List BufferList) : Prop where
  lists : bm.lists = before ++ l :: behind
  cap : ∀ p ∈ before, p.capPerBuffer m ≠ c
  apart : ∀ p ∈ before, p.offsetInShm + 36 ≤ l.offsetInShm ∨
    l.offsetInShm + 36 + n * (c + 20) ≤ p.offsetInShm

structure Refines (s : State) : Prop where
  slot : ∀ a ∈ s.free, IsSlot l n c a
  distinct : s.free.Nodup
  head : s.free.head? = some (l.bufferRegion + l.headLoad s.mem)
  tail : s.free.getLast? = some (l.bufferRegion + l.tailLoad s.mem)
  chain : s.free.IsChain (Links l s.mem)
  last : ∀ a, s.free.getLast? = some a → BufferHeader.hasNext s.mem a = false
  size : l.sizeLoad s.mem = s.free.length
  counter : l.counterLoad s.mem = ((l.slots n c).filter (· ∉ s.free)).length
  total : l.sizeLoad s.mem + l.counterLoad s.mem = l.capLoad s.mem
  noMore : (l.pop s.mem).2 = .error (.ofKind .noMoreBuffer) ↔ s.free.length = 1
  oldest : ∀ a rest, s.free = a :: rest → rest ≠ [] → ∃ slice, (l.pop s.mem).2 = .ok slice ∧
    Alias l c a slice ∧ slice.size = 0 ∧ BufferHeader.hasNext (l.pop s.mem).1 a = false ∧
    BufferHeader.isInUsed (l.pop s.mem).1 a = true
  inUse : ∀ a, IsSlot l n c a → (BufferHeader.isInUsed s.mem a = true ↔ a ∉ s.free)
  keep : ∀ a ∈ s.free, ∀ slice, Alias l c a slice → bm.recycleBuffer s.mem slice = s.mem

structure Inv (before : List BufferList) (s : State) : Prop where
  list : FreeList l n c s.mem s.free
  use : ∀ a, IsSlot l n c a →
    BufferHeader.cap s.mem a = c ∧ (BufferHeader.isInUsed s.mem a = true ↔ a ∉ s.free)
  others : ∀ p ∈ before, p.capPerBuffer s.mem ≠ c

section Rewrite

variable {m : Mem} {a size start next : ℕ} {link : Bool} {data : List UInt8} {lo hi : ℕ}

theorem sameOn_rewriteSlot (h : a + 20 + data.length ≤ lo ∨ hi ≤ a) :
    SameOn m (rewriteSlot m a size start next link data) lo hi := by
  have hh : SameOn m (BufferHeader.setNext (BufferHeader.setStart (BufferHeader.setSize m a size)
      a start) a next) lo hi :=
    ((BufferHeader.sameOn_setSize _ _ _ (by omega)).trans
      (BufferHeader.sameOn_setStart _ _ _ (by omega))).trans
      (BufferHeader.sameOn_setNext _ _ _ (by omega))
  have hd : ∀ m, SameOn m (storeBytes m (a + kBufferHeaderSize) data) lo hi := fun m =>
    sameOn_storeBytes m _ _ (by rw [kBufferHeaderSize_eq]; omega)
  cases link
  · exact (hh.trans ((BufferHeader.sameOn_clearFlag _ _ (by omega)).trans
      (BufferHeader.sameOn_setInUsed _ _ (by omega)))).trans (hd _)
  · exact (hh.trans (BufferHeader.sameOn_setHasNext _ _ (by omega))).trans (hd _)

theorem rewriteSlot_fields (hu : BufferHeader.isInUsed m a = true) :
    BufferHeader.cap (rewriteSlot m a size start next link data) a = BufferHeader.cap m a ∧
    BufferHeader.isInUsed (rewriteSlot m a size start next link data) a = true := by
  have hd : ∀ m, SameOn m (storeBytes m (a + kBufferHeaderSize) data) a (a + 20) := fun m =>
    sameOn_storeBytes m _ _ (by rw [kBufferHeaderSize_eq]; omega)
  simp only [rewriteSlot, BufferHeader.cap_congr (hd _), BufferHeader.isInUsed_congr (hd _)]
  cases link <;> simp [hu]

end Rewrite

variable {bm l n c} {before behind : List BufferList} {s : State} {a : ℕ} {m' : Mem} {L : List ℕ}

theorem slot_range (h : IsSlot l n c a) :
    l.offsetInShm + 36 ≤ a ∧ a + 20 + c ≤ l.offsetInShm + 36 + n * (c + 20) := by
  have h1 := h.le
  have h2 := h.fits
  rw [l.bufferRegion_eq] at h1 h2
  omega

theorem others_congr {m : Mem} (hserve : Serves bm l n c m before behind) (hi : Inv l n c before s)
    (h : ∀ lo hi, hi ≤ l.offsetInShm ∨ l.offsetInShm + 36 + n * (c + 20) ≤ lo →
      SameOn s.mem m' lo hi) : ∀ p ∈ before, p.capPerBuffer m' ≠ c := by
  intro p hp
  have hd := hserve.apart p hp
  rw [(p.words_congr (h _ _ (by omega))).2.2.2.2.1]
  exact hi.others p hp

namespace Inv

variable {m : Mem} (g : Geometry l n c) (hserve : Serves bm l n c m before behind)
  (hi : Inv l n c before s)
include g hserve hi

theorem popped {b : ℕ} (hL : s.free = a :: b :: L) :
    Inv l n c before ⟨l.popped s.mem a (BufferHeader.nextBufferOffset s.mem a), b :: L⟩ := by
  have hlist := hL ▸ hi.list
  have ha := hlist.slot a List.mem_cons_self
  have hrange := slot_range ha
  obtain ⟨-, f2, f3, -⟩ := l.popped_fields (m := s.mem) (BufferHeader.nextBufferOffset s.mem a) ha.le
  refine ⟨hlist.popped g, ?_, others_congr hserve hi fun lo hi h => ?_⟩
  · intro x hx
    by_cases hxa : x = a
    · subst hxa
      exact ⟨f3.trans (hi.use x hx).1, by simpa [f2] using (List.nodup_cons.mp hlist.nodup).1⟩
    · have hd := ha.disjoint hx (fun e => hxa e.symm)
      have hxr := slot_range hx
      have hsame : SameOn s.mem (l.popped s.mem a (BufferHeader.nextBufferOffset s.mem a)) x (x + 20) :=
        l.sameOn_popped _ (by omega) (by omega)
      rw [BufferHeader.cap_congr hsame, BufferHeader.isInUsed_congr hsame]
      refine ⟨(hi.use x hx).1, (hi.use x hx).2.trans ?_⟩
      rw [hL, List.mem_cons, not_or]
      exact ⟨fun h => h.2, fun h => ⟨hxa, h⟩⟩
  · exact l.sameOn_popped _ (by omega) (by omega)

theorem pushed {slice : BufferSlice} (ha : IsSlot l n c a) (hna : a ∉ s.free)
    (hs : Alias l c a slice) : Inv l n c before ⟨l.push s.mem slice, s.free ++ [a]⟩ := by
  have hrange := slot_range ha
  have htail : IsSlot l n c (l.bufferRegion + l.tailLoad s.mem) :=
    hi.list.slot _ (List.mem_of_getLast? hi.list.tail)
  have htr := slot_range htail
  have hmem : l.bufferRegion + l.tailLoad s.mem ∈ s.free := List.mem_of_getLast? hi.list.tail
  have hdt := ha.disjoint htail (fun e => hna (e ▸ hmem))
  have hlist := hi.list.push g ha hna (hi.use a ha).1 hs
  rw [BufferList.push_eq g.arena ha hs] at hlist ⊢
  obtain ⟨-, p2, p3, -⟩ := l.pushed_fields (m := s.mem) (a - l.bufferRegion) ha.le
    (t := l.bufferRegion + l.tailLoad s.mem) (by omega)
  obtain ⟨-, -, t3, t4, -⟩ := l.pushed_tail_fields (m := s.mem) (a := a) (a - l.bufferRegion)
    (t := l.bufferRegion + l.tailLoad s.mem) htail.le (by omega)
    (by have := g.arena.near a ha; omega)
  refine ⟨hlist, ?_, others_congr hserve hi fun lo hi h => ?_⟩
  · intro x hx
    have hxr := slot_range hx
    have hmem' : x ∉ s.free ++ [a] ↔ x ∉ s.free ∧ x ≠ a := by simp
    rw [hmem']
    by_cases hxa : x = a
    · subst hxa
      exact ⟨p3.trans (hi.use x hx).1, by simp [p2]⟩
    · by_cases hxt : x = l.bufferRegion + l.tailLoad s.mem
      · rw [hxt, t3, t4]
        refine ⟨(hi.use _ htail).1, (hi.use _ htail).2.trans ?_⟩
        exact ⟨fun h => absurd hmem h, fun h => h.1⟩
      · have hda := ha.disjoint hx (fun e => hxa e.symm)
        have hdx := htail.disjoint hx (fun e => hxt e.symm)
        have hsame : SameOn s.mem (l.pushed s.mem a (l.bufferRegion + l.tailLoad s.mem)
            (a - l.bufferRegion)) x (x + 20) := l.sameOn_pushed _ (by omega) (by omega) (by omega)
        rw [BufferHeader.cap_congr hsame, BufferHeader.isInUsed_congr hsame]
        exact ⟨(hi.use x hx).1, (hi.use x hx).2.trans ⟨fun h => ⟨h, hxa⟩, fun h => h.1⟩⟩
  · exact l.sameOn_pushed _ (by omega) (by omega) (by omega)

omit g in
theorem rewritten {size start next : ℕ} {link : Bool} {data : List UInt8} (ha : IsSlot l n c a)
    (hna : a ∉ s.free) (hd : data.length ≤ c) :
    Inv l n c before ⟨rewriteSlot s.mem a size start next link data, s.free⟩ := by
  have hrange := slot_range ha
  obtain ⟨f1, f2⟩ := @rewriteSlot_fields s.mem a size start next link data ((hi.use a ha).2.mpr hna)
  have hother : ∀ x, IsSlot l n c x → x ≠ a →
      SameOn s.mem (rewriteSlot s.mem a size start next link data) x (x + 20) := by
    intro x hx hxa
    have hdx := ha.disjoint hx hxa.symm
    exact sameOn_rewriteSlot (by omega)
  refine ⟨hi.list.congr (sameOn_rewriteSlot (by omega))
    (fun x hx => hother x (hi.list.slot x hx) (fun e => hna (e ▸ hx))), ?_,
    others_congr hserve hi fun lo hi h => sameOn_rewriteSlot (by omega)⟩
  intro x hx
  by_cases hxa : x = a
  · subst hxa
    exact ⟨f1.trans (hi.use x hx).1, by simpa [f2] using hna⟩
  · rw [BufferHeader.cap_congr (hother x hx hxa), BufferHeader.isInUsed_congr (hother x hx hxa)]
    exact hi.use x hx

omit g hserve in
theorem recycle_free {slice : BufferSlice} (ha : a ∈ s.free) (hs : Alias l c a slice) :
    bm.recycleBuffer s.mem slice = s.mem := by
  have hu := (hi.list.clean a ha).2.2.1
  simp [BufferManager.recycleBuffer, hs.shm, hs.header, hu]

omit g in
theorem recycle_held {slice : BufferSlice} (ha : IsSlot l n c a) (hna : a ∉ s.free)
    (hs : Alias l c a slice) : bm.recycleBuffer s.mem slice = l.push s.mem slice := by
  have hfind : bm.lists.find? (fun p => decide (c = p.capPerBuffer s.mem)) = some l := by
    rw [hserve.lists, List.find?_append, List.find?_eq_none.mpr, Option.none_or]
    · simp [hi.list.per]
    · intro p hp
      simpa using (hi.others p hp).symm
  simp [BufferManager.recycleBuffer, hs.shm, hs.header, (hi.use a ha).2.mpr hna, hs.cap, hfind]

theorem step {call : Call} (h : Legal l n c s call) :
    Inv l n c before ⟨exec bm l s.mem call, queueStep s.free call⟩ := by
  cases call with
  | pop =>
    rcases hfree : s.free with _ | ⟨x, _ | ⟨y, L⟩⟩
    · exact absurd hi.list.head (by simp [hfree])
    · have hlist : FreeList l n c s.mem [x] := hfree ▸ hi.list
      have hm : exec bm l s.mem .pop = s.mem := by
        rw [exec, hlist.pop_singleton g, after]
      have hq : queueStep [x] .pop = s.free := hfree.symm
      rw [hm, hq]
      exact hi
    · have hlist : FreeList l n c s.mem (x :: y :: L) := hfree ▸ hi.list
      rw [exec, hlist.pop_cons g, after]
      exact popped g hserve hi hfree
  | push slice =>
    obtain ⟨x, hx, hs, hnx⟩ := h
    have hq : queueStep s.free (.push slice) = s.free ++ [x] := by simp [queueStep, slotOf, hs.header]
    rw [exec, hq]
    exact pushed g hserve hi hx hnx hs
  | recycle slice =>
    obtain ⟨x, hx, hs⟩ := h
    rw [exec]
    by_cases hf : x ∈ s.free
    · have hq : queueStep s.free (.recycle slice) = s.free := by simp [queueStep, slotOf, hs.header, hf]
      rw [recycle_free hi hf hs, hq]
      exact hi
    · have hq : queueStep s.free (.recycle slice) = s.free ++ [x] := by
        simp [queueStep, slotOf, hs.header, hf]
      rw [recycle_held hserve hi hx hf hs, hq]
      exact pushed g hserve hi hx hf hs
  | rewrite x size start next link data =>
    obtain ⟨hx, hnx, hd⟩ := h
    exact rewritten hserve hi hx hnx hd

end Inv

theorem held_length (hi : Inv l n c before s) :
    s.free.length + ((l.slots n c).filter (· ∉ s.free)).length = n := by
  have hfree : ((l.slots n c).filter (· ∈ s.free)).Perm s.free := by
    apply (List.perm_ext_iff_of_nodup ((l.slots_nodup n c).filter _) hi.list.nodup).mpr
    intro a
    simp only [List.mem_filter, BufferList.mem_slots, decide_eq_true_eq, and_iff_right_iff_imp]
    exact hi.list.slot a
  have hsplit := List.length_eq_length_filter_add (l := l.slots n c) (fun a => decide (a ∈ s.free))
  rw [hfree.length_eq] at hsplit
  simpa [BufferList.slots] using hsplit.symm

theorem Inv.refines (g : Geometry l n c) (hi : Inv l n c before s) : Refines bm l n c s := by
  have hheld := held_length hi
  have hlist := hi.list
  refine ⟨hlist.slot, hlist.nodup, hlist.head, hlist.tail, hlist.chain, hlist.last, hlist.size, ?_, ?_,
    ?_, ?_, fun a ha => (hi.use a ha).2, fun a ha slice hs => hi.recycle_free ha hs⟩
  · rw [hlist.counter]
    omega
  · rw [hlist.size, hlist.counter, hlist.cap]
    ring
  · rcases hfree : s.free with _ | ⟨a, _ | ⟨b, L⟩⟩
    · exact absurd hlist.head (by simp [hfree])
    · rw [hfree] at hlist
      rw [hlist.pop_singleton g]
      exact ⟨fun _ => rfl, fun _ => rfl⟩
    · rw [hfree] at hlist
      rw [hlist.pop_cons g]
      exact ⟨fun h => absurd h (by simp), fun h => absurd h (by simp)⟩
  · intro a rest hfree hrest
    obtain ⟨b, L, rfl⟩ := List.exists_cons_of_ne_nil hrest
    rw [hfree] at hlist
    have ha := hlist.slot a List.mem_cons_self
    rw [hlist.pop_cons g]
    obtain ⟨f1, f2, -⟩ := l.popped_fields (m := s.mem) (BufferHeader.nextBufferOffset s.mem a) ha.le
    exact ⟨_, rfl, slotSlice_alias l c a, rfl, f1, f2⟩

theorem inv_initial {m m' : Mem} {memLen off : ℕ} (h : BufferList.create n c m memLen off = .ok (l, m'))
    (hw : 36 + n * (c + 20) < 18446744073709551616) (hserve : Serves bm l n c m' before behind) :
    Inv l n c before ⟨m', l.slots n c⟩ := by
  obtain ⟨-, hfree, -⟩ := BufferList.create_geometry h hw
  refine ⟨hfree, fun a ha => ?_, hserve.cap⟩
  obtain ⟨-, -, h3, h4⟩ := hfree.clean a (BufferList.mem_slots.mpr ha)
  exact ⟨h4, by simpa [h3] using BufferList.mem_slots.mpr ha⟩

theorem refines_iff {m m' : Mem} {memLen off : ℕ} (hn : n < 4294967296) (hc : c < 4294967296)
    (h : BufferList.create n c m memLen off = .ok (l, m')) (hserve : Serves bm l n c m' before behind) :
    (∀ s, (system bm l n c m').Reachable (Legal l n c) s → Refines bm l n c s) ↔
      36 + n * (c + 20) < 18446744073709551616 := by
  constructor
  · intro hall
    by_contra hw
    have hsize : l.sizeLoad m' = (l.slots n c).length := (hall _ (.initial rfl)).size
    have hneg := BufferList.create_wrapped h hn hc (by omega)
    omega
  · intro hw s hs
    obtain ⟨g, -⟩ := BufferList.create_geometry h hw
    have hinv : Inv l n c before s := by
      refine hs.invariant (fun s h0 => h0 ▸ inv_initial h hw hserve) fun s call t hi hok hstep => ?_
      exact Option.some.inj hstep ▸ hi.step g hserve hok
    exact hinv.refines g

theorem refines_iff_two :
    (∀ s, (system ⟨[⟨0, 42, 36⟩], 1, 78⟩ ⟨0, 42, 36⟩ 2 1
        (BufferList.created ⟨0, 42, 36⟩ 2 1 ⟨fun _ => 0⟩)).Reachable (Legal ⟨0, 42, 36⟩ 2 1) s →
      Refines ⟨[⟨0, 42, 36⟩], 1, 78⟩ ⟨0, 42, 36⟩ 2 1 s) ↔
      36 + 2 * (1 + 20) < 18446744073709551616 :=
  refines_iff (by decide) (by decide) (show BufferList.create 2 1 ⟨fun _ => 0⟩ 78 0 = _ from rfl)
    (show Serves _ _ _ _ _ [] [] from ⟨rfl, by simp, by simp⟩)

/-- `36 + 4294967290 * (4294967283 + 20)` is `2 ^ 64 + 4294967290`: the list is accepted and starts with
a size of `-6`. -/
theorem not_refines_wrapped :
    BufferList.create 4294967290 4294967283 ⟨fun _ => 0⟩ 4294967295 0 =
      .ok (⟨0, 4294967254, 36⟩, BufferList.created ⟨0, 4294967254, 36⟩ 4294967290 4294967283 ⟨fun _ => 0⟩) ∧
    BufferList.sizeLoad ⟨0, 4294967254, 36⟩
      (BufferList.created ⟨0, 4294967254, 36⟩ 4294967290 4294967283 ⟨fun _ => 0⟩) = -6 ∧
    ¬ ∀ s, (system ⟨[⟨0, 4294967254, 36⟩], 4294967283, 4294967295⟩ ⟨0, 4294967254, 36⟩ 4294967290 4294967283
        (BufferList.created ⟨0, 4294967254, 36⟩ 4294967290 4294967283 ⟨fun _ => 0⟩)).Reachable
        (Legal ⟨0, 4294967254, 36⟩ 4294967290 4294967283) s →
      Refines ⟨[⟨0, 4294967254, 36⟩], 4294967283, 4294967295⟩ ⟨0, 4294967254, 36⟩ 4294967290 4294967283 s := by
  have hsize : BufferList.sizeLoad ⟨0, 4294967254, 36⟩
      (BufferList.created ⟨0, 4294967254, 36⟩ 4294967290 4294967283 ⟨fun _ => 0⟩) = -6 := by
    rw [(BufferList.created_words (by omega) (by omega)).1]
    rfl
  refine ⟨BufferList.create_eq (by decide) (by decide) (by decide) (by decide) (by decide) (by decide)
    (by decide) rfl, hsize, fun hall => ?_⟩
  have hlen := (hall _ (.initial rfl)).size
  rw [hsize] at hlen
  exact absurd hlen (by omega)

end Shmipc.ListFifo
