import Shmipc.Library.LinkWalk
import Shmipc.FlushSends

namespace Shmipc

open ByteMemory LinkWalk

namespace BufferManager

variable (bm : BufferManager) (m : Mem) (off : ℕ)

def link (a : ℕ) : Option (Option ℕ) :=
  match bm.readBufferSlice m a with
  | .error _ => none
  | .ok _ => some (if BufferHeader.hasNext m a then some (BufferHeader.nextBufferOffset m a) else none)

def home (a : ℕ) : Option BufferList := bm.lists.find? fun l => BufferHeader.cap m a = l.capPerBuffer m

def recycleTarget (a : ℕ) : Option BufferList := if BufferHeader.isInUsed m a then bm.home m a else none

def recycled : List ℕ → Mem
  | [] => m
  | a :: V => bm.recycleBuffer (recycled V) (slotView (recycled V) a)

section Relinked

variable (target : ℕ → Option BufferList)

def tailAt (l : BufferList) : List ℕ → ℕ
  | [] => l.bufferRegion + l.tailLoad m
  | a :: V => if target a = some l then a else tailAt l V

/-- The link that the pushes of the slots of `V` have left in the header at `x`: a push links the tail slot of its list. -/
def relinked : List ℕ → ℕ → Option ℕ
  | [], _ => none
  | a :: V, x =>
    match target a with
    | some l => if tailAt m target l V = x then some (a - l.bufferRegion) else relinked V x
    | none => relinked V x

def linkAfter (V : List ℕ) (a : ℕ) : Option (Option ℕ) := (bm.link m a).map fun next => (relinked m target V a).or next

def OnWay (a : ℕ) : Prop := (∃ V, Trail (bm.linkAfter m target) off V a) ∧ a + kBufferHeaderSize < bm.memSize

def Pushes (a : ℕ) (l : BufferList) : Prop := bm.OnWay m off target a ∧ target a = some l

/-- A push writes the header of its slot, the header of its list and the header of the tail slot. None of the three overlaps
a part of a header on the way or the header of another list. -/
structure Undisturbed : Prop where
  slots : ∀ a l x, bm.Pushes m off target a l → bm.OnWay m off target x → a ≠ x → a + 20 ≤ x ∨ x + 20 ≤ a
  base : ∀ a l, bm.Pushes m off target a l → l.bufferRegion ≤ a
  region : ∀ a l, bm.Pushes m off target a l → l.bufferRegionOffsetInShm = l.bufferRegion
  header : ∀ a l x, bm.Pushes m off target a l → bm.OnWay m off target x → x + 20 ≤ l.offsetInShm ∨ l.offsetInShm + 36 ≤ x
  tail : ∀ a l x, bm.Pushes m off target a l → bm.OnWay m off target x → x = l.bufferRegion + l.tailLoad m ∨
    x + 20 ≤ l.bufferRegion + l.tailLoad m ∨ l.bufferRegion + l.tailLoad m + 20 ≤ x
  slotHeaders : ∀ a l l', bm.Pushes m off target a l → l' ∈ bm.lists → a + 20 ≤ l'.offsetInShm ∨ l'.offsetInShm + 36 ≤ a
  lists : ∀ a l l', bm.Pushes m off target a l → l' ∈ bm.lists → l ≠ l' →
    l.offsetInShm + 36 ≤ l'.offsetInShm ∨ l'.offsetInShm + 36 ≤ l.offsetInShm
  tailHeaders : ∀ a l l', bm.Pushes m off target a l → l' ∈ bm.lists →
    l.bufferRegion + l.tailLoad m + 20 ≤ l'.offsetInShm ∨ l'.offsetInShm + 36 ≤ l.bufferRegion + l.tailLoad m

end Relinked

end BufferManager

namespace ChainWalks

open BufferManager

variable {bm : BufferManager} {m m' : Mem} {off a x : ℕ} {A V : List ℕ} {l : BufferList} {s : BufferSlice} {o : Option ℕ}

section Reading

def Reads (bm : BufferManager) (m : Mem) (a : ℕ) : Prop :=
  a + kBufferHeaderSize < bm.memSize ∧ u32 (a + kBufferHeaderSize + BufferHeader.cap m a) ≤ bm.memSize

theorem read_of_reads (h : Reads bm m a) : bm.readBufferSlice m a = .ok (slotView m a) := by
  rw [readBufferSlice, if_neg (not_le.mpr h.1)]
  change (if u32 (a + kBufferHeaderSize + BufferHeader.cap m a) > bm.memSize then _ else _) = _
  rw [if_neg (not_lt.mpr h.2)]
  rfl

theorem read_of_not_reads (h : ¬ Reads bm m a) : ∃ err, bm.readBufferSlice m a = .error err := by
  rw [readBufferSlice]
  by_cases hlow : a + kBufferHeaderSize ≥ bm.memSize
  · exact ⟨_, if_pos hlow⟩
  · rw [if_neg hlow]
    change ∃ err, (if u32 (a + kBufferHeaderSize + BufferHeader.cap m a) > bm.memSize then _ else _) = _
    rw [if_pos (not_le.mp fun hend => h ⟨not_le.mp hlow, hend⟩)]
    exact ⟨_, rfl⟩

theorem link_of_reads (h : Reads bm m a) :
    bm.link m a = some (if BufferHeader.hasNext m a then some (BufferHeader.nextBufferOffset m a) else none) := by
  rw [link, read_of_reads h]

theorem link_of_not_reads (h : ¬ Reads bm m a) : bm.link m a = none := by
  obtain ⟨err, herr⟩ := read_of_not_reads h
  rw [link, herr]

theorem reads_congr (h : BufferHeader.cap m' a = BufferHeader.cap m a) : Reads bm m' a ↔ Reads bm m a := by
  rw [Reads, Reads, h]

theorem link_congr (h : SameOn m m' a (a + 20)) : bm.link m' a = bm.link m a := by
  have hreads : Reads bm m' a ↔ Reads bm m a := reads_congr (BufferHeader.cap_congr h)
  by_cases hr : Reads bm m a
  · rw [link_of_reads hr, link_of_reads (hreads.mpr hr), BufferHeader.hasNext_congr h, BufferHeader.nextBufferOffset_congr h]
  · rw [link_of_not_reads hr, link_of_not_reads (mt hreads.mp hr)]

end Reading

section Walks

end Walks

variable {target : ℕ → Option BufferList}

structure Kept (bm : BufferManager) (m : Mem) (off : ℕ) (target : ℕ → Option BufferList) (m' : Mem) (V : List ℕ) : Prop where
  seen : ∀ x ∈ V, bm.OnWay m off target x
  caps : ∀ x, bm.OnWay m off target x → BufferHeader.cap m' x = BufferHeader.cap m x
  ahead : ∀ x, bm.OnWay m off target x → x ∉ V → BufferHeader.isInUsed m' x = BufferHeader.isInUsed m x ∧
    BufferHeader.size m' x = BufferHeader.size m x ∧ BufferHeader.start m' x = BufferHeader.start m x
  links : ∀ x, bm.OnWay m off target x → x ∉ V → bm.link m' x = bm.linkAfter m target V x
  per : ∀ l ∈ bm.lists, l.capPerBuffer m' = l.capPerBuffer m
  tails : ∀ l ∈ bm.lists, l.bufferRegion + l.tailLoad m' = tailAt m target l V

theorem Kept.start : Kept bm m off target m [] where
  seen := List.forall_mem_nil _
  caps _ _ := rfl
  ahead _ _ _ := ⟨rfl, rfl, rfl⟩
  links x _ _ := by
    rw [linkAfter]
    exact Option.map_id'.symm
  per _ _ := rfl
  tails _ _ := rfl

theorem home_mem (h : bm.home m a = some l) : l ∈ bm.lists := List.mem_of_find?_eq_some h

theorem Undisturbed.push_eq (h : Undisturbed bm m off target) (hlt : a < 4294967296) (hp : bm.Pushes m off target a l) :
    l.push m' (slotView m' a) = l.pushed m' a (l.bufferRegion + l.tailLoad m') (a - l.bufferRegion) := by
  have hbase := h.base a l hp
  have harena : Arena l (BufferHeader.cap m' a) (· = a) := by
    refine ⟨?_, ?_, ?_⟩
    · rintro x rfl
      exact hbase
    · rintro x rfl
      omega
    · rintro x y rfl rfl hne
      exact absurd rfl hne
  refine BufferList.push_eq harena rfl ⟨rfl, rfl, rfl, ?_⟩
  change a = u32 _
  rw [h.region a l hp, Nat.sub_add_cancel hbase, u32, Nat.mod_eq_of_lt hlt]

theorem tailAt_cases (l : BufferList) (V : List ℕ) :
    tailAt m target l V = l.bufferRegion + l.tailLoad m ∨ ∃ y ∈ V, target y = some l ∧ tailAt m target l V = y := by
  induction V with
  | nil => exact .inl rfl
  | cons a V ih =>
    rw [tailAt]
    split_ifs with ha
    · exact .inr ⟨a, List.mem_cons_self, ha, rfl⟩
    · apply ih.imp_right
      rintro ⟨y, hy, htarget, heq⟩
      exact ⟨y, List.mem_cons_of_mem a hy, htarget, heq⟩

theorem linkAfter_cons_none (ha : target a = none) : bm.linkAfter m target (a :: V) x = bm.linkAfter m target V x := by
  rw [linkAfter, linkAfter, relinked]
  simp only [ha]

theorem linkAfter_cons_some (ha : target a = some l) : bm.linkAfter m target (a :: V) x =
    if tailAt m target l V = x then (bm.link m x).map fun _ => some (a - l.bufferRegion) else bm.linkAfter m target V x := by
  rw [linkAfter, linkAfter, relinked]
  simp only [ha]
  split_ifs
  · rfl
  · rfl

namespace Kept

variable (h : Undisturbed bm m off target) (hk : Kept bm m off target m' V)
include hk

theorem home_eq (ha : bm.OnWay m off target a) : bm.home m' a = bm.home m a := by
  apply List.find?_congr
  intro l hl
  rw [hk.caps a ha, hk.per l hl]

-- a slot that is left in place
theorem pass (ha : bm.OnWay m off target a) (hnone : target a = none) : Kept bm m off target m' (a :: V) where
  seen := List.forall_mem_cons.mpr ⟨ha, hk.seen⟩
  caps := hk.caps
  ahead x hx hn := hk.ahead x hx fun hV => hn (List.mem_cons_of_mem a hV)
  links x hx hn := by
    rw [linkAfter_cons_none hnone]
    exact hk.links x hx fun hV => hn (List.mem_cons_of_mem a hV)
  per := hk.per
  tails l hl := by
    rw [hk.tails l hl, tailAt, hnone]
    rfl

include h

theorem tail_apart (hp : bm.Pushes m off target a l) (hx : bm.OnWay m off target x) : x = tailAt m target l V ∨
    x + 20 ≤ tailAt m target l V ∨ tailAt m target l V + 20 ≤ x := by
  rcases tailAt_cases l V with htail | ⟨y, hy, htarget, htail⟩
  · rw [htail]
    exact h.tail a l x hp hx
  · rw [htail]
    by_cases hyx : y = x
    · exact .inl hyx.symm
    · exact .inr (h.slots y l x ⟨hk.seen y hy, htarget⟩ hx hyx).symm

theorem tail_headers {l' : BufferList} (hp : bm.Pushes m off target a l) (hl' : l' ∈ bm.lists) :
    tailAt m target l V + 20 ≤ l'.offsetInShm ∨ l'.offsetInShm + 36 ≤ tailAt m target l V := by
  rcases tailAt_cases l V with htail | ⟨y, hy, htarget, htail⟩
  · rw [htail]
    exact h.tailHeaders a l l' hp hl'
  · rw [htail]
    exact h.slotHeaders y l l' ⟨hk.seen y hy, htarget⟩ hl'

theorem push (hlt : a < 4294967296) (hl : l ∈ bm.lists) (hp : bm.Pushes m off target a l) :
    Kept bm m off target (l.pushed m' a (l.bufferRegion + l.tailLoad m') (a - l.bufferRegion)) (a :: V) := by
  have hbase := h.base a l hp
  have hnext : a - l.bufferRegion < 4294967296 := by omega
  obtain ⟨t, ht⟩ : ∃ t, t = tailAt m target l V := ⟨_, rfl⟩
  have htail : l.bufferRegion + l.tailLoad m' = t := (hk.tails l hl).trans ht.symm
  have htbase : l.bufferRegion ≤ t := by omega
  have hapart : ∀ x, bm.OnWay m off target x → x = t ∨ x + 20 ≤ t ∨ t + 20 ≤ x := by
    intro x hx
    rw [ht]
    exact tail_apart h hk hp hx
  have hheader : ∀ l' ∈ bm.lists, l' ≠ l →
      SameOn m' (l.pushed m' a t (a - l.bufferRegion)) l'.offsetInShm (l'.offsetInShm + 36) := by
    intro l' hl' hne
    have hlists := h.lists a l l' hp hl' hne.symm
    have hslot := h.slotHeaders a l l' hp hl'
    have htail' := tail_headers h hk hp hl'
    rw [← ht] at htail'
    exact l.sameOn_pushed _ (by omega) (by omega) (by omega)
  have hwords := l.pushed_words (m := m') (t := t) (a - l.bufferRegion) hbase htbase hnext
  have hframe : ∀ x, bm.OnWay m off target x → x ≠ a → x ≠ t → SameOn m' (l.pushed m' a t (a - l.bufferRegion)) x (x + 20) := by
    intro x hx hxa hxt
    have hlx := h.header a l x hp hx
    have hax := h.slots a l x hp hx hxa.symm
    have htx := (hapart x hx).resolve_left hxt
    exact l.sameOn_pushed _ (by omega) (by omega) (by omega)
  -- the tail is another slot of the way, still ahead or visited
  have hlinked : ∀ x, bm.OnWay m off target x → x ≠ a → x = t → _ := fun x hx hxa hxt =>
    l.pushed_tail_fields (m := m') (a := a) (t := x) (a - l.bufferRegion) (hxt ▸ htbase)
      (h.slots a l x hp hx hxa.symm) hnext
  rw [htail]
  refine ⟨List.forall_mem_cons.mpr ⟨hp.1, hk.seen⟩, ?_, ?_, ?_, ?_, ?_⟩
  · intro x hx
    rw [← hk.caps x hx]
    by_cases hxa : x = a
    · rw [hxa]
      exact l.pushed_cap _ hbase (hapart a hp.1)
    by_cases hxt : x = t
    · have hfields := hlinked x hx hxa hxt
      rw [← hxt]
      exact hfields.2.2.2.1
    · exact BufferHeader.cap_congr (hframe x hx hxa hxt)
  · intro x hx hn
    rw [List.mem_cons, not_or] at hn
    obtain ⟨hused, hsize, hstart⟩ := hk.ahead x hx hn.2
    rw [← hused, ← hsize, ← hstart]
    by_cases hxt : x = t
    · obtain ⟨-, -, hused', -, hsize', hstart'⟩ := hlinked x hx hn.1 hxt
      rw [← hxt]
      exact ⟨hused', hsize', hstart'⟩
    · have hsame := hframe x hx hn.1 hxt
      exact ⟨BufferHeader.isInUsed_congr hsame, BufferHeader.size_congr hsame, BufferHeader.start_congr hsame⟩
  · intro x hx hn
    rw [List.mem_cons, not_or] at hn
    rw [linkAfter_cons_some hp.2, ← ht]
    split_ifs with hxt
    · obtain ⟨hn', hnext', -, hcap', -, -⟩ := hlinked x hx hn.1 hxt.symm
      rw [hxt]
      have hreads : Reads bm (l.pushed m' a x (a - l.bufferRegion)) x ↔ Reads bm m x :=
        reads_congr (hcap'.trans (hk.caps x hx))
      by_cases hr : Reads bm m x
      · rw [link_of_reads hr, link_of_reads (hreads.mpr hr), hn', hnext']
        rfl
      · rw [link_of_not_reads hr, link_of_not_reads (mt hreads.mp hr)]
        rfl
    · rw [link_congr (hframe x hx hn.1 (Ne.symm hxt)), hk.links x hx hn.2]
  · intro l' hl'
    rw [← hk.per l' hl']
    by_cases hne : l' = l
    · rw [hne]
      exact hwords.2.2.2
    · exact (l'.words_congr (hheader l' hl' hne)).2.2.2.2.1
  · intro l' hl'
    by_cases hne : l' = l
    · rw [hne, hwords.2.2.1, Nat.add_sub_cancel' hbase, tailAt, if_pos hp.2]
    · have hother : ¬ target a = some l' := by
        rw [hp.2, Option.some_inj]
        exact Ne.symm hne
      rw [(l'.words_congr (hheader l' hl' hne)).2.2.2.1, hk.tails l' hl', tailAt, if_neg hother]

theorem recycle (hlt : a < 4294967296) (ha : bm.OnWay m off target a) (hna : a ∉ V) (heq : target a = bm.recycleTarget m a) :
    Kept bm m off target (bm.recycleBuffer m' (slotView m' a)) (a :: V) := by
  have hused := (hk.ahead a ha hna).1
  have hfind : bm.lists.find? (fun l => (slotView m' a).cap = l.capPerBuffer m') = bm.home m a := hk.home_eq ha
  have hheader : (slotView m' a).bufferHeader = some a := rfl
  have hshm : (slotView m' a).isFromShm = true := rfl
  rw [recycleTarget] at heq
  simp only [BufferManager.recycleBuffer, hshm, hheader, hused, hfind, if_true]
  cases hu : BufferHeader.isInUsed m a with
  | false =>
    rw [hu] at heq
    exact hk.pass ha heq
  | true =>
    rw [hu, if_pos rfl] at heq
    cases hhome : bm.home m a with
    | none => exact hk.pass ha (heq.trans hhome)
    | some l =>
      have hpush : bm.Pushes m off target a l := ⟨ha, heq.trans hhome⟩
      change Kept bm m off target (l.push m' (slotView m' a)) (a :: V)
      rw [Undisturbed.push_eq h hlt hpush]
      exact push h hk hlt (home_mem hhome) hpush

end Kept

section Slots

variable {P : Pool} {e : Bool} {free : ℕ → Prop}

end Slots

section Three

open Built

end Three

section Stuck

variable {S : ℕ → Prop} (hS : ∀ a, S a → Reads bm m a ∧ BufferHeader.hasNext m a = true ∧ BufferHeader.isInUsed m a = false ∧
  S (BufferHeader.nextBufferOffset m a))
include hS

end Stuck

end ChainWalks

end Shmipc
