import Shmipc.BufferList
import Mathlib.Data.List.Chain

namespace Shmipc

open ByteMemory

structure Arena (l : BufferList) (c : ℕ) (S : ℕ → Prop) : Prop where
  base : ∀ a, S a → l.bufferRegion ≤ a
  near : ∀ a, S a → a < l.bufferRegion + 4294967296
  apart : ∀ a b, S a → S b → a ≠ b → a + (c + 20) ≤ b ∨ b + (c + 20) ≤ a

def Links (l : BufferList) (m : Mem) (a b : ℕ) : Prop :=
  BufferHeader.hasNext m a = true ∧ l.bufferRegion + BufferHeader.nextBufferOffset m a = b

structure FreeChain (l : BufferList) (c : ℕ) (m : Mem) (L : List ℕ) : Prop where
  nodup : L.Nodup
  head : L.head? = some (l.bufferRegion + l.headLoad m)
  tail : L.getLast? = some (l.bufferRegion + l.tailLoad m)
  per : l.capPerBuffer m = c
  chain : L.IsChain (Links l m)
  last : ∀ a, L.getLast? = some a → BufferHeader.hasNext m a = false
  clean : ∀ a ∈ L, BufferHeader.size m a = 0 ∧ BufferHeader.start m a = 0 ∧
    BufferHeader.isInUsed m a = false ∧ BufferHeader.cap m a = c

instance (l : BufferList) (m : Mem) (a b : ℕ) : Decidable (Links l m a b) := inferInstanceAs (Decidable (_ ∧ _))

instance (l : BufferList) (c : ℕ) (m : Mem) (L : List ℕ) : Decidable (FreeChain l c m L) :=
  decidable_of_iff (L.Nodup ∧ L.head? = some (l.bufferRegion + l.headLoad m) ∧
      L.getLast? = some (l.bufferRegion + l.tailLoad m) ∧ l.capPerBuffer m = c ∧ L.IsChain (Links l m) ∧
      (∀ a ∈ L.getLast?, BufferHeader.hasNext m a = false) ∧ ∀ a ∈ L, BufferHeader.size m a = 0 ∧
        BufferHeader.start m a = 0 ∧ BufferHeader.isInUsed m a = false ∧ BufferHeader.cap m a = c)
    ⟨fun ⟨nodup, head, tail, per, chain, last, clean⟩ => ⟨nodup, head, tail, per, chain, last, clean⟩,
      fun h => ⟨h.nodup, h.head, h.tail, h.per, h.chain, h.last, h.clean⟩⟩

def slotSlice (l : BufferList) (c a : ℕ) : BufferSlice where
  bufferHeader := some a
  data := .shm (a + kBufferHeaderSize)
  cap := c
  start := 0
  offsetInShm := u32 (a - l.bufferRegion + l.bufferRegionOffsetInShm)
  readIndex := 0
  writeIndex := 0
  isFromShm := true

structure Alias (l : BufferList) (c a : ℕ) (s : BufferSlice) : Prop where
  header : s.bufferHeader = some a
  shm : s.isFromShm = true
  cap : s.cap = c
  offset : s.offsetInShm = u32 (a - l.bufferRegion + l.bufferRegionOffsetInShm)

theorem slotSlice_alias (l : BufferList) (c a : ℕ) : Alias l c a (slotSlice l c a) :=
  ⟨rfl, rfl, rfl, rfl⟩

namespace BufferList

variable (l : BufferList) {c : ℕ} {m : Mem} {a : ℕ} {lo hi : ℕ}

theorem bufferRegion_eq : l.bufferRegion = l.offsetInShm + 36 := rfl

def popped (m : Mem) (a next : ℕ) : Mem :=
  l.counterAdd (BufferHeader.setInUsed
    (BufferHeader.clearFlag (l.headStore (l.sizeAdd m (-1)) next) a) a) 1

def pushed (m : Mem) (a tail next : ℕ) : Mem :=
  l.counterAdd (l.sizeAdd (BufferHeader.linkNext (l.tailStore (BufferHeader.clearFlag
    (BufferHeader.setStart (BufferHeader.setSize m a 0) a 0) a) next) tail next) 1) (-1)

theorem sameOn_popped (next : ℕ) (h1 : l.offsetInShm + 36 ≤ lo ∨ hi ≤ l.offsetInShm)
    (h2 : a + 20 ≤ lo ∨ hi ≤ a) : SameOn m (l.popped m a next) lo hi :=
  (((l.sameOn_sizeAdd m (-1) h1).trans (l.sameOn_headStore _ next h1)).trans
    ((BufferHeader.sameOn_clearFlag _ a h2).trans (BufferHeader.sameOn_setInUsed _ a h2))).trans
    (l.sameOn_counterAdd _ 1 h1)

theorem sameOn_reset (h : a + 20 ≤ lo ∨ hi ≤ a) :
    SameOn m (BufferHeader.clearFlag (BufferHeader.setStart (BufferHeader.setSize m a 0) a 0) a) lo hi :=
  ((BufferHeader.sameOn_setSize m a 0 h).trans (BufferHeader.sameOn_setStart _ a 0 h)).trans
    (BufferHeader.sameOn_clearFlag _ a h)

theorem sameOn_pushed {t : ℕ} (next : ℕ) (h1 : l.offsetInShm + 36 ≤ lo ∨ hi ≤ l.offsetInShm)
    (h2 : a + 20 ≤ lo ∨ hi ≤ a) (h3 : t + 20 ≤ lo ∨ hi ≤ t) :
    SameOn m (l.pushed m a t next) lo hi :=
  (((sameOn_reset h2).trans (l.sameOn_tailStore _ next h1)).trans
    (BufferHeader.sameOn_linkNext _ t next h3)).trans
    ((l.sameOn_sizeAdd _ 1 h1).trans (l.sameOn_counterAdd _ (-1) h1))

theorem popped_words (next : ℕ) (ha : l.bufferRegion ≤ a) (hn : next < 4294967296) :
    l.capLoad (l.popped m a next) = l.capLoad m ∧ l.headLoad (l.popped m a next) = next ∧
    l.tailLoad (l.popped m a next) = l.tailLoad m ∧
    l.capPerBuffer (l.popped m a next) = l.capPerBuffer m := by
  rw [bufferRegion_eq] at ha
  obtain ⟨-, w2, w3, w4, w5, -⟩ := l.words_congr
    ((BufferHeader.sameOn_clearFlag (l.headStore (l.sizeAdd m (-1)) next) a (by omega)).trans
      (BufferHeader.sameOn_setInUsed _ a (by omega)))
  simp only [headStore_words, sizeAdd_words, Nat.mod_eq_of_lt hn] at w2 w3 w4 w5
  simp only [popped, counterAdd_words, w2, w3, w4, w5, and_self]

theorem popped_counts (next : ℕ) (ha : l.bufferRegion ≤ a)
    (hs : 0 ≤ l.sizeLoad m ∧ l.sizeLoad m < 2147483648)
    (hc : 0 ≤ l.counterLoad m ∧ l.counterLoad m + 1 < 2147483648) :
    l.sizeLoad (l.popped m a next) = l.sizeLoad m - 1 ∧
    l.counterLoad (l.popped m a next) = l.counterLoad m + 1 := by
  have hlo : -2147483648 ≤ l.counterLoad m + 1 := by omega
  have hsize : l.sizeLoad (l.sizeAdd m (-1)) = l.sizeLoad m - 1 :=
    l.sizeLoad_sizeAdd (by omega) (by omega)
  rw [bufferRegion_eq] at ha
  obtain ⟨w1, -, -, -, -, w6⟩ := l.words_congr
    ((BufferHeader.sameOn_clearFlag (l.headStore (l.sizeAdd m (-1)) next) a (by omega)).trans
      (BufferHeader.sameOn_setInUsed _ a (by omega)))
  simp only [headStore_words, sizeAdd_words, hsize] at w1 w6
  refine ⟨by simp only [popped, counterAdd_words, w1], ?_⟩
  rw [popped, l.counterLoad_counterAdd (w6 ▸ hlo) (w6 ▸ hc.2), w6]

theorem popped_fields (next : ℕ) (ha : l.bufferRegion ≤ a) :
    BufferHeader.hasNext (l.popped m a next) a = false ∧
    BufferHeader.isInUsed (l.popped m a next) a = true ∧
    BufferHeader.cap (l.popped m a next) a = BufferHeader.cap m a ∧
    BufferHeader.size (l.popped m a next) a = BufferHeader.size m a ∧
    BufferHeader.start (l.popped m a next) a = BufferHeader.start m a := by
  rw [bufferRegion_eq] at ha
  have h1 : SameOn m (l.headStore (l.sizeAdd m (-1)) next) a (a + 20) :=
    (l.sameOn_sizeAdd m (-1) (by omega)).trans (l.sameOn_headStore _ next (by omega))
  have h2 : SameOn _ (l.popped m a next) a (a + 20) := l.sameOn_counterAdd _ 1 (by omega)
  simp [BufferHeader.hasNext_congr h2, BufferHeader.isInUsed_congr h2,
    BufferHeader.cap_congr h2, BufferHeader.size_congr h2, BufferHeader.start_congr h2,
    BufferHeader.cap_congr h1, BufferHeader.size_congr h1, BufferHeader.start_congr h1]

section Pushed

variable {t : ℕ} (next : ℕ) (ha : l.bufferRegion ≤ a) (ht : l.bufferRegion ≤ t)
include ha ht

theorem linked_words :
    let m' := BufferHeader.linkNext (l.tailStore (BufferHeader.clearFlag
      (BufferHeader.setStart (BufferHeader.setSize m a 0) a 0) a) next) t next
    l.sizeLoad m' = l.sizeLoad m ∧ l.capLoad m' = l.capLoad m ∧ l.headLoad m' = l.headLoad m ∧
    l.tailLoad m' = next % 4294967296 ∧ l.capPerBuffer m' = l.capPerBuffer m ∧
    l.counterLoad m' = l.counterLoad m := by
  rw [bufferRegion_eq] at ha ht
  obtain ⟨v1, v2, v3, v4, v5, v6⟩ := l.words_congr (m := m) (sameOn_reset (a := a) (by omega))
  obtain ⟨w1, w2, w3, w4, w5, w6⟩ := l.words_congr (BufferHeader.sameOn_linkNext (l.tailStore
    (BufferHeader.clearFlag (BufferHeader.setStart (BufferHeader.setSize m a 0) a 0) a) next) t next
    (by omega))
  simp only [tailStore_words, v1, v2, v3, v5, v6] at w1 w2 w3 w4 w5 w6
  exact ⟨w1, w2, w3, w4, w5, w6⟩

theorem pushed_words (hn : next < 4294967296) :
    l.capLoad (l.pushed m a t next) = l.capLoad m ∧ l.headLoad (l.pushed m a t next) = l.headLoad m ∧
    l.tailLoad (l.pushed m a t next) = next ∧
    l.capPerBuffer (l.pushed m a t next) = l.capPerBuffer m := by
  obtain ⟨-, w2, w3, w4, w5, -⟩ := l.linked_words (m := m) next ha ht
  simp only [pushed, counterAdd_words, sizeAdd_words, w2, w3, w4, w5, Nat.mod_eq_of_lt hn, and_self]

theorem pushed_counts (hs : 0 ≤ l.sizeLoad m ∧ l.sizeLoad m + 1 < 2147483648)
    (hc : 0 ≤ l.counterLoad m ∧ l.counterLoad m < 2147483648) :
    l.sizeLoad (l.pushed m a t next) = l.sizeLoad m + 1 ∧
    l.counterLoad (l.pushed m a t next) = l.counterLoad m - 1 := by
  have hlo : -2147483648 ≤ l.sizeLoad m + 1 := by omega
  have hlc : -2147483648 ≤ l.counterLoad m + -1 := by omega
  have hhc : l.counterLoad m + -1 < 2147483648 := by omega
  obtain ⟨w1, -, -, -, -, w6⟩ := l.linked_words (m := m) next ha ht
  have hsize := l.sizeLoad_sizeAdd (w1 ▸ hlo) (w1 ▸ hs.2)
  rw [w1] at hsize
  refine ⟨by simp only [pushed, counterAdd_words, hsize], ?_⟩
  rw [← (l.sizeAdd_words _ 1).2.2.2.2] at w6
  rw [pushed, l.counterLoad_counterAdd (w6 ▸ hlc) (w6 ▸ hhc), w6]
  rfl

omit ht in
theorem pushed_fields (hd : a + 20 ≤ t ∨ t + 20 ≤ a) :
    BufferHeader.hasNext (l.pushed m a t next) a = false ∧
    BufferHeader.isInUsed (l.pushed m a t next) a = false ∧
    BufferHeader.cap (l.pushed m a t next) a = BufferHeader.cap m a ∧
    BufferHeader.size (l.pushed m a t next) a = 0 ∧ BufferHeader.start (l.pushed m a t next) a = 0 := by
  rw [bufferRegion_eq] at ha
  have h1 : SameOn (BufferHeader.clearFlag (BufferHeader.setStart (BufferHeader.setSize m a 0) a 0) a)
      (l.pushed m a t next) a (a + 20) :=
    ((l.sameOn_tailStore _ next (by omega)).trans
      (BufferHeader.sameOn_linkNext _ t next (by omega))).trans
      ((l.sameOn_sizeAdd _ 1 (by omega)).trans (l.sameOn_counterAdd _ (-1) (by omega)))
  simp [BufferHeader.hasNext_congr h1, BufferHeader.isInUsed_congr h1,
    BufferHeader.cap_congr h1, BufferHeader.size_congr h1, BufferHeader.start_congr h1]

-- a push onto a list whose tail is the slot itself included
omit ht in
theorem pushed_cap (hd : a = t ∨ a + 20 ≤ t ∨ t + 20 ≤ a) : BufferHeader.cap (l.pushed m a t next) a = BufferHeader.cap m a := by
  rcases hd with rfl | hd
  · rw [bufferRegion_eq] at ha
    have h0 : SameOn (BufferHeader.clearFlag (BufferHeader.setStart (BufferHeader.setSize m a 0) a 0) a)
        (l.tailStore (BufferHeader.clearFlag (BufferHeader.setStart (BufferHeader.setSize m a 0) a 0) a) next) a (a + 20) :=
      l.sameOn_tailStore _ next (by omega)
    have h1 : SameOn _ (l.pushed m a a next) a (a + 20) :=
      (l.sameOn_sizeAdd _ 1 (by omega)).trans (l.sameOn_counterAdd _ (-1) (by omega))
    simp [BufferHeader.cap_congr h1, BufferHeader.cap_congr h0]
  · exact (l.pushed_fields next ha hd).2.2.1

omit ha in
theorem pushed_tail_fields (hd : a + 20 ≤ t ∨ t + 20 ≤ a) (hn : next < 4294967296) :
    BufferHeader.hasNext (l.pushed m a t next) t = true ∧
    BufferHeader.nextBufferOffset (l.pushed m a t next) t = next ∧
    BufferHeader.isInUsed (l.pushed m a t next) t = BufferHeader.isInUsed m t ∧
    BufferHeader.cap (l.pushed m a t next) t = BufferHeader.cap m t ∧
    BufferHeader.size (l.pushed m a t next) t = BufferHeader.size m t ∧
    BufferHeader.start (l.pushed m a t next) t = BufferHeader.start m t := by
  rw [bufferRegion_eq] at ht
  have h0 : SameOn m (l.tailStore (BufferHeader.clearFlag (BufferHeader.setStart
      (BufferHeader.setSize m a 0) a 0) a) next) t (t + 20) :=
    (sameOn_reset (by omega)).trans (l.sameOn_tailStore _ next (by omega))
  have h1 : SameOn _ (l.pushed m a t next) t (t + 20) :=
    (l.sameOn_sizeAdd _ 1 (by omega)).trans (l.sameOn_counterAdd _ (-1) (by omega))
  simp [BufferHeader.hasNext_congr h1, BufferHeader.isInUsed_congr h1,
    BufferHeader.nextBufferOffset_congr h1, BufferHeader.cap_congr h1, BufferHeader.size_congr h1,
    BufferHeader.start_congr h1, BufferHeader.isInUsed_congr h0, BufferHeader.cap_congr h0,
    BufferHeader.size_congr h0, BufferHeader.start_congr h0, Nat.mod_eq_of_lt hn]

end Pushed

end BufferList

namespace FreeChain

variable {l : BufferList} {c : ℕ} {S : ℕ → Prop} {m m' : Mem} {a b : ℕ} {L : List ℕ}

theorem links_congr (h : L.IsChain (Links l m)) (hL : ∀ x ∈ L, SameOn m m' x (x + 20)) :
    L.IsChain (Links l m') := by
  apply h.imp_of_mem_imp
  intro x y hx _ hxy
  unfold Links at *
  rwa [BufferHeader.hasNext_congr (hL x hx), BufferHeader.nextBufferOffset_congr (hL x hx)]

theorem clean_congr (h : FreeChain l c m L) (ha : a ∈ L) (hs : SameOn m m' a (a + 20)) :
    BufferHeader.size m' a = 0 ∧ BufferHeader.start m' a = 0 ∧
    BufferHeader.isInUsed m' a = false ∧ BufferHeader.cap m' a = c := by
  rw [BufferHeader.size_congr hs, BufferHeader.start_congr hs, BufferHeader.isInUsed_congr hs,
    BufferHeader.cap_congr hs]
  exact h.clean a ha

theorem congr (h : FreeChain l c m L) (hw : SameOn m m' l.offsetInShm (l.offsetInShm + 36))
    (hL : ∀ x ∈ L, SameOn m m' x (x + 20)) : FreeChain l c m' L := by
  obtain ⟨-, -, h3, h4, h5, -⟩ := l.words_congr hw
  refine ⟨h.nodup, h3 ▸ h.head, h4 ▸ h.tail, h5 ▸ h.per, links_congr h.chain hL, ?_, ?_⟩
  · intro x hx
    rw [BufferHeader.hasNext_congr (hL x (List.mem_of_getLast? hx))]
    exact h.last x hx
  · intro x hx
    exact h.clean_congr hx (hL x hx)

theorem popped (A : Arena l c S) (hS : ∀ x ∈ a :: b :: L, S x) (h : FreeChain l c m (a :: b :: L)) :
    FreeChain l c (l.popped m a (BufferHeader.nextBufferOffset m a)) (b :: L) := by
  have ha := hS a List.mem_cons_self
  have hnodup := List.nodup_cons.mp h.nodup
  obtain ⟨hab, hchain⟩ := List.isChain_cons_cons.mp h.chain
  obtain ⟨-, w3, w4, w5⟩ := l.popped_words (m := m) _ (A.base a ha) (BufferHeader.nextBufferOffset_lt m a)
  have hother : ∀ x ∈ b :: L,
      SameOn m (l.popped m a (BufferHeader.nextBufferOffset m a)) x (x + 20) := by
    intro x hx
    have hxs := hS x (List.mem_cons_of_mem _ hx)
    have hne : a ≠ x := fun he => hnodup.1 (he ▸ hx)
    have hd := A.apart a x ha hxs hne
    have hle := A.base x hxs
    rw [l.bufferRegion_eq] at hle
    exact l.sameOn_popped _ (by omega) (by omega)
  refine ⟨hnodup.2, ?_, ?_, w5 ▸ h.per, links_congr hchain hother, ?_, ?_⟩
  · rw [w3, hab.2, List.head?_cons]
  · rw [w4, ← h.tail, List.getLast?_cons_cons]
  · intro x hx
    rw [BufferHeader.hasNext_congr (hother x (List.mem_of_getLast? hx))]
    exact h.last x (by rw [List.getLast?_cons_cons]; exact hx)
  · intro x hx
    exact h.clean_congr (List.mem_cons_of_mem _ hx) (hother x hx)

theorem pushed (A : Arena l c S) (hS : ∀ x ∈ L, S x) (ha : S a) (hna : a ∉ L)
    (hcap : BufferHeader.cap m a = c) (h : FreeChain l c m L) :
    FreeChain l c (l.pushed m a (l.bufferRegion + l.tailLoad m) (a - l.bufferRegion)) (L ++ [a]) := by
  have htail := h.tail
  obtain ⟨L', hL⟩ := List.getLast?_eq_some_iff.mp htail
  generalize ht : l.bufferRegion + l.tailLoad m = t at *
  have htL : t ∈ L := by simp [hL]
  have hne : a ≠ t := fun he => hna (he ▸ htL)
  have hab := A.base a ha
  have htb := A.base t (hS t htL)
  have hnear := A.near a ha
  have hlt : a - l.bufferRegion < 4294967296 := by omega
  have hd := A.apart a t ha (hS t htL) hne
  have hlast := h.last t htail
  obtain ⟨-, w3, w4, w5⟩ := l.pushed_words (m := m) _ hab htb hlt
  obtain ⟨p1, p2, p3, p4, p5⟩ := l.pushed_fields (m := m) (a - l.bufferRegion) hab (t := t) (by omega)
  obtain ⟨t1, t2, t3, t4, t5, t6⟩ := l.pushed_tail_fields (m := m) (a := a) _ htb (by omega) hlt
  have hother : ∀ x ∈ L, x ≠ t →
      SameOn m (l.pushed m a t (a - l.bufferRegion)) x (x + 20) := by
    intro x hx hxt
    have hda := A.apart a x ha (hS x hx) (fun he => hna (he ▸ hx))
    have hdt := A.apart t x (hS t htL) (hS x hx) hxt.symm
    have hle := A.base x (hS x hx)
    rw [l.bufferRegion_eq] at hle
    exact l.sameOn_pushed _ (by omega) (by omega) (by omega)
  have hold : (L' ++ [t]).IsChain (Links l (l.pushed m a t (a - l.bufferRegion))) := by
    rw [← hL]
    apply h.chain.imp_of_mem_imp
    intro x y hx _ hxy
    -- the tail has no link yet
    have hxt : x ≠ t := by
      rintro rfl
      exact absurd hxy.1 (by simp [hlast])
    unfold Links at *
    rwa [BufferHeader.hasNext_congr (hother x hx hxt),
      BufferHeader.nextBufferOffset_congr (hother x hx hxt)]
  refine ⟨?_, ?_, ?_, w5 ▸ h.per, ?_, ?_, ?_⟩
  · exact List.nodup_append.mpr ⟨h.nodup, List.nodup_singleton a, by
      intro x hx y hy he
      simp only [List.mem_singleton] at hy
      exact hna (hy ▸ he ▸ hx)⟩
  · rw [w3, ← h.head, hL]
    simp
  · rw [w4, List.getLast?_concat]
    congr 1
    omega
  · rw [hL, List.append_assoc]
    refine List.isChain_append_cons_cons.mpr ⟨hold, ⟨t1, ?_⟩, List.isChain_singleton a⟩
    rw [t2]
    omega
  · intro x hx
    rw [List.getLast?_concat, Option.some.injEq] at hx
    exact hx ▸ p1
  · intro x hx
    rcases List.mem_append.mp hx with hx | hx
    · by_cases hxt : x = t
      · rw [hxt, t3, t4, t5, t6]
        exact h.clean t htL
      · exact h.clean_congr hx (hother x hx hxt)
    · rw [List.mem_singleton.mp hx]
      exact ⟨p4, p5, p2, p3.trans hcap⟩

end FreeChain

end Shmipc
