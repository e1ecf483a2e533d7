import Shmipc.ListCreate
import Shmipc.BufferManager

namespace Shmipc

open ByteMemory

structure SizeClass where
  list : BufferList
  num : ℕ
  cap : ℕ
deriving DecidableEq

def SizeClass.stop (k : SizeClass) : ℕ := k.list.bufferRegion + k.num * (k.cap + 20)

/-- Of two lists of one capacity the later one has a single slot, which is never given out. -/
def Unmixed (classes : List SizeClass) : Prop := classes.Pairwise fun p q => p.cap = q.cap → q.num = 1

instance (classes : List SizeClass) : Decidable (Unmixed classes) := inferInstanceAs (Decidable (classes.Pairwise _))

structure Pool where
  manager : BufferManager
  classes : List SizeClass
  lists : manager.lists = classes.map SizeClass.list
  geometry : ∀ k ∈ classes, Geometry k.list k.num k.cap
  cap_pos : ∀ k ∈ classes, 0 < k.cap
  region : ∀ k ∈ classes, k.list.bufferRegionOffsetInShm = k.list.bufferRegion
  order : classes.Pairwise (fun p q => p.stop ≤ q.list.offsetInShm)
  fits : ∀ k ∈ classes, k.stop ≤ manager.memSize
  small : manager.memSize < 4294967296

def freshSlice (c a : ℕ) : BufferSlice where
  bufferHeader := some a
  data := .shm (a + kBufferHeaderSize)
  cap := c
  start := 0
  offsetInShm := a
  readIndex := 0
  writeIndex := 0
  isFromShm := true

namespace Pool

variable (P : Pool)

def Slot (c a : ℕ) : Prop := ∃ k ∈ P.classes, k.cap = c ∧ IsSlot k.list k.num k.cap a

instance (c a : ℕ) : Decidable (P.Slot c a) := inferInstanceAs (Decidable (∃ k ∈ P.classes, _))

/-- `F` gives the chain of every list. A slot given back goes to the first list of its capacity,
so without `exact` the chain of a list may hold slots of later lists. -/
structure Chains (exact : Bool) (m : Mem) (F : SizeClass → List ℕ) : Prop where
  chain : ∀ k ∈ P.classes, FreeChain k.list k.cap m (F k)
  slot : ∀ k ∈ P.classes, ∀ a ∈ F k, P.Slot k.cap a ∧ k.list.bufferRegion ≤ a
  apart : ∀ j ∈ P.classes, ∀ k ∈ P.classes, j ≠ k → ∀ a ∈ F j, a ∉ F k
  caps : ∀ c a, P.Slot c a → BufferHeader.cap m a = c
  unmixed : exact = true → Unmixed P.classes
  counts : exact = true → ∀ k ∈ P.classes, FreeList k.list k.num k.cap m (F k)

def Free (exact : Bool) (m : Mem) (free : ℕ → Prop) : Prop :=
  ∃ F, P.Chains exact m F ∧ ∀ a, free a ↔ ∃ k ∈ P.classes, a ∈ F k

variable {P} {e : Bool} {m m' : Mem} {F : SizeClass → List ℕ} {free : ℕ → Prop} {j k : SizeClass} {a b c d : ℕ}

theorem class_apart (hj : j ∈ P.classes) (hk : k ∈ P.classes) (h : j ≠ k) :
    j.stop ≤ k.list.offsetInShm ∨ k.stop ≤ j.list.offsetInShm := by
  have hp : P.classes.Pairwise (fun p q => p.stop ≤ q.list.offsetInShm ∨ q.stop ≤ p.list.offsetInShm) :=
    P.order.imp fun h => .inl h
  have hsymm : Std.Symm (fun p q : SizeClass => p.stop ≤ q.list.offsetInShm ∨ q.stop ≤ p.list.offsetInShm) :=
    ⟨fun _ _ h => h.symm⟩
  exact hp.forall hj hk h

theorem stop_eq (k : SizeClass) : k.stop = k.list.offsetInShm + 36 + k.num * (k.cap + 20) := rfl

theorem slot_bounds (h : P.Slot c a) : ∃ k ∈ P.classes, k.cap = c ∧ k.list.offsetInShm + 36 ≤ a ∧
    a + (c + 20) ≤ k.stop := by
  obtain ⟨k, hk, rfl, hs⟩ := h
  refine ⟨k, hk, rfl, ?_, hs.fits⟩
  have := hs.le
  rwa [k.list.bufferRegion_eq] at this

theorem Slot.cap_pos (h : P.Slot c a) : 0 < c := by
  obtain ⟨k, hk, rfl, -⟩ := h
  exact P.cap_pos k hk

theorem Slot.fits (h : P.Slot c a) : a + (c + 20) ≤ P.manager.memSize := by
  obtain ⟨k, hk, rfl, -, hle⟩ := slot_bounds h
  exact hle.trans (P.fits k hk)

theorem Slot.lt (h : P.Slot c a) : a + (c + 20) < 4294967296 := lt_of_le_of_lt h.fits P.small

theorem Slot.apart (ha : P.Slot c a) (hb : P.Slot d b) (h : a ≠ b) :
    a + (c + 20) ≤ b ∨ b + (d + 20) ≤ a := by
  obtain ⟨j, hj, rfl, hja⟩ := ha
  obtain ⟨k, hk, rfl, hkb⟩ := hb
  by_cases hjk : j = k
  · subst hjk
    exact hja.disjoint hkb h
  · have h1 := hja.le
    have h2 := hja.fits
    have h3 := hkb.le
    have h4 := hkb.fits
    have := class_apart hj hk hjk
    simp only [stop_eq, BufferList.bufferRegion_eq] at *
    omega

theorem Slot.cap_eq (ha : P.Slot c a) (hb : P.Slot d a) : c = d := by
  obtain ⟨j, hj, rfl, hja⟩ := ha
  obtain ⟨k, hk, rfl, hkb⟩ := hb
  by_cases hjk : j = k
  · rw [hjk]
  · have h1 := hja.le
    have h2 := hja.fits
    have h3 := hkb.le
    have h4 := hkb.fits
    have := class_apart hj hk hjk
    simp only [stop_eq, BufferList.bufferRegion_eq] at *
    omega

theorem Slot.off_header (ha : P.Slot c a) (hk : k ∈ P.classes) :
    k.list.offsetInShm + 36 ≤ a ∨ a + (c + 20) ≤ k.list.offsetInShm := by
  obtain ⟨j, hj, rfl, h1, h2⟩ := slot_bounds ha
  by_cases hjk : j = k
  · exact .inl (hjk ▸ h1)
  · have := class_apart hj hk hjk
    have hstop := stop_eq k
    omega

theorem arena (k : SizeClass) :
    Arena k.list k.cap (fun a => P.Slot k.cap a ∧ k.list.bufferRegion ≤ a) where
  base _ h := h.2
  near a h := by
    have := h.1.lt
    omega
  apart _ _ ha hb := ha.1.apart hb.1

theorem slotSlice_eq (hk : k ∈ P.classes) (hs : P.Slot c a) (hb : k.list.bufferRegion ≤ a) :
    slotSlice k.list c a = freshSlice c a := by
  have := hs.lt
  simp only [slotSlice, freshSlice, P.region k hk, u32]
  congr 1
  omega

def Touches (k : SizeClass) (A : List ℕ) (m m' : Mem) : Prop :=
  ∀ lo hi, k.list.offsetInShm + 36 ≤ lo ∨ hi ≤ k.list.offsetInShm →
    (∀ a ∈ A, a + 20 ≤ lo ∨ hi ≤ a) → SameOn m m' lo hi

theorem touches_popped (k : SizeClass) (m : Mem) (a next : ℕ) : Touches k [a] m (k.list.popped m a next) := by
  intro lo hi h1 h2
  exact k.list.sameOn_popped next h1 (h2 a (List.mem_singleton_self a))

theorem touches_pushed (k : SizeClass) (m : Mem) (a t next : ℕ) :
    Touches k [a, t] m (k.list.pushed m a t next) := by
  intro lo hi h1 h2
  exact k.list.sameOn_pushed next h1 (h2 a (by simp)) (h2 t (by simp))

section Touches

variable {A : List ℕ} (hk : k ∈ P.classes) (hA : ∀ a ∈ A, ∃ c, P.Slot c a) (ht : Touches k A m m')
include hk hA ht

theorem Touches.slot (hb : P.Slot d b) (hn : b ∉ A) : SameOn m m' b (b + (d + 20)) := by
  apply ht
  · exact hb.off_header hk
  · intro a ha
    obtain ⟨c, hc⟩ := hA a ha
    have := hc.apart hb (fun he => hn (he ▸ ha))
    omega

theorem Touches.header (hj : j ∈ P.classes) (hjk : j ≠ k) :
    SameOn m m' j.list.offsetInShm (j.list.offsetInShm + 36) := by
  have h := class_apart hj hk hjk
  have h1 := stop_eq j
  have h2 := stop_eq k
  apply ht
  · omega
  · intro a ha
    obtain ⟨c, hc⟩ := hA a ha
    have := hc.off_header hj
    omega

end Touches

theorem Chains.replace {A L : List ℕ} (h : P.Chains e m F) (hk : k ∈ P.classes) (ht : Touches k A m m')
    (hA : ∀ a ∈ A, ∃ c, P.Slot c a ∧ BufferHeader.cap m' a = c)
    (hother : ∀ j ∈ P.classes, j ≠ k → ∀ a ∈ F j, a ∉ A ∧ a ∉ L)
    (hchain : FreeChain k.list k.cap m' L) (hslot : ∀ a ∈ L, P.Slot k.cap a ∧ k.list.bufferRegion ≤ a)
    (hcounts : e = true → FreeList k.list k.num k.cap m' L) :
    P.Chains e m' (Function.update F k L) := by
  have hA' : ∀ a ∈ A, ∃ c, P.Slot c a := fun a ha => (hA a ha).imp fun _ h => h.1
  have hkeep : ∀ j ∈ P.classes, j ≠ k → ∀ a ∈ F j, SameOn m m' a (a + 20) := by
    intro j hj hjk a ha
    exact (Touches.slot hk hA' ht (h.slot j hj a ha).1 (hother j hj hjk a ha).1).mono le_rfl (by omega)
  constructor
  · intro j hj
    by_cases hjk : j = k
    · rwa [hjk, Function.update_self]
    · rw [Function.update_of_ne hjk]
      exact (h.chain j hj).congr (Touches.header hk hA' ht hj hjk) (hkeep j hj hjk)
  · intro j hj
    by_cases hjk : j = k
    · rwa [hjk, Function.update_self]
    · rw [Function.update_of_ne hjk]
      exact h.slot j hj
  · intro i hi j hj hij a ha
    by_cases hik : i = k
    · have hjk : j ≠ k := fun hjk => hij (hik.trans hjk.symm)
      rw [hik, Function.update_self] at ha
      rw [Function.update_of_ne hjk]
      exact fun hja => (hother j hj hjk a hja).2 ha
    · rw [Function.update_of_ne hik] at ha
      by_cases hjk : j = k
      · rw [hjk, Function.update_self]
        exact (hother i hi hik a ha).2
      · rw [Function.update_of_ne hjk]
        exact h.apart i hi j hj hij a ha
  · intro c a ha
    by_cases haA : a ∈ A
    · obtain ⟨d, hd, hcap⟩ := hA a haA
      rw [hcap, hd.cap_eq ha]
    · rw [BufferHeader.cap_congr ((Touches.slot hk hA' ht ha haA).mono le_rfl (by omega))]
      exact h.caps c a ha
  · exact h.unmixed
  · intro he j hj
    by_cases hjk : j = k
    · rw [hjk, Function.update_self]
      exact hcounts he
    · rw [Function.update_of_ne hjk]
      exact (h.counts he j hj).congr (Touches.header hk hA' ht hj hjk) (hkeep j hj hjk)

structure Took (P : Pool) (e : Bool) (m : Mem) (free : ℕ → Prop) (c a : ℕ) (m' : Mem) : Prop where
  slot : P.Slot c a
  was : free a
  state : P.Free e m' (fun x => free x ∧ x ≠ a)
  frame : ∀ d x, P.Slot d x → ¬ free x → SameOn m m' x (x + (d + 20))
  inUsed : BufferHeader.isInUsed m' a = true
  noNext : BufferHeader.hasNext m' a = false

theorem Chains.popped {L : List ℕ} (h : P.Chains e m F) (hk : k ∈ P.classes) (hL : F k = a :: b :: L) :
    P.Chains e (k.list.popped m a (BufferHeader.nextBufferOffset m a)) (Function.update F k (b :: L)) := by
  have hslot := h.slot k hk
  rw [hL] at hslot
  have ha := hslot a List.mem_cons_self
  refine h.replace hk (touches_popped k m a _) ?_ ?_ ?_ (fun x hx => hslot x (List.mem_cons_of_mem a hx)) ?_
  · intro x hx
    rw [List.mem_singleton.mp hx]
    exact ⟨k.cap, ha.1, by rw [(k.list.popped_fields _ ha.2).2.2.1, h.caps _ _ ha.1]⟩
  · intro j hj hjk x hx
    have hxk := h.apart j hj k hk hjk x hx
    rw [hL, List.mem_cons, not_or] at hxk
    exact ⟨by simpa using hxk.1, hxk.2⟩
  · exact (hL ▸ h.chain k hk : FreeChain k.list k.cap m (a :: b :: L)).popped (arena k) hslot
  · intro he
    exact (hL ▸ h.counts he k hk : FreeList k.list k.num k.cap m (a :: b :: L)).popped (P.geometry k hk)

theorem Free.pop (h : P.Free e m free) (hk : k ∈ P.classes) :
    k.list.pop m = (m, .error (.ofKind .noMoreBuffer)) ∨
    ∃ a m', k.list.pop m = (m', .ok (freshSlice k.cap a)) ∧ P.Took e m free k.cap a m' := by
  obtain ⟨F, hF, hfree⟩ := h
  rcases BufferList.pop_cases (arena k) (hF.slot k hk) (hF.chain k hk) with he | ⟨a, b, L, hL, he⟩
  · exact .inl he
  have hak : a ∈ F k := by simp [hL]
  have ha := hF.slot k hk a hak
  obtain ⟨f1, f2, -⟩ := k.list.popped_fields (m := m) (BufferHeader.nextBufferOffset m a) ha.2
  refine .inr ⟨a, _, by rw [he, slotSlice_eq hk ha.1 ha.2], ha.1, (hfree a).mpr ⟨k, hk, hak⟩,
    ⟨_, hF.popped hk hL, ?_⟩, ?_, f2, f1⟩
  · intro x
    have hnodup := (hF.chain k hk).nodup
    rw [hL, List.nodup_cons] at hnodup
    change free x ∧ x ≠ a ↔ _
    rw [hfree]
    constructor
    · rintro ⟨⟨j, hj, hx⟩, hxa⟩
      refine ⟨j, hj, ?_⟩
      by_cases hjk : j = k
      · rw [hjk, hL, List.mem_cons] at hx
        rw [hjk, Function.update_self]
        exact hx.resolve_left hxa
      · rwa [Function.update_of_ne hjk]
    · rintro ⟨j, hj, hx⟩
      by_cases hjk : j = k
      · rw [hjk, Function.update_self] at hx
        exact ⟨⟨k, hk, by rw [hL]; exact List.mem_cons_of_mem a hx⟩, fun he => hnodup.1 (he ▸ hx)⟩
      · rw [Function.update_of_ne hjk] at hx
        exact ⟨⟨j, hj, hx⟩, fun he => hF.apart j hj k hk hjk x hx (he ▸ hak)⟩
  · intro d x hx hnx
    refine Touches.slot hk (by simpa using ⟨_, ha.1⟩) (touches_popped k m a _) hx ?_
    rw [List.mem_singleton]
    rintro rfl
    exact hnx ((hfree x).mpr ⟨k, hk, hak⟩)

def slots (ss : List BufferSlice) : List ℕ := ss.filterMap BufferSlice.bufferHeader

def caps (ss : List BufferSlice) : ℕ := (ss.map BufferSlice.cap).sum

theorem caps_append (ss ts : List BufferSlice) : caps (ss ++ ts) = caps ss + caps ts := by simp [caps]

inductive Takes (P : Pool) (e : Bool) : Mem → (ℕ → Prop) → List BufferSlice → Mem → (ℕ → Prop) → Prop
  | nil {m : Mem} {free : ℕ → Prop} : P.Free e m free → Takes P e m free [] m free
  | cons {m m₁ m' : Mem} {free free' : ℕ → Prop} {c a : ℕ} {ss : List BufferSlice} :
    P.Took e m free c a m₁ → Takes P e m₁ (fun x => free x ∧ x ≠ a) ss m' free' →
    Takes P e m free (freshSlice c a :: ss) m' free'

namespace Takes

variable {free' free'' : ℕ → Prop} {m'' : Mem} {ss ts : List BufferSlice}

theorem state (h : P.Takes e m free ss m' free') : P.Free e m' free' := by
  induction h with
  | nil h => exact h
  | cons _ _ ih => exact ih

theorem free_iff (h : P.Takes e m free ss m' free') (x : ℕ) : free' x ↔ free x ∧ x ∉ slots ss := by
  induction h with
  | nil h => simp [slots]
  | cons h _ ih =>
    rw [ih]
    simp [slots, freshSlice, and_assoc]

theorem frame (h : P.Takes e m free ss m' free') (hx : P.Slot d b) (hb : ¬ free b) :
    SameOn m m' b (b + (d + 20)) := by
  induction h with
  | nil h => exact SameOn.refl _ _ _
  | cons h _ ih => exact (h.frame d b hx hb).trans (ih fun hf => hb hf.1)

theorem append (h : P.Takes e m free ss m' free') (h' : P.Takes e m' free' ts m'' free'') :
    P.Takes e m free (ss ++ ts) m'' free'' := by
  induction h with
  | nil _ => exact h'
  | cons h _ ih => exact .cons h (ih h')

theorem mem {s : BufferSlice} (h : P.Takes e m free ss m' free') (hs : s ∈ ss) :
    ∃ c a, s = freshSlice c a ∧ P.Slot c a ∧ free a ∧ BufferHeader.isInUsed m' a = true ∧
      BufferHeader.hasNext m' a = false := by
  induction h with
  | nil _ => simp at hs
  | @cons m m₁ m' free free' c a ss h ht ih =>
    rcases List.mem_cons.mp hs with rfl | hs
    · have hsame := (ht.frame h.slot fun hf => hf.2 rfl).mono le_rfl (show a + 20 ≤ _ by omega)
      exact ⟨c, a, rfl, h.slot, h.was, by rw [BufferHeader.isInUsed_congr hsame, h.inUsed],
        by rw [BufferHeader.hasNext_congr hsame, h.noNext]⟩
    · obtain ⟨c', a', h1, h2, h3, h4⟩ := ih hs
      exact ⟨c', a', h1, h2, h3.1, h4⟩

theorem isFromShm {s : BufferSlice} (h : P.Takes e m free ss m' free') (hs : s ∈ ss) : s.isFromShm = true := by
  obtain ⟨c, a, rfl, -⟩ := h.mem hs
  rfl

theorem nodup (h : P.Takes e m free ss m' free') : (slots ss).Nodup := by
  induction h with
  | nil _ => exact List.nodup_nil
  | @cons m m₁ m' free free' c a ss h ht ih =>
    refine List.nodup_cons.mpr ⟨fun ha => ?_, ih⟩
    obtain ⟨s, hs, hsa⟩ := List.mem_filterMap.mp ha
    obtain ⟨c', a', rfl, -, hf, -⟩ := ht.mem hs
    exact hf.2 (Option.some.inj hsa)

end Takes

theorem Free.allocShmBuffer (h : P.Free e m free) (size : ℕ) :
    (∃ err, P.manager.allocShmBuffer m size = (m, .error err)) ∨
    ∃ c a m', P.manager.allocShmBuffer m size = (m', .ok (freshSlice c a)) ∧ size ≤ c ∧
      P.Took e m free c a m' := by
  unfold BufferManager.allocShmBuffer
  split_ifs with hsize
  · rw [P.lists, List.find?_map]
    cases hfind : P.classes.find? ((fun l => decide (size ≤ l.capPerBuffer m)) ∘ SizeClass.list) with
    | none => exact .inl ⟨_, rfl⟩
    | some k =>
      have hk := List.mem_of_find?_eq_some hfind
      have hcap := List.find?_some hfind
      obtain ⟨F, hF, -⟩ := id h
      rw [Function.comp_apply, (hF.chain k hk).per, decide_eq_true_eq] at hcap
      rcases h.pop hk with he | ⟨a, m', he, ht⟩
      · exact .inl ⟨_, he⟩
      · exact .inr ⟨k.cap, a, m', he, hcap, ht⟩
  · exact .inl ⟨_, rfl⟩

theorem Free.allocLoop (hk : k ∈ P.classes) {rounds : ℕ} {remain remain' : ℤ} {ss : List BufferSlice}
    (h : P.Free e m free) (heq : BufferManager.allocLoop k.list rounds m remain = (m', remain', ss)) :
    ∃ free', P.Takes e m free ss m' free' ∧ remain' = remain - caps ss ∧
      ∀ init last, ss = init ++ [last] → caps init < remain := by
  induction rounds generalizing m free remain ss with
  | zero =>
    simp only [BufferManager.allocLoop, Prod.mk.injEq] at heq
    obtain ⟨rfl, rfl, rfl⟩ := heq
    exact ⟨free, .nil h, by simp [caps], by simp⟩
  | succ rounds ih =>
    rw [BufferManager.allocLoop] at heq
    split_ifs at heq with hpos
    · rcases h.pop hk with he | ⟨a, m₁, he, ht⟩
      · rw [he] at heq
        simp only [BufferManager.allocRound, Prod.mk.injEq] at heq
        obtain ⟨rfl, rfl, rfl⟩ := heq
        exact ⟨free, .nil h, by simp [caps], by simp⟩
      · rw [he] at heq
        rcases hrec : BufferManager.allocLoop k.list rounds m₁ (remain - (freshSlice k.cap a).cap) with ⟨m₂, r, ts⟩
        simp only [BufferManager.allocRound, hrec, Prod.mk.injEq] at heq
        obtain ⟨rfl, rfl, rfl⟩ := heq
        obtain ⟨free', htakes, hr, hinit⟩ := ih ht.state hrec
        refine ⟨free', .cons ht htakes, ?_, ?_⟩
        · rw [hr]
          simp only [caps, List.map_cons, List.sum_cons]
          push_cast
          ring
        · intro init last hsplit
          cases init with
          | nil => simpa [caps] using hpos
          | cons s init =>
            obtain ⟨rfl, rfl⟩ := List.cons.inj hsplit
            have := hinit init last rfl
            have hcons : caps (freshSlice k.cap a :: init) = (freshSlice k.cap a).cap + caps init := rfl
            omega
    · simp only [Prod.mk.injEq] at heq
      obtain ⟨rfl, rfl, rfl⟩ := heq
      exact ⟨free, .nil h, by simp [caps], by simp⟩

theorem Free.allocLists {ks : List SizeClass} (hks : ∀ k ∈ ks, k ∈ P.classes) {remain remain' : ℤ}
    {ss : List BufferSlice} (h : P.Free e m free)
    (heq : BufferManager.allocLists (ks.map SizeClass.list) m remain = (m', remain', ss)) :
    ∃ free', P.Takes e m free ss m' free' ∧ remain' = remain - caps ss ∧
      ∀ init last, ss = init ++ [last] → caps init < remain := by
  induction ks generalizing m free remain ss with
  | nil =>
    simp only [List.map_nil, BufferManager.allocLists, Prod.mk.injEq] at heq
    obtain ⟨rfl, rfl, rfl⟩ := heq
    exact ⟨free, .nil h, by simp [caps], by simp⟩
  | cons k ks ih =>
    rw [List.map_cons, BufferManager.allocLists] at heq
    split_ifs at heq with hpos
    · rcases hone : BufferManager.allocLoop k.list remain.toNat m remain with ⟨m₁, r₁, ts⟩
      rw [hone] at heq
      rcases hrec : BufferManager.allocLists (ks.map SizeClass.list) m₁ r₁ with ⟨m₂, r₂, us⟩
      simp only [hrec, Prod.mk.injEq] at heq
      obtain ⟨rfl, rfl, rfl⟩ := heq
      obtain ⟨free₁, ht, hr₁, hinit₁⟩ := h.allocLoop (hks k List.mem_cons_self) hone
      obtain ⟨free₂, hu, hr₂, hinit₂⟩ := ih (fun j hj => hks j (List.mem_cons_of_mem k hj)) ht.state hrec
      refine ⟨free₂, ht.append hu, by rw [hr₂, hr₁, caps_append]; push_cast; ring, ?_⟩
      intro init last hsplit
      rcases List.eq_nil_or_concat' us with rfl | ⟨us', x, rfl⟩
      · exact hinit₁ init last (by simpa using hsplit)
      · rw [← List.append_assoc] at hsplit
        obtain ⟨rfl, -⟩ := List.append_inj' hsplit rfl
        have := hinit₂ us' x rfl
        rw [caps_append]
        push_cast
        omega
    · simp only [Prod.mk.injEq] at heq
      obtain ⟨rfl, rfl, rfl⟩ := heq
      exact ⟨free, .nil h, by simp [caps], by simp⟩

theorem Free.allocShmBuffers {size : ℕ} {n : ℤ} {ss : List BufferSlice} (h : P.Free e m free)
    (heq : P.manager.allocShmBuffers m size = (m', n, ss)) :
    ∃ free', P.Takes e m free ss m' free' ∧ n = caps ss ∧
      ∀ init last, ss = init ++ [last] → caps init < size := by
  unfold BufferManager.allocShmBuffers at heq
  rw [P.lists, ← List.map_reverse] at heq
  rcases hlists : BufferManager.allocLists (P.classes.reverse.map SizeClass.list) m size with ⟨m₁, r, ts⟩
  rw [hlists] at heq
  simp only [Prod.mk.injEq] at heq
  obtain ⟨rfl, rfl, rfl⟩ := heq
  obtain ⟨free', ht, hr, hinit⟩ := h.allocLists (fun k hk => List.mem_reverse.mp hk) hlists
  refine ⟨free', ht, by rw [hr]; ring, fun init last hsplit => ?_⟩
  exact_mod_cast hinit init last hsplit

structure Refers (P : Pool) (s : BufferSlice) (a : ℕ) : Prop where
  header : s.bufferHeader = some a
  shm : s.isFromShm = true
  offset : s.offsetInShm = a
  slot : P.Slot s.cap a

structure Gave (P : Pool) (e : Bool) (m : Mem) (free : ℕ → Prop) (a : ℕ) (m' : Mem) : Prop where
  state : P.Free e m' (fun x => free x ∨ x = a)
  frame : ∀ d x, P.Slot d x → ¬ free x → x ≠ a → SameOn m m' x (x + (d + 20))

theorem rel_of_find {α : Type*} {R : α → α → Prop} {p : α → Bool} {l : List α} {x y : α} (hR : l.Pairwise R)
    (hfind : l.find? p = some x) (hy : y ∈ l) (hp : p y = true) : y = x ∨ R x y := by
  obtain ⟨-, before, behind, rfl, hbefore⟩ := List.find?_eq_some_iff_append.mp hfind
  rcases List.mem_append.mp hy with hy | hy
  · exact absurd hp (by simpa using hbefore y hy)
  · rcases List.mem_cons.mp hy with rfl | hy
    · exact .inl rfl
    · exact .inr ((List.pairwise_cons.mp (List.pairwise_append.mp hR).2.1).1 y hy)

theorem Slot.first (h : P.Slot c a) : ∃ k ∈ P.classes, k.cap = c ∧
    P.classes.find? (fun k => decide (c = k.cap)) = some k ∧ k.list.bufferRegion ≤ a ∧
    (Unmixed P.classes → IsSlot k.list k.num k.cap a ∨ ∃ j ∈ P.classes, j.num = 1 ∧ IsSlot j.list j.num j.cap a) := by
  obtain ⟨j, hj, hjc, hja⟩ := h
  obtain ⟨k, hfind⟩ : ∃ k, P.classes.find? (fun k => decide (c = k.cap)) = some k := by
    apply Option.isSome_iff_exists.mp
    rw [List.find?_isSome]
    exact ⟨j, hj, by simp [hjc]⟩
  have hkc : c = k.cap := by simpa using List.find?_some hfind
  refine ⟨k, List.mem_of_find?_eq_some hfind, hkc.symm, hfind, ?_, ?_⟩
  · have hle := hja.le
    rcases rel_of_find P.order hfind hj (decide_eq_true hjc.symm) with rfl | hstop
    · exact hle
    · rw [stop_eq] at hstop
      rw [BufferList.bufferRegion_eq] at hle ⊢
      omega
  · intro hunmixed
    rcases rel_of_find hunmixed hfind hj (decide_eq_true hjc.symm) with rfl | hone
    · exact .inl hja
    · exact .inr ⟨j, hj, hone (hkc.symm.trans hjc.symm), hja⟩

theorem Chains.only_free (hF : P.Chains true m F) (hj : j ∈ P.classes) (hone : j.num = 1) (ha : IsSlot j.list j.num j.cap a) :
    a ∈ F j := by
  have hlist := hF.counts rfl j hj
  have hhead := List.mem_of_mem_head? hlist.head
  obtain ⟨n, hn, hna⟩ := hlist.slot _ hhead
  obtain ⟨i, hi, hia⟩ := ha
  have hin : i = n := by omega
  rwa [hia, hin, ← hna]

theorem Chains.pushed (h : P.Chains e m F) (hk : k ∈ P.classes) (hs : P.Slot k.cap a)
    (hle : k.list.bufferRegion ≤ a) (hna : ∀ j ∈ P.classes, a ∉ F j)
    (hown : e = true → IsSlot k.list k.num k.cap a) :
    P.Chains e (k.list.pushed m a (k.list.bufferRegion + k.list.tailLoad m) (a - k.list.bufferRegion))
      (Function.update F k (F k ++ [a])) := by
  have hchain := h.chain k hk
  have htail := List.mem_of_getLast? hchain.tail
  have ht := h.slot k hk _ htail
  have hcap := h.caps _ _ hs
  have hne : a ≠ k.list.bufferRegion + k.list.tailLoad m := fun he => hna k hk (he ▸ htail)
  have hapart := hs.apart ht.1 hne
  have hlt : a - k.list.bufferRegion < 4294967296 := by
    have := hs.lt
    omega
  refine h.replace hk (touches_pushed k m a _ _) ?_ ?_ ?_ ?_ ?_
  · intro x hx
    simp only [List.mem_cons, List.not_mem_nil, or_false] at hx
    rcases hx with rfl | rfl
    · exact ⟨_, hs, by rw [(k.list.pushed_fields _ hle (by omega)).2.2.1, hcap]⟩
    · exact ⟨_, ht.1, by
        rw [(k.list.pushed_tail_fields _ ht.2 (by omega) hlt).2.2.2.1, h.caps _ _ ht.1]⟩
  · intro j hj hjk x hx
    have hxk := h.apart j hj k hk hjk x hx
    have hxa : x ≠ a := fun he => hna j hj (he ▸ hx)
    have hxt : x ≠ k.list.bufferRegion + k.list.tailLoad m := fun he => hxk (he ▸ htail)
    simp [hxa, hxt, hxk]
  · exact hchain.pushed (arena k) (h.slot k hk) ⟨hs, hle⟩ (hna k hk) hcap
  · intro x hx
    rcases List.mem_append.mp hx with hx | hx
    · exact h.slot k hk x hx
    · rw [List.mem_singleton.mp hx]
      exact ⟨hs, hle⟩
  · intro he
    have hpush := (h.counts he k hk).push (P.geometry k hk) (hown he) (hna k hk) hcap
      (slotSlice_alias k.list k.cap a)
    rwa [BufferList.push_eq (P.geometry k hk).arena (hown he) (slotSlice_alias k.list k.cap a)] at hpush

theorem Chains.find_list (hF : P.Chains e m F) (hfind : P.classes.find? (fun k => decide (c = k.cap)) = some k) :
    P.manager.lists.find? (fun l => decide (c = l.capPerBuffer m)) = some k.list := by
  have hper : P.classes.find? ((fun l => decide (c = l.capPerBuffer m)) ∘ SizeClass.list) = some k := by
    rw [← hfind]
    apply List.find?_congr
    intro j hj
    rw [Function.comp_apply, (hF.chain j hj).per]
  rw [P.lists, List.find?_map, hper, Option.map_some]

theorem Chains.recycleBuffer_eq {s : BufferSlice} (hF : P.Chains e m F) (hs : P.Refers s a)
    (hu : BufferHeader.isInUsed m a = true) :
    ∃ k ∈ P.classes, P.classes.find? (fun k => decide (s.cap = k.cap)) = some k ∧ P.Slot k.cap a ∧ k.list.bufferRegion ≤ a ∧
      (Unmixed P.classes → IsSlot k.list k.num k.cap a ∨ ∃ j ∈ P.classes, j.num = 1 ∧ IsSlot j.list j.num j.cap a) ∧
      P.manager.recycleBuffer m s =
        k.list.pushed m a (k.list.bufferRegion + k.list.tailLoad m) (a - k.list.bufferRegion) := by
  obtain ⟨k, hk, hkc, hfind, hle, hown⟩ := hs.slot.first
  have hslot : P.Slot k.cap a := hkc ▸ hs.slot
  have hlists := hF.find_list hfind
  have halias : Alias k.list k.cap a s := by
    refine ⟨hs.header, hs.shm, hkc.symm, ?_⟩
    have := hslot.lt
    rw [hs.offset, P.region k hk, u32]
    omega
  refine ⟨k, hk, hfind, hslot, hle, hown, ?_⟩
  rw [← BufferList.push_eq (arena k) ⟨hslot, hle⟩ halias]
  simp [BufferManager.recycleBuffer, hs.shm, hs.header, hu, hlists]

theorem Free.recycleBuffer {s : BufferSlice} (h : P.Free e m free) (hs : P.Refers s a) (hna : ¬ free a) :
    (BufferHeader.isInUsed m a = false ∧ P.manager.recycleBuffer m s = m) ∨
    (BufferHeader.isInUsed m a = true ∧ P.Gave e m free a (P.manager.recycleBuffer m s)) := by
  obtain ⟨F, hF, hfree⟩ := h
  cases hu : BufferHeader.isInUsed m a with
  | false => exact .inl ⟨rfl, by simp [BufferManager.recycleBuffer, hs.shm, hs.header, hu]⟩
  | true =>
    right
    obtain ⟨k, hk, -, hslot, hle, hown, heq⟩ := hF.recycleBuffer_eq hs hu
    have hna' : ∀ j ∈ P.classes, a ∉ F j := fun j hj hx => hna ((hfree a).mpr ⟨j, hj, hx⟩)
    have htail := List.mem_of_getLast? (hF.chain k hk).tail
    have hown' : e = true → IsSlot k.list k.num k.cap a := by
      rintro rfl
      refine (hown (hF.unmixed rfl)).resolve_right ?_
      rintro ⟨j, hj, hone, hja⟩
      exact hna' j hj (hF.only_free hj hone hja)
    refine ⟨rfl, ?_, ?_⟩
    · refine ⟨_, heq ▸ hF.pushed hk hslot hle hna' hown', ?_⟩
      intro x
      change free x ∨ x = a ↔ _
      rw [hfree]
      constructor
      · rintro (⟨j, hj, hx⟩ | rfl)
        · refine ⟨j, hj, ?_⟩
          by_cases hjk : j = k
          · rw [hjk, Function.update_self]
            exact List.mem_append_left _ (hjk ▸ hx)
          · rwa [Function.update_of_ne hjk]
        · exact ⟨k, hk, by simp⟩
      · rintro ⟨j, hj, hx⟩
        by_cases hjk : j = k
        · rw [hjk, Function.update_self, List.mem_append, List.mem_singleton] at hx
          exact hx.imp_left fun hx => ⟨k, hk, hx⟩
        · rw [Function.update_of_ne hjk] at hx
          exact .inl ⟨j, hj, hx⟩
    · intro d x hx hnx hxa
      rw [heq]
      refine Touches.slot hk ?_ (touches_pushed k m a _ _) hx ?_
      · intro y hy
        simp only [List.mem_cons, List.not_mem_nil, or_false] at hy
        rcases hy with rfl | rfl
        · exact ⟨_, hslot⟩
        · exact ⟨_, (hF.slot k hk _ htail).1⟩
      · have hxt : x ≠ k.list.bufferRegion + k.list.tailLoad m :=
          fun he => hnx ((hfree x).mpr ⟨k, hk, he ▸ htail⟩)
        simp [hxa, hxt]

theorem Free.write (h : P.Free e m free) (ha : P.Slot c a) (hna : ¬ free a)
    (hout : ∀ lo hi, a + (c + 20) ≤ lo ∨ hi ≤ a → SameOn m m' lo hi)
    (hcap : BufferHeader.cap m' a = BufferHeader.cap m a) : P.Free e m' free := by
  obtain ⟨F, hF, hfree⟩ := h
  have hheader : ∀ k ∈ P.classes, SameOn m m' k.list.offsetInShm (k.list.offsetInShm + 36) := by
    intro k hk
    have := ha.off_header hk
    exact hout _ _ (by omega)
  have hslot : ∀ d x, P.Slot d x → x ≠ a → SameOn m m' x (x + 20) := by
    intro d x hx hxa
    have := ha.apart hx hxa.symm
    exact hout _ _ (by omega)
  have hchain : ∀ k ∈ P.classes, ∀ x ∈ F k, SameOn m m' x (x + 20) := by
    intro k hk x hx
    exact hslot k.cap x (hF.slot k hk x hx).1 fun he => hna (he ▸ (hfree x).mpr ⟨k, hk, hx⟩)
  refine ⟨F, ⟨?_, hF.slot, hF.apart, ?_, hF.unmixed, ?_⟩, hfree⟩
  · intro k hk
    exact (hF.chain k hk).congr (hheader k hk) (hchain k hk)
  · intro d x hx
    by_cases hxa : x = a
    · rw [hxa, hcap, ← hxa]
      exact hF.caps d x hx
    · rw [BufferHeader.cap_congr (hslot d x hx hxa)]
      exact hF.caps d x hx
  · intro he k hk
    exact (hF.counts he k hk).congr (hheader k hk) (hchain k hk)

section Single

variable {n : ℕ} {size : ℕ} (hn : 0 < n) (hfit : 36 + n * (4 + 20) ≤ size) (hsize : size < 4294967296)

/-- A region with one list of `n` slots of four bytes, at its start. -/
def single : Pool where
  manager := ⟨[⟨0, n * (4 + 20), 36⟩], 4, size⟩
  classes := [⟨⟨0, n * (4 + 20), 36⟩, n, 4⟩]
  lists := rfl
  geometry k hk := by
    rw [List.mem_singleton.mp hk]
    exact ⟨hn, rfl, lt_of_le_of_lt hfit hsize⟩
  cap_pos k hk := by
    rw [List.mem_singleton.mp hk]
    exact Nat.succ_pos 3
  region k hk := by
    rw [List.mem_singleton.mp hk]
    rfl
  order := List.pairwise_singleton _ _
  fits k hk := by
    rw [List.mem_singleton.mp hk]
    change 0 + 36 + n * (4 + 20) ≤ size
    omega
  small := hsize

theorem single_free_of {L : List ℕ} (hlist : FreeList ⟨0, n * (4 + 20), 36⟩ n 4 m L)
    (hcaps : ∀ a ∈ BufferList.slots ⟨0, n * (4 + 20), 36⟩ n 4, BufferHeader.cap m a = 4) :
    (single hn hfit hsize).Free true m (· ∈ L) := by
  refine ⟨fun _ => L, ⟨?_, ?_, ?_, ?_, ?_, ?_⟩, ?_⟩
  · intro k hk
    rw [List.mem_singleton.mp hk]
    exact hlist.toFreeChain
  · intro k hk a ha
    rw [List.mem_singleton.mp hk]
    refine ⟨⟨_, List.mem_singleton_self _, rfl, hlist.slot a ha⟩, ?_⟩
    obtain ⟨j, -, rfl⟩ := hlist.slot a ha
    exact Nat.le_add_right _ _
  · intro j hj k hk hne
    rw [List.mem_singleton.mp hj, List.mem_singleton.mp hk] at hne
    exact absurd rfl hne
  · rintro d a ⟨k, hk, rfl, ha⟩
    rw [List.mem_singleton.mp hk] at ha ⊢
    exact hcaps a (BufferList.mem_slots.mpr ha)
  · intro _
    exact List.pairwise_singleton _ _
  · intro _ k hk
    rw [List.mem_singleton.mp hk]
    exact hlist
  · intro a
    simp [single]

theorem single_free (m : Mem) :
    (single hn hfit hsize).Free true (BufferList.created ⟨0, n * (4 + 20), 36⟩ n 4 m)
      (· ∈ BufferList.slots ⟨0, n * (4 + 20), 36⟩ n 4) := by
  have hs : 36 + n * (4 + 20) < 4294967296 := lt_of_le_of_lt hfit hsize
  have hlist := BufferList.created_freeList (l := ⟨0, n * (4 + 20), 36⟩) (m := m) hn hs
  exact single_free_of hn hfit hsize hlist fun a ha => (hlist.clean a ha).2.2.2

end Single

end Pool

end Shmipc
