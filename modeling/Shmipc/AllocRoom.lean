import Shmipc.HomeList
import Shmipc.LinkedBufferInv
import Shmipc.ByteFifo

namespace Shmipc

open ByteMemory

namespace Pool

def FreeIn (free : ℕ → Prop) (k : SizeClass) (a : ℕ) : Prop := IsSlot k.list k.num k.cap a ∧ free a

def Last (free : ℕ → Prop) (k : SizeClass) : Prop := ∃! a, FreeIn free k a

def Spare (free : ℕ → Prop) (k : SizeClass) : Prop := ∃ a b, a ≠ b ∧ FreeIn free k a ∧ FreeIn free k b

/-- The lists in ascending order of capacity, and `max_slice_size_` as both constructors set it. -/
structure Ascending (P : Pool) : Prop where
  caps : P.classes.Pairwise fun j k => j.cap ≤ k.cap
  max : ∀ k ∈ P.classes.getLast?, P.manager.maxSliceSize = k.cap

def left (free : ℕ → Prop) (ss : List BufferSlice) (a : ℕ) : Prop := free a ∧ a ∉ slots ss

variable {P : Pool} {m m' : Mem} {free free' : ℕ → Prop} {F : SizeClass → List ℕ} {j k : SizeClass} {a size : ℕ}
  {ss ts : List BufferSlice}

theorem Last.congr (h : Last free k) (hiff : ∀ a, IsSlot k.list k.num k.cap a → (free a ↔ free' a)) : Last free' k := by
  obtain ⟨a, ha, hone⟩ := h
  refine ⟨a, ⟨ha.1, (hiff a ha.1).mp ha.2⟩, ?_⟩
  intro b hb
  exact hone b ⟨hb.1, (hiff b hb.1).mpr hb.2⟩

theorem left_nil (a : ℕ) : left free [] a ↔ free a := by simp [left, slots]

theorem left_append (a : ℕ) : left free (ss ++ ts) a ↔ left (left free ss) ts a := by
  simp [left, slots, and_assoc]

theorem left_cons (c b a : ℕ) : left free (freshSlice c b :: ss) a ↔ left (fun x => free x ∧ x ≠ b) ss a := by
  simp [left, slots, freshSlice, and_assoc]

theorem mem_chain (hF : P.Chains true m F) (hfree : ∀ a, free a ↔ ∃ k ∈ P.classes, a ∈ F k) (hk : k ∈ P.classes) (a : ℕ) :
    a ∈ F k ↔ FreeIn free k a := by
  have hlist : ∀ j ∈ P.classes, FreeList j.list j.num j.cap m (F j) := hF.counts rfl
  constructor
  · intro ha
    exact ⟨(hlist k hk).slot a ha, (hfree a).mpr ⟨k, hk, ha⟩⟩
  · rintro ⟨hslot, ha⟩
    obtain ⟨j, hj, haj⟩ := (hfree a).mp ha
    have hjk : j = k := slot_own hj hk ((hlist j hj).slot a haj) hslot
    exact hjk ▸ haj

theorem Free.pop_spare (h : P.Free true m free) (hk : k ∈ P.classes) :
    (Last free k ∧ k.list.pop m = (m, .error (.ofKind .noMoreBuffer))) ∨
    (Spare free k ∧ ∃ a m', k.list.pop m = (m', .ok (freshSlice k.cap a)) ∧ FreeIn free k a ∧ P.Took true m free k.cap a m') := by
  obtain ⟨F, hF, hfree⟩ := id h
  have hlist := hF.counts rfl k hk
  have hmem := mem_chain hF hfree hk
  cases hL : F k with
  | nil =>
    have hhead := hlist.head
    rw [hL] at hhead
    cases hhead
  | cons a L =>
    rw [hL] at hlist hmem
    cases L with
    | nil =>
      refine .inl ⟨⟨a, (hmem a).mp List.mem_cons_self, ?_⟩, hlist.pop_singleton (P.geometry k hk)⟩
      intro b hb
      exact List.mem_singleton.mp ((hmem b).mpr hb)
    | cons b L =>
      have ha := (hmem a).mp List.mem_cons_self
      have hb := (hmem b).mp (List.mem_cons_of_mem a List.mem_cons_self)
      have hne : a ≠ b := by
        rintro rfl
        exact (List.nodup_cons.mp hlist.nodup).1 List.mem_cons_self
      have hpop := hlist.pop_cons (P.geometry k hk)
      rw [slotSlice_eq hk ⟨k, hk, rfl, ha.1⟩ ha.1.le] at hpop
      refine .inr ⟨⟨a, b, hne, ha, hb⟩, a, _, hpop, ha, ?_⟩
      rcases h.pop hk with he | ⟨a', m', he, ht⟩
      · cases congrArg Prod.snd (hpop.symm.trans he)
      · obtain ⟨hm, hs⟩ := Prod.mk.inj (hpop.symm.trans he)
        have haa : a = a' := congrArg BufferSlice.offsetInShm (Except.ok.inj hs)
        rw [hm, haa]
        exact ht

theorem not_last_spare (h : Spare free k) : ¬ Last free k := by
  rintro ⟨c, -, hone⟩
  obtain ⟨a, b, hne, ha, hb⟩ := h
  exact hne ((hone a ha).trans (hone b hb).symm)

theorem Free.allocLoop_last (h : P.Free true m free) (hk : k ∈ P.classes) {rounds : ℕ} {remain remain' : ℤ} (hrounds : remain ≤ rounds)
    (heq : BufferManager.allocLoop k.list rounds m remain = (m', remain', ss)) :
    (∀ a ∈ slots ss, IsSlot k.list k.num k.cap a) ∧ (0 < remain' → Last (left free ss) k) := by
  induction rounds generalizing m free remain ss with
  | zero =>
    cases heq
    exact ⟨nofun, fun hpos => absurd hrounds (not_le.mpr hpos)⟩
  | succ rounds ih =>
    by_cases hpos : 0 < remain
    · rw [BufferManager.allocLoop, if_pos hpos] at heq
      rcases h.pop_spare hk with ⟨hlast, he⟩ | ⟨-, a, m₁, he, ha, ht⟩
      · rw [he] at heq
        simp only [BufferManager.allocRound, Prod.mk.injEq] at heq
        obtain ⟨rfl, rfl, rfl⟩ := heq
        exact ⟨nofun, fun _ => hlast.congr fun a _ => (left_nil a).symm⟩
      · rcases hrec : BufferManager.allocLoop k.list rounds m₁ (remain - (freshSlice k.cap a).cap) with ⟨m₂, r, ts⟩
        rw [he] at heq
        simp only [BufferManager.allocRound, hrec, Prod.mk.injEq] at heq
        obtain ⟨rfl, rfl, rfl⟩ := heq
        have hcap := P.cap_pos k hk
        have hless : remain - ((freshSlice k.cap a).cap : ℤ) ≤ rounds := by
          change remain - (k.cap : ℤ) ≤ rounds
          push_cast at hrounds
          omega
        obtain ⟨hown, hlast⟩ := ih ht.state hless hrec
        constructor
        · intro x hx
          rcases List.mem_cons.mp hx with rfl | hx
          · exact ha.1
          · exact hown x hx
        · intro hr
          exact (hlast hr).congr fun x _ => (left_cons k.cap a x).symm
    · rw [BufferManager.allocLoop_done (not_lt.mp hpos)] at heq
      cases heq
      exact ⟨nofun, fun h => absurd h hpos⟩

theorem classes_nodup (P : Pool) : P.classes.Nodup := by
  apply P.order.imp
  rintro p q hle rfl
  rw [stop_eq] at hle
  omega

theorem Free.allocLists_last {ks : List SizeClass} (h : P.Free true m free) (hks : ∀ k ∈ ks, k ∈ P.classes) (hnodup : ks.Nodup)
    {remain remain' : ℤ} (heq : BufferManager.allocLists (ks.map SizeClass.list) m remain = (m', remain', ss)) :
    (∀ a ∈ slots ss, ∃ k ∈ ks, IsSlot k.list k.num k.cap a) ∧ (0 < remain' → ∀ k ∈ ks, Last (left free ss) k) := by
  induction ks generalizing m free remain ss with
  | nil =>
    cases heq
    exact ⟨nofun, fun _ => nofun⟩
  | cons k ks ih =>
    by_cases hpos : 0 < remain
    · rw [List.map_cons, BufferManager.allocLists, if_pos hpos] at heq
      rcases hone : BufferManager.allocLoop k.list remain.toNat m remain with ⟨m₁, r₁, ts⟩
      rcases hrec : BufferManager.allocLists (ks.map SizeClass.list) m₁ r₁ with ⟨m₂, r₂, us⟩
      simp only [hone, hrec, Prod.mk.injEq] at heq
      obtain ⟨rfl, rfl, rfl⟩ := heq
      have hk := hks k List.mem_cons_self
      have hrest : ∀ j ∈ ks, j ∈ P.classes := fun j hj => hks j (List.mem_cons_of_mem k hj)
      obtain ⟨hnot, hnodup⟩ := List.nodup_cons.mp hnodup
      obtain ⟨free₁, ht, -⟩ := h.allocLoop hk hone
      obtain ⟨-, -, hr₂, -⟩ := ht.state.allocLists hrest hrec
      obtain ⟨hown, hlast⟩ := h.allocLoop_last hk (Int.self_le_toNat remain) hone
      obtain ⟨hown', hlast'⟩ := ih ht.state hrest hnodup hrec
      have hslots : slots (ts ++ us) = slots ts ++ slots us := List.filterMap_append
      have hleft : ∀ a, left free₁ us a ↔ left free (ts ++ us) a := by
        intro a
        rw [left_append, left, ht.free_iff]
        rfl
      constructor
      · intro a ha
        rw [hslots] at ha
        rcases List.mem_append.mp ha with ha | ha
        · exact ⟨k, List.mem_cons_self, hown a ha⟩
        · obtain ⟨j, hj, haj⟩ := hown' a ha
          exact ⟨j, List.mem_cons_of_mem k hj, haj⟩
      · intro hr j hj
        rcases List.mem_cons.mp hj with rfl | hj
        · -- the lists behind it leave it as it is
          apply (hlast (by omega)).congr
          intro a ha
          rw [left_append]
          constructor
          · intro hfree
            refine ⟨hfree, fun hin => ?_⟩
            obtain ⟨i, hi, hai⟩ := hown' a hin
            exact hnot (slot_own (hrest i hi) hk hai ha ▸ hi)
          · exact fun hfree => hfree.1
        · exact (hlast' hr j hj).congr fun a _ => hleft a
    · rw [BufferManager.allocLists_done (not_lt.mp hpos)] at heq
      cases heq
      exact ⟨nofun, fun h => absurd h hpos⟩

theorem Free.allocShmBuffers_last {n : ℤ} (h : P.Free true m free) (heq : P.manager.allocShmBuffers m size = (m', n, ss))
    (hshort : Pool.caps ss < size) : ∀ k ∈ P.classes, Last (left free ss) k := by
  obtain ⟨-, -, hn, -⟩ := h.allocShmBuffers heq
  rw [BufferManager.allocShmBuffers, P.lists, ← List.map_reverse] at heq
  rcases hlists : BufferManager.allocLists (P.classes.reverse.map SizeClass.list) m size with ⟨m₁, r, ts⟩
  rw [hlists] at heq
  simp only [Prod.mk.injEq] at heq
  obtain ⟨rfl, rfl, rfl⟩ := heq
  obtain ⟨-, hlast⟩ := h.allocLists_last (fun k hk => List.mem_reverse.mp hk) (List.nodup_reverse.mpr P.classes_nodup) hlists
  intro k hk
  exact hlast (by omega) k (List.mem_reverse.mpr hk)

namespace Ascending

theorem le_max (h : P.Ascending) (hk : k ∈ P.classes) : k.cap ≤ P.manager.maxSliceSize := by
  rcases List.eq_nil_or_concat' P.classes with hnil | ⟨init, last, hclasses⟩
  · rw [hnil] at hk
    cases hk
  · have hmax := h.max last (by rw [hclasses, List.getLast?_concat]; rfl)
    have hcaps := h.caps
    rw [hclasses] at hk hcaps
    rw [hmax]
    rcases List.mem_append.mp hk with hk | hk
    · exact (List.pairwise_append.mp hcaps).2.2 k hk last List.mem_cons_self
    · rw [List.mem_singleton.mp hk]

theorem find_smallest (h : P.Ascending) (hunmixed : Unmixed P.classes) (hk : k ∈ P.classes) (hfits : size ≤ k.cap)
    (hleast : ∀ j ∈ P.classes, size ≤ j.cap → k.cap ≤ j.cap) (hspare : Spare free k) :
    P.classes.find? (fun j => decide (size ≤ j.cap)) = some k := by
  cases hfind : P.classes.find? fun j => decide (size ≤ j.cap) with
  | none => exact absurd (decide_eq_true hfits) (List.find?_eq_none.mp hfind k hk)
  | some i =>
    have hi : size ≤ i.cap := by simpa using List.find?_some hfind
    have hle := hleast i (List.mem_of_find?_eq_some hfind) hi
    rcases rel_of_find (h.caps.and hunmixed) hfind hk (decide_eq_true hfits) with rfl | ⟨hik, hone⟩
    · rfl
    · -- a list of one slot has none to spare
      obtain ⟨a, b, hab, ⟨⟨x, hx, hxa⟩, -⟩, ⟨y, hy, hyb⟩, -⟩ := hspare
      have hnum := hone (by omega)
      have hxy : x = y := by omega
      exact absurd (hxa.trans (hxy ▸ hyb.symm)) hab

theorem allocShmBuffer_spare (h : P.Ascending) (hunmixed : Unmixed P.classes) (hfree : P.Free true m free)
    (hk : k ∈ P.classes) (hfits : size ≤ k.cap) (hleast : ∀ j ∈ P.classes, size ≤ j.cap → k.cap ≤ j.cap) (hspare : Spare free k) :
    ∃ a m', P.manager.allocShmBuffer m size = (m', .ok (freshSlice k.cap a)) ∧ FreeIn free k a := by
  obtain ⟨F, hF, -⟩ := id hfree
  have hfind : P.manager.lists.find? (fun l => decide (size ≤ l.capPerBuffer m)) = some k.list := by
    have hsame : P.classes.find? ((fun l => decide (size ≤ l.capPerBuffer m)) ∘ SizeClass.list) =
        P.classes.find? fun j => decide (size ≤ j.cap) := by
      apply List.find?_congr
      intro j hj
      rw [Function.comp_apply, (hF.chain j hj).per]
    rw [P.lists, List.find?_map, hsame, h.find_smallest hunmixed hk hfits hleast hspare, Option.map_some]
  rw [BufferManager.allocShmBuffer, if_pos (hfits.trans (h.le_max hk)), hfind]
  rcases hfree.pop_spare hk with ⟨hlast, -⟩ | ⟨-, a, m', hpop, ha, -⟩
  · exact absurd hlast (not_last_spare hspare)
  · exact ⟨a, m', hpop, ha⟩

end Ascending

end Pool

section Created

open BufferManager

theorem map_cap_layout (cap had : ℕ) (pairs : List SizePercentPair) :
    (layout cap pairs had).map SizeClass.cap = pairs.map SizePercentPair.size := by
  induction pairs generalizing had with
  | nil => rfl
  | cons pair pairs ih =>
    rw [layout, List.map_cons, List.map_cons, ih]
    rfl

theorem laidPool_ascending {cap M had : ℕ} {pairs : List SizePercentPair} (hM : M < 4294967296)
    (hpos : ∀ p ∈ pairs, 0 < bufferNum cap p ∧ 0 < p.size) (hfit : had + used cap pairs ≤ M)
    (hsizes : pairs.Pairwise fun p q => p.size ≤ q.size) :
    (laidPool hM hpos hfit ((pairs.getLast?.map SizePercentPair.size).getD 0)).Ascending where
  caps := by
    rw [← List.pairwise_map (f := SizePercentPair.size) (R := (· ≤ ·)), ← map_cap_layout cap had, List.pairwise_map] at hsizes
    exact hsizes
  max k hk := by
    have hlast : (layout cap pairs had).getLast? = some k := hk
    have hmap := congrArg List.getLast? (map_cap_layout cap had pairs)
    rw [List.getLast?_map, List.getLast?_map, hlast] at hmap
    change (pairs.getLast?.map SizePercentPair.size).getD 0 = k.cap
    rw [← hmap]
    rfl

end Created

namespace LinkedBuffer

variable {P : Pool} {m m' : Mem} {free free' : ℕ → Prop} {b : LinkedBuffer} {k : SizeClass} {size : ℕ} {ss : List BufferSlice}

structure Gives (P : Pool) (m : Mem) (free : ℕ → Prop) (size : ℕ) (m' : Mem) (free' : ℕ → Prop) (ss : List BufferSlice) : Prop where
  state : P.Free true m' free'
  taken : ∀ a, free' a ↔ Pool.left free ss a
  fresh : ∀ s ∈ ss, Blank s ∧ ((∃ c a, P.Slot c a ∧ free a ∧ s = freshSlice c a) ∨ s.bufferHeader = none ∧ s.isFromShm = false)
  distinct : (Pool.slots ss).Nodup
  enough : size ≤ Pool.caps ss
  tight : ∀ init last, ss = init ++ [last] → Pool.caps init < size

def fromPool (ss : List BufferSlice) : List BufferSlice := ss.filter BufferSlice.isFromShm

theorem Gives.of_takes {hs : List BufferSlice} (ht : P.Takes true m free ss m' free') (hsize : size < 4294967296)
    (hhs : hs = if Pool.caps ss < size then [heapFor (size - Pool.caps ss)] else [])
    (htight : ∀ init last, ss = init ++ [last] → Pool.caps init < size) : Gives P m free size m' free' (ss ++ hs) := by
  have hok := heap_ok P hsize hhs
  obtain ⟨henough, htight⟩ := caps_heap P hsize hhs htight
  have hheap : Pool.slots hs = [] := List.filterMap_eq_nil_iff.mpr fun s hs => (hok s hs).2.1
  have hslots : Pool.slots (ss ++ hs) = Pool.slots ss := by
    rw [Pool.slots, List.filterMap_append]
    change Pool.slots ss ++ Pool.slots hs = _
    rw [hheap, List.append_nil]
  refine ⟨ht.state, ?_, ?_, ?_, henough, htight⟩
  · intro a
    rw [Pool.left, hslots]
    exact ht.free_iff a
  · intro s hs
    rcases List.mem_append.mp hs with hs | hs
    · obtain ⟨c, a, rfl, hslot, hfree, -⟩ := ht.mem hs
      exact ⟨blank_freshSlice hslot, .inl ⟨c, a, hslot, hfree, rfl⟩⟩
    · obtain ⟨-, hnone, hblank⟩ := hok s hs
      rw [hhs] at hs
      split_ifs at hs
      · rw [List.mem_singleton.mp hs] at hnone hblank ⊢
        exact ⟨hblank, .inr ⟨hnone, rfl⟩⟩
      · cases hs
  · rw [hslots]
    exact ht.nodup

theorem fromPool_takes {hs : List BufferSlice} (ht : P.Takes true m free ss m' free')
    (hheap : ∀ s ∈ hs, s.isFromShm = false) : fromPool (ss ++ hs) = ss := by
  rw [fromPool, List.filter_append, List.filter_eq_self.mpr, List.filter_eq_nil_iff.mpr, List.append_nil]
  · intro s hs
    rw [hheap s hs]
    exact Bool.false_ne_true
  · intro s hs
    exact ht.isFromShm hs

theorem all_isFromShm {hs : List BufferSlice} (ht : P.Takes true m free ss m' free')
    (hheap : ∀ s ∈ hs, s.isFromShm = false) : (ss ++ hs).all BufferSlice.isFromShm = hs.isEmpty := by
  have hshm : ss.all BufferSlice.isFromShm = true := List.all_eq_true.mpr fun s hs => ht.isFromShm hs
  rw [List.all_append, hshm, Bool.true_and]
  cases hs with
  | nil => rfl
  | cons s hs => rw [List.all_cons, hheap s List.mem_cons_self, Bool.false_and, List.isEmpty_cons]

theorem alloc_gives_room (hasc : P.Ascending) (hunmixed : Unmixed P.classes) (h : P.Free true m free)
    (b : LinkedBuffer) (hpos : 1 ≤ size) (hsize : size < 4294967296) :
    ∃ m' free' ss, alloc P.manager m b size = (m', b.grow (numbered b.nextId ss) (ss.all BufferSlice.isFromShm)) ∧
      Gives P m free size m' free' ss ∧
      (∀ k ∈ P.classes, size ≤ k.cap → (∀ j ∈ P.classes, size ≤ j.cap → k.cap ≤ j.cap) → Pool.Spare free k →
        ∃ a, Pool.FreeIn free k a ∧ ss = [freshSlice k.cap a]) ∧
      ((∃ s ∈ ss, s.isFromShm = false) ↔ (∀ k ∈ P.classes, Pool.Last free' k) ∧ Pool.caps (fromPool ss) < size) := by
  cases alloc_cases h b size with
  | @one c a m' he hle ht hr =>
    have htakes : P.Takes true m free [freshSlice c a] m' (fun x => free x ∧ x ≠ a) := .cons ht (.nil ht.state)
    have hcaps : Pool.caps [freshSlice c a] = c := by simp [Pool.caps, freshSlice]
    refine ⟨m', fun x => free x ∧ x ≠ a, [freshSlice c a], hr, ?_, ?_, ?_⟩
    · have hgives := @Gives.of_takes P m m' free _ size [freshSlice c a] [] htakes hsize
      apply hgives
      · rw [if_neg (by omega)]
      · intro init last hsplit
        cases init with
        | nil => exact hpos
        | cons s init => simp at hsplit
    · intro k hk hfits hleast hspare
      obtain ⟨a', m₁, he', ha'⟩ := hasc.allocShmBuffer_spare hunmixed h hk hfits hleast hspare
      have hs := Except.ok.inj (congrArg Prod.snd (he.symm.trans he'))
      exact ⟨a', ha', by rw [hs]⟩
    · constructor
      · rintro ⟨s, hs, hheap⟩
        rw [List.mem_singleton.mp hs] at hheap
        cases hheap
      · rintro ⟨-, hless⟩
        have hpool : fromPool [freshSlice c a] = [freshSlice c a] := rfl
        rw [hpool, hcaps] at hless
        omega
  | @many err m' free' n ss hs he hmany ht htight hhs hr =>
    have hheap : ∀ s ∈ hs, s.isFromShm = false := by
      intro s hs'
      rw [hhs] at hs'
      split_ifs at hs'
      · rw [List.mem_singleton.mp hs']
        rfl
      · cases hs'
    refine ⟨m', free', ss ++ hs, all_isFromShm ht hheap ▸ hr, .of_takes ht hsize hhs htight, ?_, ?_⟩
    · intro k hk hfits hleast hspare
      obtain ⟨a, m₁, he', -⟩ := hasc.allocShmBuffer_spare hunmixed h hk hfits hleast hspare
      cases congrArg Prod.snd (he.symm.trans he')
    · rw [fromPool_takes ht hheap]
      constructor
      · rintro ⟨s, hs', hf⟩
        have hshort : Pool.caps ss < size := by
          by_contra hnot
          rw [if_neg hnot] at hhs
          rw [hhs, List.append_nil] at hs'
          rw [ht.isFromShm hs'] at hf
          cases hf
        refine ⟨fun k hk => ?_, hshort⟩
        exact (h.allocShmBuffers_last hmany hshort k hk).congr fun a _ => (ht.free_iff a).symm
      · rintro ⟨-, hshort⟩
        rw [if_pos hshort] at hhs
        exact ⟨heapFor (size - Pool.caps ss), by rw [hhs]; simp, rfl⟩

open BufferManager in
def twoSizes : Pool := @laidPool 200 236 8 [⟨8, 50⟩, ⟨16, 50⟩] (by decide) (by decide) (by decide) 16

theorem alloc_gives_room_two : ∃ m m₁ m₂ free₂ a ss,
    alloc twoSizes.manager m .empty 10 = (m₁, LinkedBuffer.empty.grow (numbered 0 [freshSlice 16 a]) true) ∧
    alloc twoSizes.manager m .empty 100 = (m₂, LinkedBuffer.empty.grow (numbered 0 ss) false) ∧
    (∀ k ∈ twoSizes.classes, Pool.Last free₂ k) ∧ Pool.caps (fromPool ss) < 100 := by
  have hunmixed : Unmixed twoSizes.classes := by decide
  have hasc : twoSizes.Ascending := laidPool_ascending _ _ _ (by decide)
  have hfree : twoSizes.Free true (laid twoSizes.classes ⟨fun _ => 0⟩) fun a => ∃ c, twoSizes.Slot c a :=
    laidPool_free _ _ _ 16 ⟨fun _ => 0⟩ fun _ => hunmixed
  obtain ⟨m₁, -, ts, hten, -, hone, -⟩ := alloc_gives_room hasc hunmixed hfree .empty (show 1 ≤ 10 by decide) (by decide)
  obtain ⟨m₂, free₂, ss, hundred, -, -, hheap⟩ := alloc_gives_room hasc hunmixed hfree .empty (show 1 ≤ 100 by decide) (by decide)
  have hlarge : ⟨⟨128, 72, 164⟩, 2, 16⟩ ∈ twoSizes.classes := by decide
  have hslot : ∀ a ∈ [164, 200], Pool.FreeIn (fun a => ∃ c, twoSizes.Slot c a) ⟨⟨128, 72, 164⟩, 2, 16⟩ a := by
    intro a ha
    have hslot : IsSlot ⟨128, 72, 164⟩ 2 16 a := BufferList.mem_slots.mp ha
    exact ⟨hslot, 16, _, hlarge, rfl, hslot⟩
  obtain ⟨a, -, rfl⟩ := hone _ hlarge (by decide) (by decide) ⟨164, 200, by decide, hslot 164 (by decide), hslot 200 (by decide)⟩
  have hfell : (alloc twoSizes.manager (laid twoSizes.classes ⟨fun _ => 0⟩) .empty 100).2.isFromShm = false := by decide +kernel
  have hall : ss.all BufferSlice.isFromShm = false := by
    rw [hundred] at hfell
    exact hfell
  obtain ⟨s, hs, hshm⟩ := List.all_eq_false.mp hall
  obtain ⟨hlast, hshort⟩ := hheap.mp ⟨s, hs, Bool.eq_false_iff.mpr hshm⟩
  rw [hall] at hundred
  exact ⟨_, m₁, m₂, free₂, a, ss, hten, hundred, hlast, hshort⟩

def equalSizes : Config := ⟨1048576, [⟨150000, 30⟩, ⟨150000, 70⟩], 8192, "/dev/shm/shmipc", "/dev/shm/shmipc_queue"⟩

def equalReused (bm : BufferManager) (m : Mem) : Mem × LinkedBuffer :=
  let (m, b) := alloc bm m .empty 450000
  let (m, b) := recycle bm m b
  let (m, b) := alloc bm m b 100
  alloc bm m b 100

/-- The slots that were given back hang on the first list but lie behind its region, where `pop` does not follow. -/
theorem alloc_misses_free : ∃ bm m₀ l ls m b m' b', equalSizes.verify = .ok equalSizes ∧
    equalSizes.bufferSliceSizes.Pairwise (fun p q => p.size ≤ q.size) ∧
    BufferManager.create equalSizes.bufferSliceSizes ⟨fun _ => 0⟩ 1048576 0 = .ok (bm, m₀) ∧ bm.lists = l :: ls ∧
    equalReused bm.toBufferManager m₀ = (m, b) ∧ alloc bm.toBufferManager m b 100 = (m', b') ∧
    l.sizeLoad m = 3 ∧ FreeChain l 150000 m [300120, 450140, 600160] ∧
    l.sizeLoad m' = 3 ∧ FreeChain l 150000 m' [300120, 450140, 600160] ∧
    b.sliceList.map (fun x => x.slice.isFromShm) = [true, true] ∧
    b'.sliceList.map (fun x => x.slice.isFromShm) = [true, true, false] := by
  have hiff := @create_iff 1048576 equalSizes.bufferSliceSizes (by norm_num) (by norm_num) (by decide) (by decide) ⟨fun _ => 0⟩
  obtain ⟨⟨bm, m₀⟩, hcreate⟩ := hiff.mpr (by decide)
  obtain ⟨hr, -⟩ := create_ok (by norm_num) (by norm_num) rfl hcreate
  rw [Prod.mk.injEq] at hr
  obtain ⟨rfl, rfl⟩ := hr
  refine ⟨_, _, ⟨8, 300040, 44⟩, [⟨300084, 600080, 300120⟩], _, _, _, _, rfl, by decide, hcreate, by decide +kernel,
    Prod.mk.eta.symm, Prod.mk.eta.symm, ?_⟩
  decide +kernel

end LinkedBuffer

end Shmipc
