import Shmipc.SliceBytes
import Shmipc.LinkedBuffer

namespace Shmipc

open ByteMemory

def heldBy (ns : List Node) : List ℕ := ns.filterMap fun n => n.slice.bufferHeader

def unreadOf (m : Mem) (ns : List Node) : List UInt8 := ns.flatMap fun n => n.slice.unread m

def sizeOf (ns : List Node) : ℕ := (ns.map fun n => n.slice.size).sum

structure Holds (P : Pool) (e : Bool) (m : Mem) (free : ℕ → Prop) (ns : List Node) : Prop where
  pool : P.Free e m free
  ok : ∀ n ∈ ns, SliceOk P n.slice
  owned : ∀ a ∈ heldBy ns, ¬ free a
  distinct : (heldBy ns).Nodup

def Untouched (P : Pool) (m m' : Mem) (A : List ℕ) : Prop :=
  ∀ d a, P.Slot d a → a ∈ A → SameOn m m' a (a + (d + 20))

/-- What a caller that held the slots `A` and now holds `B` has done to the pool. A slot that it gives
back with the in-use flag cleared is nobody's and stays so. -/
structure Exchange (P : Pool) (m : Mem) (free : ℕ → Prop) (A : List ℕ) (m' : Mem) (free' : ℕ → Prop)
    (B : List ℕ) : Prop where
  foreign : ∀ a, ¬ free a → a ∉ A → ¬ free' a
  kept : ∀ d a, P.Slot d a → ¬ free a → a ∉ A → SameOn m m' a (a + (d + 20))
  origin : ∀ a ∈ B, a ∈ A ∨ free a
  used : ∀ a ∈ A, BufferHeader.isInUsed m a = true → (a ∈ B ∧ BufferHeader.isInUsed m' a = true) ∨ free' a
  dead : ∀ a ∈ A, ¬ free a → BufferHeader.isInUsed m a = false → BufferHeader.isInUsed m' a = false ∧ ¬ free' a
  taken : ∀ a, free a → free' a ∨ (a ∈ B ∧ BufferHeader.isInUsed m' a = true)

structure SlotFrame (P : Pool) (m : Mem) (free : ℕ → Prop) (A : List ℕ) (m' : Mem) (free' : ℕ → Prop) (B : List ℕ) :
    Prop where
  foreign : ∀ a, ¬ free a → a ∉ A → ¬ free' a
  kept : ∀ d a, P.Slot d a → ¬ free a → a ∉ A → SameOn m m' a (a + (d + 20))
  origin : ∀ a ∈ B, a ∈ A ∨ free a

structure Trade (P : Pool) (m : Mem) (free : ℕ → Prop) (A : List ℕ) (m' : Mem) (free' : ℕ → Prop) (B : List ℕ) : Prop
    extends SlotFrame P m free A m' free' B where
  used : (∀ a ∈ A, BufferHeader.isInUsed m a = true) → ∀ a ∈ B, BufferHeader.isInUsed m' a = true
  back : (∀ a ∈ A, BufferHeader.isInUsed m a = true) → ∀ a, a ∈ A ∨ free a → a ∈ B ∨ free' a

variable {P : Pool} {e : Bool} {m m' m'' : Mem} {free free' free'' : ℕ → Prop} {ns ns' rest : List Node}
  {n : Node} {A B C : List ℕ} {a d : ℕ}

namespace Untouched

theorem trans (h : Untouched P m m' A) (h' : Untouched P m' m'' A) : Untouched P m m'' A :=
  fun d a hd ha => (h d a hd ha).trans (h' d a hd ha)

theorem mono (h : Untouched P m m' A) (hB : ∀ a ∈ B, a ∈ A) : Untouched P m m' B :=
  fun d a hd ha => h d a hd (hB a ha)

end Untouched

theorem heldBy_append (ns ns' : List Node) : heldBy (ns ++ ns') = heldBy ns ++ heldBy ns' :=
  List.filterMap_append

theorem heldBy_cons (n : Node) (ns : List Node) :
    heldBy (n :: ns) = n.slice.bufferHeader.toList ++ heldBy ns := by
  rw [heldBy, List.filterMap_cons]
  cases n.slice.bufferHeader <;> rfl

theorem unreadOf_congr (hok : ∀ n ∈ ns, SliceOk P n.slice) (h : Untouched P m m' (heldBy ns)) :
    unreadOf m' ns = unreadOf m ns := by
  apply List.flatMap_congr
  intro n hn
  apply (hok n hn).unread_congr
  intro a ha
  exact h _ a ((hok n hn).refers ha).1.slot (List.mem_filterMap.mpr ⟨n, hn, ha⟩)

theorem unreadOf_length (hok : ∀ n ∈ ns, SliceOk P n.slice) (m : Mem) :
    (unreadOf m ns).length = sizeOf ns := by
  rw [unreadOf, List.length_flatMap, sizeOf]
  congr 1
  apply List.map_congr_left
  intro n hn
  exact (hok n hn).unread_length m

namespace Holds

theorem perm (h : Holds P e m free ns) (hp : ns.Perm ns') : Holds P e m free ns' where
  pool := h.pool
  ok n hn := h.ok n (hp.mem_iff.mpr hn)
  owned a ha := h.owned a ((hp.filterMap _).mem_iff.mpr ha)
  distinct := (hp.filterMap _).nodup_iff.mp h.distinct

theorem takes {ss : List BufferSlice} {new : List Node} (h : Holds P e m free ns) (ht : P.Takes e m free ss m' free')
    (hnew : new.map Node.slice = ss) : Holds P e m' free' (ns ++ new) := by
  have hslots : heldBy new = Pool.slots ss := by
    rw [← hnew, Pool.slots, List.filterMap_map]
    rfl
  refine ⟨ht.state, ?_, ?_, ?_⟩
  · intro n hn
    rcases List.mem_append.mp hn with hn | hn
    · exact h.ok n hn
    · obtain ⟨c, a, hs, hslot, -⟩ := ht.mem (hnew ▸ List.mem_map_of_mem hn)
      rw [hs]
      exact .fresh hslot
  · intro a ha
    rw [heldBy_append, hslots] at ha
    rw [ht.free_iff]
    rcases List.mem_append.mp ha with ha | ha
    · exact fun hf => h.owned a ha hf.1
    · exact fun hf => hf.2 ha
  · rw [heldBy_append, hslots]
    refine h.distinct.append ht.nodup ?_
    intro a ha hb
    obtain ⟨s, hs, hsa⟩ := List.mem_filterMap.mp hb
    obtain ⟨c, a', rfl, -, hf, -⟩ := ht.mem hs
    cases hsa
    exact h.owned a ha hf

theorem plain {new : List Node} (h : Holds P e m free ns)
    (hn : ∀ n ∈ new, SliceOk P n.slice ∧ n.slice.bufferHeader = none) : Holds P e m free (ns ++ new) := by
  have hnone : heldBy new = [] := List.filterMap_eq_nil_iff.mpr fun n hx => (hn n hx).2
  have hheld : heldBy (ns ++ new) = heldBy ns := by rw [heldBy_append, hnone, List.append_nil]
  refine ⟨h.pool, ?_, hheld ▸ h.owned, hheld ▸ h.distinct⟩
  intro x hx
  rcases List.mem_append.mp hx with hx | hx
  · exact h.ok x hx
  · exact (hn x hx).1

theorem apart {pre post : List Node} {x : Node} (h : Holds P e m free (pre ++ n :: post)) (hx : x ∈ pre ++ post)
    (hn : n.slice.bufferHeader = some a) : x.slice.bufferHeader ≠ some a := by
  intro hxa
  have hperm : (pre ++ n :: post).Perm (n :: (pre ++ post)) := List.perm_middle
  have hd := (h.perm hperm).distinct
  rw [heldBy_cons, hn] at hd
  exact (List.nodup_cons.mp hd).1 (List.mem_filterMap.mpr ⟨x, hx, hxa⟩)

theorem unread_others {pre post : List Node} {x : Node} (h : Holds P e m free (pre ++ n :: post))
    (hw : n.slice.WritesSlot m m') (hx : x ∈ pre ++ post) : x.slice.unread m' = x.slice.unread m := by
  have hx' : x ∈ pre ++ n :: post := by
    simp only [List.mem_append, List.mem_cons] at hx ⊢
    tauto
  apply (h.ok x hx').unread_congr
  intro c hc
  apply (h.ok n (by simp)).frame hw ((h.ok x hx').refers hc).1.slot
  intro hn
  exact h.apart hx hn hc

theorem replace {pre post : List Node} (n' : Node) (h : Holds P e m free (pre ++ n :: post))
    (hw : n.slice.WritesSlot m m') (hok : SliceOk P n'.slice) (hh : n'.slice.bufferHeader = n.slice.bufferHeader) :
    Holds P e m' free (pre ++ n' :: post) ∧ heldBy (pre ++ n' :: post) = heldBy (pre ++ n :: post) := by
  have hheld : heldBy (pre ++ n' :: post) = heldBy (pre ++ n :: post) := by
    simp only [heldBy_append, heldBy_cons, hh]
  have hn : n ∈ pre ++ n :: post := by simp
  refine ⟨⟨?_, ?_, hheld ▸ h.owned, hheld ▸ h.distinct⟩, hheld⟩
  · apply (h.ok n hn).free hw h.pool
    intro a ha
    exact h.owned a (List.mem_filterMap.mpr ⟨n, hn, ha⟩)
  · intro x hx
    simp only [List.mem_append, List.mem_cons] at hx
    rcases hx with hx | rfl | hx
    · exact h.ok x (by simp [hx])
    · exact hok
    · exact h.ok x (by simp [hx])

end Holds

theorem SlotFrame.trans (h : SlotFrame P m free A m' free' B) (h' : SlotFrame P m' free' B m'' free'' C) :
    SlotFrame P m free A m'' free'' C := by
  have notB : ∀ a, ¬ free a → a ∉ A → a ∉ B := fun a hf ha hb => (h.origin a hb).elim ha hf
  constructor
  · intro a hf ha
    exact h'.foreign a (h.foreign a hf ha) (notB a hf ha)
  · intro d a hd hf ha
    exact (h.kept d a hd hf ha).trans (h'.kept d a hd (h.foreign a hf ha) (notB a hf ha))
  · intro a ha
    rcases h'.origin a ha with hb | hf'
    · exact h.origin a hb
    · by_contra hc
      rw [not_or] at hc
      exact h.foreign a hc.2 hc.1 hf'

theorem SlotFrame.others (h : SlotFrame P m free A m' free' B) (hC : ∀ a ∈ C, ¬ free a ∧ a ∉ A) :
    (∀ a ∈ C, ¬ free' a ∧ a ∉ B) ∧ Untouched P m m' C := by
  refine ⟨?_, fun d a hd ha => h.kept d a hd (hC a ha).1 (hC a ha).2⟩
  intro a ha
  obtain ⟨hf, hna⟩ := hC a ha
  exact ⟨h.foreign a hf hna, fun hb => (h.origin a hb).elim hna hf⟩

theorem SlotFrame.drop (m : Mem) (free : ℕ → Prop) (hB : ∀ a ∈ B, a ∈ A) : SlotFrame P m free A m free B where
  foreign _ hf _ := hf
  kept _ _ _ _ _ := .refl _ _ _
  origin a ha := .inl (hB a ha)

theorem SlotFrame.mono {D : List ℕ} (h : SlotFrame P m free A m' free' B) (hD : ∀ a ∈ A, a ∈ D) :
    SlotFrame P m free D m' free' B where
  foreign a hf ha := h.foreign a hf fun hx => ha (hD a hx)
  kept d a hd hf ha := h.kept d a hd hf fun hx => ha (hD a hx)
  origin a ha := (h.origin a ha).imp_left (hD a)

theorem SlotFrame.more (h : SlotFrame P m free A m' free' B) (C : List ℕ) :
    SlotFrame P m free (A ++ C) m' free' (B ++ C) where
  foreign a hf ha := h.foreign a hf fun hx => ha (List.mem_append_left _ hx)
  kept d a hd hf ha := h.kept d a hd hf fun hx => ha (List.mem_append_left _ hx)
  origin a ha := by
    rcases List.mem_append.mp ha with ha | ha
    · exact (h.origin a ha).imp_left (List.mem_append_left _)
    · exact .inl (List.mem_append_right _ ha)

theorem Trade.trans (h : Trade P m free A m' free' B) (h' : Trade P m' free' B m'' free'' C) :
    Trade P m free A m'' free'' C where
  toSlotFrame := h.toSlotFrame.trans h'.toSlotFrame
  used hA := h'.used (h.used hA)
  back hA a ha := h'.back (h.used hA) a (h.back hA a ha)

theorem Trade.congr (h : Trade P m free A m' free' B) (hA : ∀ a, a ∈ C ↔ a ∈ A) {D : List ℕ} (hD : ∀ a, a ∈ D ↔ a ∈ B) :
    Trade P m free C m' free' D where
  foreign a hf ha := h.foreign a hf fun hx => ha ((hA a).mpr hx)
  kept d a hd hf ha := h.kept d a hd hf fun hx => ha ((hA a).mpr hx)
  origin a ha := (h.origin a ((hD a).mp ha)).imp_left (hA a).mpr
  used hC a ha := h.used (fun x hx => hC x ((hA x).mpr hx)) a ((hD a).mp ha)
  back hC a ha := (h.back (fun x hx => hC x ((hA x).mpr hx)) a (ha.imp_left (hA a).mp)).imp_left (hD a).mpr

theorem Trade.more (h : Trade P m free A m' free' B) (hC : ∀ a ∈ C, ¬ free a ∧ a ∉ A) (hs : ∀ a ∈ C, ∃ d, P.Slot d a) :
    Trade P m free (A ++ C) m' free' (B ++ C) := by
  obtain ⟨hout, hsame⟩ := h.toSlotFrame.others hC
  refine ⟨h.toSlotFrame.more C, ?_, ?_⟩
  · intro hA a ha
    rcases List.mem_append.mp ha with ha | ha
    · exact h.used (fun x hx => hA x (List.mem_append_left _ hx)) a ha
    · obtain ⟨d, hd⟩ := hs a ha
      rw [BufferHeader.isInUsed_congr ((hsame d a hd ha).mono le_rfl (by omega))]
      exact hA a (List.mem_append_right _ ha)
  · intro hA a ha
    have hA' : ∀ x ∈ A, BufferHeader.isInUsed m x = true := fun x hx => hA x (List.mem_append_left _ hx)
    rcases ha with ha | ha
    · rcases List.mem_append.mp ha with ha | ha
      · exact (h.back hA' a (.inl ha)).imp_left (List.mem_append_left _)
      · exact .inl (List.mem_append_right _ ha)
    · exact (h.back hA' a (.inr ha)).imp_left (List.mem_append_left _)

namespace Exchange

theorem frame (h : Exchange P m free A m' free' B) : SlotFrame P m free A m' free' B := ⟨h.foreign, h.kept, h.origin⟩

theorem trade (h : Exchange P m free A m' free' B) (hB : ∀ a ∈ B, ¬ free' a) : Trade P m free A m' free' B where
  toSlotFrame := h.frame
  used hA a ha := by
    rcases h.origin a ha with hx | hf
    · rcases h.used a hx (hA a hx) with ⟨-, hu⟩ | hf
      · exact hu
      · exact absurd hf (hB a ha)
    · rcases h.taken a hf with hf' | ⟨-, hu⟩
      · exact absurd hf' (hB a ha)
      · exact hu
  back hA a ha := by
    rcases ha with ha | ha
    · exact (h.used a ha (hA a ha)).imp_left And.left
    · exact (h.taken a ha).symm.imp_left And.left

theorem refl (P : Pool) (m : Mem) (free : ℕ → Prop) (A : List ℕ) : Exchange P m free A m free A where
  foreign _ h _ := h
  kept _ _ _ _ _ := SameOn.refl _ _ _
  origin _ h := .inl h
  used _ h hu := .inl ⟨h, hu⟩
  dead _ _ hf hu := ⟨hu, hf⟩
  taken _ h := .inl h

theorem trans (hA : ∀ a ∈ A, ∃ d, P.Slot d a) (h : Exchange P m free A m' free' B)
    (h' : Exchange P m' free' B m'' free'' C) : Exchange P m free A m'' free'' C := by
  obtain ⟨hforeign, hkept, horigin⟩ := h.frame.trans h'.frame
  refine ⟨hforeign, hkept, horigin, ?_, ?_, ?_⟩
  · intro a ha hu
    rcases h.used a ha hu with ⟨hb, hu'⟩ | hf
    · exact h'.used a hb hu'
    · exact (h'.taken a hf).symm
  · intro a ha hf hu
    obtain ⟨hu', hf'⟩ := h.dead a ha hf hu
    by_cases hb : a ∈ B
    · exact h'.dead a hb hf' hu'
    · obtain ⟨d, hd⟩ := hA a ha
      rw [BufferHeader.isInUsed_congr ((h'.kept d a hd hf' hb).mono le_rfl (by omega))]
      exact ⟨hu', h'.foreign a hf' hb⟩
  · intro a hf
    rcases h.taken a hf with hf' | ⟨hb, hu⟩
    · exact h'.taken a hf'
    · exact (h'.used a hb hu).symm

theorem congr (h : Exchange P m free A m' free' B) (hB : ∀ a, a ∈ C ↔ a ∈ B) : Exchange P m free A m' free' C where
  foreign := h.foreign
  kept := h.kept
  origin a ha := h.origin a ((hB a).mp ha)
  used a ha hu := (h.used a ha hu).imp_left fun hb => ⟨(hB a).mpr hb.1, hb.2⟩
  dead := h.dead
  taken a hf := (h.taken a hf).imp_right fun hb => ⟨(hB a).mpr hb.1, hb.2⟩

theorem congr_left (h : Exchange P m free A m' free' B) (hA : ∀ a, a ∈ C ↔ a ∈ A) : Exchange P m free C m' free' B where
  foreign a hf ha := h.foreign a hf fun hx => ha ((hA a).mpr hx)
  kept d a hd hf ha := h.kept d a hd hf fun hx => ha ((hA a).mpr hx)
  origin a ha := (h.origin a ha).imp_left (hA a).mpr
  used a ha := h.used a ((hA a).mp ha)
  dead a ha := h.dead a ((hA a).mp ha)
  taken := h.taken

theorem more (h : Exchange P m free A m' free' B) (hC : ∀ a ∈ C, ¬ free a ∧ a ∉ A) (hs : ∀ a ∈ C, ∃ d, P.Slot d a) :
    Exchange P m free (A ++ C) m' free' (B ++ C) := by
  obtain ⟨hout, hsame⟩ := h.frame.others hC
  have hflag : ∀ a ∈ C, BufferHeader.isInUsed m' a = BufferHeader.isInUsed m a := by
    intro a ha
    obtain ⟨d, hd⟩ := hs a ha
    exact BufferHeader.isInUsed_congr ((hsame d a hd ha).mono le_rfl (by omega))
  obtain ⟨hforeign, hkept, horigin⟩ := h.frame.more C
  refine ⟨hforeign, hkept, horigin, ?_, ?_, ?_⟩
  · intro a ha hu
    rcases List.mem_append.mp ha with ha | ha
    · exact (h.used a ha hu).imp_left fun hb => ⟨List.mem_append_left _ hb.1, hb.2⟩
    · exact .inl ⟨List.mem_append_right _ ha, (hflag a ha).trans hu⟩
  · intro a ha hf hu
    rcases List.mem_append.mp ha with ha | ha
    · exact h.dead a ha hf hu
    · exact ⟨(hflag a ha).trans hu, (hout a ha).1⟩
  · intro a hf
    exact (h.taken a hf).imp_right fun hb => ⟨List.mem_append_left _ hb.1, hb.2⟩

theorem write (h : ∀ d a, P.Slot d a → ¬ free a → a ∉ A → SameOn m m' a (a + (d + 20)))
    (hu : ∀ a ∈ A, BufferHeader.isInUsed m' a = BufferHeader.isInUsed m a) : Exchange P m free A m' free A where
  foreign _ hf _ := hf
  kept := h
  origin _ ha := .inl ha
  used a ha hin := .inl ⟨ha, (hu a ha).trans hin⟩
  dead a ha hf hin := ⟨(hu a ha).trans hin, hf⟩
  taken _ hf := .inl hf

theorem writesSlot {s : BufferSlice} (hs : SliceOk P s) (hw : s.WritesSlot m m')
    (hA : ∀ a, s.bufferHeader = some a → a ∈ A) (hslot : ∀ a ∈ A, ∃ d, P.Slot d a)
    (hu : ∀ a, s.bufferHeader = some a → BufferHeader.isInUsed m' a = BufferHeader.isInUsed m a) :
    Exchange P m free A m' free A := by
  apply write
  · intro d a hd _ ha
    exact hs.frame hw hd fun hh => ha (hA a hh)
  · intro a ha
    by_cases hh : s.bufferHeader = some a
    · exact hu a hh
    · obtain ⟨d, hd⟩ := hslot a ha
      exact BufferHeader.isInUsed_congr ((hs.frame hw hd hh).mono le_rfl (by omega))

theorem takes {ss : List BufferSlice} (h : P.Takes e m free ss m' free') (hA : ∀ a ∈ A, ∃ d, P.Slot d a)
    (hown : ∀ a ∈ A, ¬ free a) : Exchange P m free A m' free' (A ++ Pool.slots ss) := by
  have hsame : ∀ a ∈ A, BufferHeader.isInUsed m' a = BufferHeader.isInUsed m a := by
    intro a ha
    obtain ⟨d, hd⟩ := hA a ha
    exact BufferHeader.isInUsed_congr ((h.frame hd (hown a ha)).mono le_rfl (by omega))
  constructor
  · intro a hf _ hf'
    exact hf ((h.free_iff a).mp hf').1
  · intro d a hd hf _
    exact h.frame hd hf
  · intro a ha
    rcases List.mem_append.mp ha with ha | ha
    · exact .inl ha
    · obtain ⟨s, hs, hsa⟩ := List.mem_filterMap.mp ha
      obtain ⟨c, a', rfl, -, hf, -⟩ := h.mem hs
      cases hsa
      exact .inr hf
  · intro a ha hu
    exact .inl ⟨List.mem_append_left _ ha, (hsame a ha).trans hu⟩
  · intro a ha hf hu
    exact ⟨(hsame a ha).trans hu, fun hf' => hf ((h.free_iff a).mp hf').1⟩
  · intro a hf
    by_cases ha : a ∈ Pool.slots ss
    · right
      refine ⟨List.mem_append_right _ ha, ?_⟩
      obtain ⟨s, hs, hsa⟩ := List.mem_filterMap.mp ha
      obtain ⟨c, a', rfl, -, -, hu, -⟩ := h.mem hs
      cases hsa
      exact hu
    · exact .inl ((h.free_iff a).mpr ⟨hf, ha⟩)

theorem give (h : P.Gave e m free a m') (hA : ∀ x ∈ A, ∃ d, P.Slot d x) (hown : ∀ x ∈ A, ¬ free x) (ha : a ∈ A)
    (hu : BufferHeader.isInUsed m a = true) (hB : ∀ x, x ∈ B ↔ x ∈ A ∧ x ≠ a) :
    Exchange P m free A m' (fun x => free x ∨ x = a) B := by
  have hsame : ∀ x ∈ A, x ≠ a → BufferHeader.isInUsed m' x = BufferHeader.isInUsed m x := by
    intro x hx hxa
    obtain ⟨d, hd⟩ := hA x hx
    exact BufferHeader.isInUsed_congr ((h.frame d x hd (hown x hx) hxa).mono le_rfl (by omega))
  constructor
  · rintro x hf hx (hf' | rfl)
    · exact hf hf'
    · exact hx ha
  · intro d x hd hf hx
    exact h.frame d x hd hf fun he => hx (he ▸ ha)
  · intro x hx
    exact .inl ((hB x).mp hx).1
  · intro x hx hin
    by_cases hxa : x = a
    · exact .inr (.inr hxa)
    · exact .inl ⟨(hB x).mpr ⟨hx, hxa⟩, (hsame x hx hxa).trans hin⟩
  · intro x hx hf hin
    have hxa : x ≠ a := by
      rintro rfl
      rw [hu] at hin
      cases hin
    refine ⟨(hsame x hx hxa).trans hin, ?_⟩
    rintro (hf' | he)
    · exact hf hf'
    · exact hxa he
  · intro x hf
    exact .inl (.inl hf)

theorem drop (hu : ∀ x ∈ A, x ∉ B → BufferHeader.isInUsed m x = false) (hB : ∀ x ∈ B, x ∈ A) :
    Exchange P m free A m free B where
  foreign _ hf _ := hf
  kept _ _ _ _ _ := SameOn.refl _ _ _
  origin x hx := .inl (hB x hx)
  used x hx hin := by
    left
    refine ⟨?_, hin⟩
    by_contra hxB
    rw [hu x hx hxB] at hin
    cases hin
  dead _ _ hf hin := ⟨hin, hf⟩
  taken _ hf := .inl hf

end Exchange

theorem mem_heldBy_middle {pre post : List Node} :
    a ∈ heldBy (pre ++ n :: post) ↔ a ∈ heldBy (pre ++ post) ∨ n.slice.bufferHeader = some a := by
  simp only [heldBy_append, heldBy_cons, List.mem_append, Option.mem_toList]
  tauto

theorem Holds.sub (h : Holds P e m free ns) (hs : ns'.Sublist ns) : Holds P e m free ns' where
  pool := h.pool
  ok n hn := h.ok n (hs.subset hn)
  owned a ha := h.owned a ((hs.filterMap _).subset ha)
  distinct := (hs.filterMap _).nodup h.distinct

theorem Holds.recycle {pre post : List Node} (h : Holds P e m free (pre ++ n :: post)) :
    ∃ free', Holds P e (P.manager.recycleBuffer m n.slice) free' (pre ++ post) ∧
      Exchange P m free (heldBy (pre ++ n :: post)) (P.manager.recycleBuffer m n.slice) free' (heldBy (pre ++ post)) ∧
      Untouched P m (P.manager.recycleBuffer m n.slice) (heldBy (pre ++ post)) := by
  have hn : n ∈ pre ++ n :: post := by simp
  have hrest : Holds P e m free (pre ++ post) := h.sub ((List.sublist_cons_self n post).append_left pre)
  have hback : ∀ x ∈ heldBy (pre ++ post), x ∈ heldBy (pre ++ n :: post) := fun x hx => mem_heldBy_middle.mpr (.inl hx)
  -- a slice that is not given back leaves the memory as it is
  have hsame : P.manager.recycleBuffer m n.slice = m →
      (∀ a, n.slice.bufferHeader = some a → BufferHeader.isInUsed m a = false) →
      ∃ free', Holds P e (P.manager.recycleBuffer m n.slice) free' (pre ++ post) ∧
        Exchange P m free (heldBy (pre ++ n :: post)) (P.manager.recycleBuffer m n.slice) free' (heldBy (pre ++ post)) ∧
        Untouched P m (P.manager.recycleBuffer m n.slice) (heldBy (pre ++ post)) := by
    intro hm hu
    rw [hm]
    refine ⟨free, hrest, .drop ?_ hback, fun _ _ _ _ => SameOn.refl _ _ _⟩
    intro x hx hx'
    exact hu x ((mem_heldBy_middle.mp hx).resolve_left hx')
  rcases (h.ok n hn).backed with ⟨a, ha, -⟩ | ⟨hnone, hf, -⟩
  · have hfa : ¬ free a := h.owned a (List.mem_filterMap.mpr ⟨n, hn, ha.header⟩)
    have hother : ∀ x ∈ heldBy (pre ++ post), x ≠ a := by
      rintro x hx rfl
      obtain ⟨y, hy, hyx⟩ := List.mem_filterMap.mp hx
      exact h.apart hy ha.header hyx
    rcases h.pool.recycleBuffer ha hfa with ⟨hu, hm⟩ | ⟨hu, hgave⟩
    · apply hsame hm
      intro x hx
      rw [ha.header] at hx
      cases hx
      exact hu
    · refine ⟨_, ⟨hgave.state, hrest.ok, ?_, hrest.distinct⟩, ?_, ?_⟩
      · rintro x hx (hf | he)
        · exact hrest.owned x hx hf
        · exact hother x hx he
      · refine .give hgave ?_ h.owned (mem_heldBy_middle.mpr (.inr ha.header)) hu ?_
        · intro x hx
          obtain ⟨y, hy, hyx⟩ := List.mem_filterMap.mp hx
          exact ⟨_, ((h.ok y hy).refers hyx).1.slot⟩
        · intro x
          rw [mem_heldBy_middle]
          constructor
          · intro hx
            exact ⟨.inl hx, hother x hx⟩
          · rintro ⟨hx | hx, hxa⟩
            · exact hx
            · rw [ha.header] at hx
              cases hx
              exact absurd rfl hxa
      · intro d x hd hx
        exact hgave.frame d x hd (hrest.owned x hx) (hother x hx)
  · apply hsame
    · rw [BufferManager.recycleBuffer, hf, if_neg Bool.false_ne_true]
    · intro a ha
      rw [hnone] at ha
      cases ha

end Shmipc
