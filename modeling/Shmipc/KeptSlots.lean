import Shmipc.CloseReturns

namespace Shmipc

open ByteMemory LinkedBuffer

namespace KeptSlots

variable {P : Pool} {e : Bool} {m m' : Mem} {free free' R lost lost' H : ℕ → Prop} {A B : List ℕ} {a d : ℕ} {b b' : LinkedBuffer}

section Ledger

structure Ledger (P : Pool) (m : Mem) (free H lost : ℕ → Prop) : Prop where
  flags : ∀ d a, P.Slot d a → (lost a ↔ ¬ free a ∧ BufferHeader.isInUsed m a = false)
  kept : ∀ d a, P.Slot d a → ¬ lost a → free a ∨ H a

namespace Ledger

theorem congr {H' : ℕ → Prop} (h : Ledger P m free H lost) (hH : ∀ a, H' a ↔ H a) : Ledger P m free H' lost :=
  ⟨h.flags, fun d a hd hl => (h.kept d a hd hl).imp_right (hH a).mpr⟩

theorem relabel (h : Ledger P m free H lost) (hlost : ∀ a, lost' a ↔ lost a) : Ledger P m free H lost' := by
  have hsame : lost' = lost := funext fun a => propext (hlost a)
  rwa [hsame]

-- a slot that no one holds
theorem free_iff (h : Ledger P m free H lost) (hd : P.Slot d a) (hgone : ¬ H a) : free a ↔ ¬ lost a := by
  constructor
  · intro hf hl
    exact ((h.flags d a hd).mp hl).1 hf
  · intro hl
    exact (h.kept d a hd hl).resolve_right hgone

theorem step (h : Ledger P m free (fun a => a ∈ A ∨ R a) lost) (hforeign : ∀ a, ¬ free a → a ∉ A → ¬ free' a)
    (hkept : ∀ d a, P.Slot d a → ¬ free a → a ∉ A → SameOn m m' a (a + (d + 20)))
    (hsame : ∀ a, ¬ free a → a ∉ A → (lost' a ↔ lost a))
    (hown : ∀ d a, P.Slot d a → a ∈ A ∨ free a →
      (lost' a ↔ ¬ free' a ∧ BufferHeader.isInUsed m' a = false) ∧ (¬ lost' a → free' a ∨ a ∈ B)) :
    Ledger P m' free' (fun a => a ∈ B ∨ R a) lost' := by
  constructor
  · intro d a hd
    by_cases hA : a ∈ A ∨ free a
    · exact (hown d a hd hA).1
    · rw [not_or] at hA
      have hflag := BufferHeader.isInUsed_congr ((hkept d a hd hA.2 hA.1).mono le_rfl (show a + 20 ≤ a + (d + 20) by omega))
      rw [hsame a hA.2 hA.1, h.flags d a hd, hflag]
      exact and_congr_left fun _ => iff_of_true hA.2 (hforeign a hA.2 hA.1)
  · intro d a hd hl
    by_cases hA : a ∈ A ∨ free a
    · exact ((hown d a hd hA).2 hl).imp_right .inl
    · rw [not_or] at hA
      rw [hsame a hA.2 hA.1] at hl
      rcases h.kept d a hd hl with hf | hx | hx
      · exact absurd hf hA.2
      · exact absurd hx hA.1
      · exact .inr (.inr hx)

theorem exchange (h : Ledger P m free (fun a => a ∈ A ∨ R a) lost) (hown : ∀ a ∈ A, ¬ free a)
    (hex : Exchange P m free A m' free' B) : Ledger P m' free' (fun a => a ∈ B ∨ R a) lost := by
  refine h.step hex.foreign hex.kept (fun _ _ _ => Iff.rfl) fun d a hd ha => ?_
  rcases ha with ha | ha
  · have hf := hown a ha
    cases hu : BufferHeader.isInUsed m a with
    | false =>
      obtain ⟨hu', hf'⟩ := hex.dead a ha hf hu
      have hl : lost a := (h.flags d a hd).mpr ⟨hf, hu⟩
      exact ⟨iff_of_true hl ⟨hf', hu'⟩, fun hn => absurd hl hn⟩
    | true =>
      have hl : ¬ lost a := by
        intro hl
        rw [((h.flags d a hd).mp hl).2] at hu
        cases hu
      rcases hex.used a ha hu with ⟨hB, hu'⟩ | hf'
      · refine ⟨iff_of_false hl fun hx => ?_, fun _ => .inr hB⟩
        rw [hx.2] at hu'
        cases hu'
      · exact ⟨iff_of_false hl fun hx => hx.1 hf', fun _ => .inl hf'⟩
  · have hl : ¬ lost a := fun hl => ((h.flags d a hd).mp hl).1 ha
    rcases hex.taken a ha with hf' | ⟨hB, hu'⟩
    · exact ⟨iff_of_false hl fun hx => hx.1 hf', fun _ => .inl hf'⟩
    · refine ⟨iff_of_false hl fun hx => ?_, fun _ => .inr hB⟩
      rw [hx.2] at hu'
      cases hu'

theorem rewrite (h : Ledger P m free (fun a => a ∈ A ∨ R a) lost) (hown : ∀ a ∈ A, ¬ free a)
    (hkept : ∀ d a, P.Slot d a → ¬ free a → a ∉ A → SameOn m m' a (a + (d + 20)))
    (hsame : ∀ a, a ∉ A → (lost' a ↔ lost a)) (hflag : ∀ a ∈ A, (lost' a ↔ BufferHeader.isInUsed m' a = false)) :
    Ledger P m' free (fun a => a ∈ A ∨ R a) lost' := by
  refine h.step (fun _ hf _ => hf) hkept (fun a _ ha => hsame a ha) fun d a hd ha => ?_
  by_cases hA : a ∈ A
  · exact ⟨(hflag a hA).trans (and_iff_right (hown a hA)).symm, fun _ => .inr hA⟩
  · have hf := ha.resolve_left hA
    refine ⟨iff_of_false ?_ fun hx => hx.1 hf, fun _ => .inl hf⟩
    rw [hsame a hA, h.flags d a hd]
    exact fun hx => hx.1 hf

end Ledger

end Ledger

structure Parcel where
  offset : ℕ
  slots : List ℕ

def parcelSlots (flight : List Parcel) : List ℕ := flight.flatMap Parcel.slots

-- the slot that `release_previous_read_and_reserve` keeps
def Keeps (b : LinkedBuffer) (a : ℕ) : Prop := b.len = 0 ∧ ∃ n, b.sliceList = [n] ∧ n.slice.bufferHeader = some a

-- the slot that is marked as in use behind a chain which ends in an empty slot
def Marks (m : Mem) (A : List ℕ) (b : LinkedBuffer) (a : ℕ) : Prop :=
  Stream.EndsEmpty m A ∧ (b.sliceList.getLast?.bind fun n => n.slice.bufferHeader) = some a

section Steps

theorem mem_held_last (hlast : (b.sliceList.getLast?.bind fun n => n.slice.bufferHeader) = some a) : a ∈ b.held := by
  obtain ⟨n, hn, ha⟩ := Option.bind_eq_some_iff.mp hlast
  exact List.mem_filterMap.mpr ⟨n, List.mem_append_left _ (List.mem_of_getLast? hn), ha⟩

theorem Ledger.clearBack (h : Ledger P m free (fun a => a ∈ b.held ∨ R a) lost) (hb : Base P e m free b) :
    Ledger P (Stream.clearBack m b) free (fun a => a ∈ b.held ∨ R a)
      (fun a => lost a ∧ ¬ (b.sliceList.getLast?.bind fun n => n.slice.bufferHeader) = some a) := by
  have hframe := (Stream.clearBack_trade hb).2.2.toSlotFrame
  refine h.rewrite hb.holds.owned hframe.kept (fun a ha => ?_) fun a ha => ?_
  · exact and_iff_left fun hlast => ha (mem_held_last hlast)
  · obtain ⟨d, hd⟩ := hb.slots a ha
    have hlost : lost a ↔ BufferHeader.isInUsed m a = false := (h.flags d a hd).trans (and_iff_right (hb.holds.owned a ha))
    rw [hlost, Stream.clearBack]
    cases hlast : b.sliceList.getLast?.bind fun n => n.slice.bufferHeader with
    | none => simp
    | some x =>
      by_cases hx : x = a
      · subst hx
        simp
      · have hne : ¬ some x = some a := fun he => hx (Option.some.inj he)
        obtain ⟨d', hd'⟩ := hb.slots x (mem_held_last hlast)
        have hapart := hd'.apart hd hx
        have hout : SameOn m (BufferHeader.setInUsed (BufferHeader.clearFlag m x) x) a (a + 20) :=
          (BufferHeader.sameOn_clearFlag m x (by omega)).trans (BufferHeader.sameOn_setInUsed _ x (by omega))
        rw [and_iff_left hne]
        simp only
        rw [BufferHeader.isInUsed_congr hout]

theorem Ledger.unkept (h : Ledger P m free H lost) (hnone : ∀ a, ¬ Keeps b a) : Ledger P m free H (fun a => lost a ∨ Keeps b a) :=
  h.relabel fun a => or_iff_left (hnone a)

/-- The slot that is kept gets its flags cleared, with the one that says that it is in use among them. -/
theorem Ledger.reserveFront (h : Ledger P m free (fun a => a ∈ b.held ∨ R a) lost) (hb : Base P e m free b)
    (hres : reserveFront m b = (m', b')) : Ledger P m' free (fun a => a ∈ b'.held ∨ R a) (fun a => lost a ∨ Keeps b a) := by
  rw [LinkedBuffer.reserveFront] at hres
  split at hres
  · next n hs =>
    have hok := hb.mem_slice (n := n) (by simp [hs])
    by_cases hlen : b.len = 0
    · rw [if_pos hlen] at hres
      cases hshm : n.slice.isFromShm with
      | true =>
        rw [hshm, if_pos rfl] at hres
        cases hres
        obtain ⟨hok', -, hw, hflag⟩ := hok.reset (m := m)
        have hsplit : b.sliceList = [] ++ n :: [] := hs
        obtain ⟨-, hheld⟩ := hb.replace hsplit hw hok' rfl rfl
        have hkeeps : ∀ a, Keeps b a ↔ n.slice.bufferHeader = some a := by
          intro a
          rw [Keeps, hs, and_iff_right hlen]
          simp
        have hmem : ∀ a, n.slice.bufferHeader = some a → a ∈ b.held := fun a ha => Base.header_mem hsplit ha
        refine Ledger.congr (h.rewrite hb.holds.owned (hb.frame hsplit hw).kept (fun a ha => ?_) fun a ha => ?_)
          fun a => or_congr_left (iff_of_eq (congrArg (a ∈ ·) hheld))
        · exact or_iff_left fun hk => ha (hmem a ((hkeeps a).mp hk))
        · obtain ⟨d, hd⟩ := hb.slots a ha
          rw [hkeeps]
          by_cases hn : n.slice.bufferHeader = some a
          · exact iff_of_true (.inr hn) (hflag a hn)
          · have hkept := (hok.frame hw hd hn).mono le_rfl (show a + 20 ≤ a + (d + 20) by omega)
            rw [or_iff_left hn, h.flags d a hd, and_iff_right (hb.holds.owned a ha)]
            exact iff_of_eq (congrArg (· = false) (BufferHeader.isInUsed_congr hkept).symm)
      | false =>
        rw [hshm, if_neg Bool.false_ne_true] at hres
        cases hres
        have hnone : n.slice.bufferHeader = none := by
          rcases hok.backed with ⟨a, ha, -⟩ | ⟨hnone, -⟩
          · rw [ha.shm] at hshm
            cases hshm
          · exact hnone
        refine (h.congr fun a => ?_).unkept fun a hk => ?_
        · simp [held, nodes, hs, heldBy_cons, hnone]
        · obtain ⟨-, x, hx, ha⟩ := hk
          obtain ⟨rfl, -⟩ := List.cons.inj (hs.symm.trans hx)
          rw [hnone] at ha
          cases ha
    · rw [if_neg hlen] at hres
      cases hres
      exact h.unkept fun a hk => hlen hk.1
  · next hs =>
    cases hres
    refine h.unkept fun a hk => ?_
    obtain ⟨-, n, hn, -⟩ := hk
    exact hs n hn

end Steps

section World

variable {ι : Type} [DecidableEq ι] {bufs : ι → LinkedBuffer} {flight pre post : List Parcel} {i : ι}

/-- The calls on any of the buffers, the chains that go from one to another, and buffers that change places, as those of a stream
do. In `lost` are the slots that were kept, until the header is marked again. -/
inductive Run (P : Pool) (e : Bool) : Mem → (ι → LinkedBuffer) → List Parcel → (ℕ → Prop) → Prop
  | start {m : Mem} {free : ℕ → Prop} : P.Free e m free → (∀ d a, P.Slot d a → free a) →
      Run P e m (fun _ => .empty) [] fun _ => False
  | call {m m' : Mem} {bufs : ι → LinkedBuffer} {flight : List Parcel} {lost : ℕ → Prop} {i : ι} {c : Reserving.Call}
      {b' : LinkedBuffer} : Run P e m bufs flight lost → Reserving.Legal P e m (bufs i) c → c.Plain →
      Reserving.call P.manager m (bufs i) c = some (m', b') → Run P e m' (Function.update bufs i b') flight lost
  | fallback {m : Mem} {bufs : ι → LinkedBuffer} {flight : List Parcel} {lost : ℕ → Prop} {i : ι} {slice : BufferSlice} :
      Run P e m bufs flight lost → SliceOk P slice → slice.bufferHeader = none →
      Run P e m (Function.update bufs i ((bufs i).appendBufferSlice slice)) flight lost
  | keep {m m' : Mem} {bufs : ι → LinkedBuffer} {flight : List Parcel} {lost : ℕ → Prop} {i : ι} {b' : LinkedBuffer} :
      Run P e m bufs flight lost → (bufs i).releasePreviousReadAndReserve P.manager m = (m', b') →
      Run P e m' (Function.update bufs i b') flight fun a => lost a ∨ Keeps (bufs i) a
  | swap {m : Mem} {bufs : ι → LinkedBuffer} {flight : List Parcel} {lost : ℕ → Prop} {i j : ι} :
      Run P e m bufs flight lost → Run P e m (bufs ∘ Equiv.swap i j) flight lost
  /-- The slices go to the ring: `done`, the chain that the peer finds, and `clean`. -/
  | publish {m m' : Mem} {bufs : ι → LinkedBuffer} {flight : List Parcel} {lost : ℕ → Prop} {i : ι} {b' : LinkedBuffer} :
      Run P e m bufs flight lost → (bufs i).done P.manager m = some (m', b') →
      Chain P m' b'.rootBufOffset (heldBy b'.sliceList) →
      Run P e m' (Function.update bufs i b'.clean) (flight ++ [⟨b'.rootBufOffset, heldBy b'.sliceList⟩]) lost
  | receive {m m' : Mem} {bufs : ι → LinkedBuffer} {pre post : List Parcel} {p : Parcel} {lost : ℕ → Prop} {i : ι}
      {b' : LinkedBuffer} : Run P e m bufs (pre ++ p :: post) lost →
      Stream.moveChain P.manager P.manager.memSize m (bufs i) p.offset = some (m', b') →
      Run P e m' (Function.update bufs i b') (pre ++ post) fun a => lost a ∧ ¬ Marks m p.slots b' a
  | drop {m m' : Mem} {bufs : ι → LinkedBuffer} {pre post : List Parcel} {p : Parcel} {lost : ℕ → Prop} (i : ι) :
      Run P e m bufs (pre ++ p :: post) lost →
      P.manager.recycleBuffers P.manager.memSize m (slotView m p.offset) = some m' → Run P e m' bufs (pre ++ post) lost

def Held (bufs : ι → LinkedBuffer) (flight : List Parcel) (a : ℕ) : Prop := (∃ i, a ∈ (bufs i).held) ∨ a ∈ parcelSlots flight

structure Inv (P : Pool) (e : Bool) (m : Mem) (free : ℕ → Prop) (bufs : ι → LinkedBuffer) (flight : List Parcel) : Prop where
  pool : P.Free e m free
  opened : ∀ i, Open P e m free (bufs i)
  apart : ∀ i j, i ≠ j → ∀ a ∈ (bufs i).held, a ∉ (bufs j).held
  chains : ∀ p ∈ flight, Chain P m p.offset p.slots
  distinct : (parcelSlots flight).Nodup
  owned : ∀ a ∈ parcelSlots flight, ¬ free a ∧ ∀ i, a ∉ (bufs i).held

theorem parcelSlots_append (pre post : List Parcel) : parcelSlots (pre ++ post) = parcelSlots pre ++ parcelSlots post :=
  List.flatMap_append

namespace Inv

theorem move (taken : List Parcel) (h : Inv P e m free bufs (pre ++ (taken ++ post))) (hb : Open P e m' free' b')
    (hframe : SlotFrame P m free ((bufs i).held ++ parcelSlots taken) m' free' b'.held) :
    Inv P e m' free' (Function.update bufs i b') (pre ++ post) := by
  have hmem : ∀ a ∈ parcelSlots (pre ++ post), a ∈ parcelSlots (pre ++ (taken ++ post)) ∧ a ∉ parcelSlots taken := by
    have hnd := h.distinct
    simp only [parcelSlots_append, List.nodup_append, List.mem_append] at hnd ⊢
    obtain ⟨-, ⟨-, -, hpost⟩, hpre⟩ := hnd
    rintro a (ha | ha)
    · exact ⟨.inl ha, fun hx => hpre a ha a (.inl hx) rfl⟩
    · exact ⟨.inr (.inr ha), fun hx => hpost a hx a ha rfl⟩
  have htaken : ∀ a ∈ parcelSlots taken, a ∈ parcelSlots (pre ++ (taken ++ post)) := by
    intro a ha
    simp only [parcelSlots_append, List.mem_append]
    exact .inr (.inl ha)
  have hC : ∀ a ∈ parcelSlots (pre ++ post), ¬ free a ∧ a ∉ (bufs i).held ++ parcelSlots taken := by
    intro a ha
    obtain ⟨hin, hnot⟩ := hmem a ha
    obtain ⟨hf, hbufs⟩ := h.owned a hin
    refine ⟨hf, fun hx => ?_⟩
    rcases List.mem_append.mp hx with hx | hx
    · exact hbufs i hx
    · exact hnot hx
  have hothers : ∀ j, j ≠ i → ∀ a ∈ (bufs j).held, ¬ free' a ∧ a ∉ b'.held := by
    intro j hj
    refine (hframe.others fun a ha => ⟨(h.opened j).holds.owned a ha, fun hx => ?_⟩).1
    rcases List.mem_append.mp hx with hx | hx
    · exact h.apart j i hj a ha hx
    · exact (h.owned a (htaken a hx)).2 j ha
  obtain ⟨hout, hsame⟩ := hframe.others hC
  refine ⟨hb.holds.pool, ?_, ?_, ?_, ?_, ?_⟩
  · intro j
    by_cases hj : j = i
    · subst hj
      rw [Function.update_self]
      exact hb
    · rw [Function.update_of_ne hj]
      exact (h.opened j).others hb.holds.pool fun a ha => (hothers j hj a ha).1
  · intro j k hjk a
    by_cases hj : j = i
    · subst hj
      rw [Function.update_self, Function.update_of_ne hjk.symm]
      exact fun ha hx => (hothers k hjk.symm a hx).2 ha
    · by_cases hk : k = i
      · subst hk
        rw [Function.update_self, Function.update_of_ne hj]
        exact fun ha => (hothers j hj a ha).2
      · rw [Function.update_of_ne hj, Function.update_of_ne hk]
        exact h.apart j k hjk a
  · intro p hp
    have hp' : p ∈ pre ++ (taken ++ post) := by
      rcases List.mem_append.mp hp with hp | hp
      · exact List.mem_append_left _ hp
      · exact List.mem_append_right _ (List.mem_append_right _ hp)
    exact (h.chains p hp').congr (hsame.mono fun a ha => List.mem_flatMap.mpr ⟨p, hp, ha⟩)
  · have hsub : (pre ++ post).Sublist (pre ++ (taken ++ post)) :=
      (List.Sublist.refl pre).append (List.sublist_append_right taken post)
    exact h.distinct.sublist (hsub.flatMap Parcel.slots)
  · intro a ha
    refine ⟨(hout a ha).1, fun j => ?_⟩
    by_cases hj : j = i
    · subst hj
      rw [Function.update_self]
      exact (hout a ha).2
    · rw [Function.update_of_ne hj]
      exact (h.owned a (hmem a ha).1).2 j

theorem use (h : Inv P e m free bufs flight) (hb : Open P e m' free' b')
    (hframe : SlotFrame P m free (bufs i).held m' free' b'.held) : Inv P e m' free' (Function.update bufs i b') flight := by
  have hsame : flight ++ ([] ++ []) = flight := List.append_nil flight
  rw [← hsame] at h
  rw [← List.append_nil flight]
  exact h.move [] hb (hframe.mono fun a ha => List.mem_append_left _ ha)

omit [DecidableEq ι] in
theorem parcel {p : Parcel} (h : Inv P e m free bufs (pre ++ p :: post)) :
    Chain P m p.offset p.slots ∧ p.slots.Nodup ∧ (∀ a ∈ p.slots, ¬ free a ∧ ∀ i, a ∉ (bufs i).held) ∧
      p.slots.length ≤ P.manager.memSize := by
  have hp : p ∈ pre ++ p :: post := List.mem_append_right _ List.mem_cons_self
  have hc := h.chains p hp
  have hnd : p.slots.Nodup := by
    have hall := h.distinct
    rw [parcelSlots_append] at hall
    exact (List.nodup_append.mp (List.nodup_append.mp hall).2.1).1
  refine ⟨hc, hnd, fun a ha => h.owned a (List.mem_flatMap.mpr ⟨p, hp, ha⟩), slots_length hnd fun a ha => ?_⟩
  obtain ⟨d, hd, -⟩ := hc.readable ha
  exact ⟨d, hd⟩

omit [DecidableEq ι] in
theorem taken_owned {p : Parcel} (h : Inv P e m free bufs (pre ++ p :: post)) (i : ι) :
    ∀ a ∈ (bufs i).held ++ p.slots, ¬ free a := by
  intro a ha
  rcases List.mem_append.mp ha with ha | ha
  · exact (h.opened i).holds.owned a ha
  · exact (h.parcel.2.2.1 a ha).1

theorem send (off : ℕ) (h : Inv P e m free bufs flight) (hc : Chain P m off (heldBy (bufs i).sliceList)) :
    Inv P e m free (Function.update bufs i (bufs i).clean) (flight ++ [⟨off, heldBy (bufs i).sliceList⟩]) := by
  have hheld : (bufs i).held = heldBy (bufs i).sliceList ++ (bufs i).clean.held := heldBy_append _ _
  have hsub : ∀ a ∈ (bufs i).clean.held, a ∈ (bufs i).held := by
    intro a ha
    rw [hheld]
    exact List.mem_append_right _ ha
  have hmem : ∀ a ∈ heldBy (bufs i).sliceList, a ∈ (bufs i).held := by
    intro a ha
    rw [hheld]
    exact List.mem_append_left _ ha
  have hnd : (heldBy (bufs i).sliceList ++ (bufs i).clean.held).Nodup := hheld ▸ (h.opened i).holds.distinct
  have hrest : Inv P e m free (Function.update bufs i (bufs i).clean) flight := h.use (h.opened i).clean (.drop m free hsub)
  have hslots : parcelSlots (flight ++ [⟨off, heldBy (bufs i).sliceList⟩]) = parcelSlots flight ++ heldBy (bufs i).sliceList := by
    rw [parcelSlots_append]
    simp [parcelSlots]
  refine ⟨hrest.pool, hrest.opened, hrest.apart, ?_, ?_, ?_⟩
  · intro p hp
    rcases List.mem_append.mp hp with hp | hp
    · exact hrest.chains p hp
    · rw [List.mem_singleton.mp hp]
      exact hc
  · rw [hslots]
    exact h.distinct.append (List.nodup_append.mp hnd).1 fun a ha hx => (h.owned a ha).2 i (hmem a hx)
  · intro a ha
    rw [hslots] at ha
    rcases List.mem_append.mp ha with ha | ha
    · exact hrest.owned a ha
    · refine ⟨(h.opened i).holds.owned a (hmem a ha), fun j => ?_⟩
      by_cases hj : j = i
      · subst hj
        rw [Function.update_self]
        exact fun hx => (List.nodup_append.mp hnd).2.2 a ha a hx rfl
      · rw [Function.update_of_ne hj]
        exact h.apart i j (Ne.symm hj) a (hmem a ha)

omit [DecidableEq ι] in
theorem swap (h : Inv P e m free bufs flight) (σ : Equiv.Perm ι) : Inv P e m free (bufs ∘ σ) flight :=
  ⟨h.pool, fun i => h.opened (σ i), fun i j hij => h.apart (σ i) (σ j) (σ.injective.ne hij), h.chains, h.distinct,
    fun a ha => ⟨(h.owned a ha).1, fun i => (h.owned a ha).2 (σ i)⟩⟩

end Inv

-- the slots that are not with the buffer `i`
def Rest (bufs : ι → LinkedBuffer) (flight : List Parcel) (i : ι) (a : ℕ) : Prop :=
  (∃ j, j ≠ i ∧ a ∈ (bufs j).held) ∨ a ∈ parcelSlots flight

theorem held_split (bufs : ι → LinkedBuffer) (pre taken post : List Parcel) (i : ι) (a : ℕ) :
    a ∈ (bufs i).held ++ parcelSlots taken ∨ Rest bufs (pre ++ post) i a ↔ Held bufs (pre ++ (taken ++ post)) a := by
  have hbufs : (∃ j, a ∈ (bufs j).held) ↔ a ∈ (bufs i).held ∨ ∃ j, j ≠ i ∧ a ∈ (bufs j).held := by
    constructor
    · rintro ⟨j, hj⟩
      by_cases hji : j = i
      · exact .inl (hji ▸ hj)
      · exact .inr ⟨j, hji, hj⟩
    · rintro (h | ⟨j, -, h⟩)
      · exact ⟨i, h⟩
      · exact ⟨j, h⟩
  rw [Held, hbufs, Rest]
  simp only [parcelSlots_append, List.mem_append]
  generalize (∃ j, j ≠ i ∧ a ∈ (bufs j).held) = others
  tauto

theorem held_self (bufs : ι → LinkedBuffer) (flight : List Parcel) (i : ι) (a : ℕ) :
    a ∈ (bufs i).held ∨ Rest bufs flight i a ↔ Held bufs flight a := by
  have h := held_split bufs flight [] [] i a
  rwa [show parcelSlots [] = [] from rfl, List.append_nil, List.append_nil, List.append_nil, List.append_nil] at h

theorem held_update (bufs : ι → LinkedBuffer) (flight : List Parcel) (i : ι) (b : LinkedBuffer) (a : ℕ) :
    Held (Function.update bufs i b) flight a ↔ a ∈ b.held ∨ Rest bufs flight i a := by
  have hbufs : (∃ j, j ≠ i ∧ a ∈ (Function.update bufs i b j).held) ↔ ∃ j, j ≠ i ∧ a ∈ (bufs j).held := by
    apply exists_congr
    intro j
    apply and_congr_right
    intro hj
    rw [Function.update_of_ne hj]
  rw [← held_self (Function.update bufs i b) flight i a, Function.update_self, Rest, hbufs, Rest]

def Books (P : Pool) (e : Bool) (m : Mem) (bufs : ι → LinkedBuffer) (flight : List Parcel) (lost : ℕ → Prop) : Prop :=
  ∃ free, Inv P e m free bufs flight ∧ Ledger P m free (Held bufs flight) lost

namespace Books

omit [DecidableEq ι] in
theorem start (hf : P.Free e m free) (hall : ∀ d a, P.Slot d a → free a) :
    Books P e m (fun _ : ι => .empty) [] fun _ => False := by
  refine ⟨free, ⟨hf, fun _ => Reserving.open_start hf, fun _ _ _ => List.forall_mem_nil _, List.forall_mem_nil _, List.nodup_nil,
    List.forall_mem_nil _⟩, fun d a hd => ?_, fun d a hd _ => .inl (hall d a hd)⟩
  exact iff_of_false id fun h => h.1 (hall d a hd)

theorem exchange (h : Books P e m bufs flight lost)
    (hstep : ∀ free, Open P e m free (bufs i) → ∃ free', Open P e m' free' b' ∧ Exchange P m free (bufs i).held m' free' b'.held) :
    Books P e m' (Function.update bufs i b') flight lost := by
  obtain ⟨free, hinv, hl⟩ := h
  obtain ⟨free', hb, hex⟩ := hstep free (hinv.opened i)
  have hl' := (hl.congr (held_self bufs flight i)).exchange (hinv.opened i).holds.owned hex
  exact ⟨free', hinv.use hb hex.frame, hl'.congr (held_update bufs flight i b')⟩

theorem keep (h : Books P e m bufs flight lost) (hcall : (bufs i).releasePreviousReadAndReserve P.manager m = (m', b')) :
    Books P e m' (Function.update bufs i b') flight fun a => lost a ∨ Keeps (bufs i) a := by
  obtain ⟨free, hinv, hl⟩ := h
  obtain ⟨m₁, free₁, b₁, hclean, hb₁, hret₁, hex, hs⟩ := (hinv.opened i).cleanPinnedList
  obtain ⟨m₂, b₂, hres, hret₂, -⟩ := reserveFront_retains hb₁.toBase hb₁.len
  have hrel : (bufs i).releasePreviousReadAndReserve P.manager m = (m₂, b₂) := by
    rw [releasePreviousReadAndReserve, hclean]
    exact hres
  cases hcall.symm.trans hrel
  obtain ⟨m₃, free₃, b₃, hrel₃, hb₃, hret₃⟩ := (hinv.opened i).releasePreviousReadAndReserve
  cases hrel.symm.trans hrel₃
  obtain rfl := hret₂.base.holds.pool.unique hb₃.holds.pool
  have hkeeps : ∀ a, Keeps b₁ a ↔ Keeps (bufs i) a := fun a => by rw [Keeps, Keeps, hs, hret₁.len]
  have hl₁ := (hl.congr (held_self bufs flight i)).exchange (hinv.opened i).holds.owned hex
  have hl₂ := ((hl₁.reserveFront hb₁.toBase hres).congr (held_update bufs flight i b')).relabel
    fun a => or_congr_right (hkeeps a).symm
  exact ⟨free₁, hinv.use hb₃ hret₃.frame, hl₂⟩

omit [DecidableEq ι] in
theorem swap (h : Books P e m bufs flight lost) (σ : Equiv.Perm ι) : Books P e m (bufs ∘ σ) flight lost := by
  obtain ⟨free, hinv, hl⟩ := h
  refine ⟨free, hinv.swap σ, hl.congr fun a => or_congr_left ?_⟩
  exact (σ.surjective.exists (p := fun j => a ∈ (bufs j).held)).symm

theorem publish (h : Books P e m bufs flight lost) (hdone : (bufs i).done P.manager m = some (m', b'))
    (hc : Chain P m' b'.rootBufOffset (heldBy b'.sliceList)) :
    Books P e m' (Function.update bufs i b'.clean) (flight ++ [⟨b'.rootBufOffset, heldBy b'.sliceList⟩]) lost := by
  have hbooks : Books P e m' (Function.update bufs i b') flight lost := by
    refine h.exchange fun free hopen => ?_
    obtain ⟨m₁, free₁, b₁, hdone₁, hb₁, hex⟩ := hopen.done
    cases hdone.symm.trans hdone₁
    exact ⟨free₁, hb₁, hex⟩
  obtain ⟨free', hinv, hl⟩ := hbooks
  have hself : Function.update bufs i b' i = b' := Function.update_self i b' bufs
  have hinv' := hinv.send (i := i) b'.rootBufOffset (by rwa [hself])
  rw [hself, Function.update_idem] at hinv'
  refine ⟨free', hinv', hl.congr fun a => ?_⟩
  have hheld : a ∈ b'.held ↔ a ∈ heldBy b'.sliceList ∨ a ∈ b'.clean.held := by
    rw [← List.mem_append]
    exact iff_of_eq (congrArg (a ∈ ·) (heldBy_append b'.sliceList b'.pinnedList))
  have hslots : a ∈ parcelSlots (flight ++ [⟨b'.rootBufOffset, heldBy b'.sliceList⟩]) ↔
      a ∈ parcelSlots flight ∨ a ∈ heldBy b'.sliceList := by
    rw [parcelSlots_append, List.mem_append]
    simp [parcelSlots]
  rw [held_update, held_update, Rest, Rest, hslots, hheld]
  generalize (∃ j, j ≠ i ∧ a ∈ (bufs j).held) = others
  tauto

theorem receive {p : Parcel} (h : Books P e m bufs (pre ++ p :: post) lost)
    (hmove : Stream.moveChain P.manager P.manager.memSize m (bufs i) p.offset = some (m', b')) :
    Books P e m' (Function.update bufs i b') (pre ++ post) fun a => lost a ∧ ¬ Marks m p.slots b' a := by
  obtain ⟨free, hinv, hl⟩ := h
  obtain ⟨hc, hnd, hnew, hfuel⟩ := hinv.parcel
  have hslots : parcelSlots [p] = p.slots := List.flatMap_singleton _ _
  obtain ⟨m₁, free₁, b₁, hmove₁, hmoved, -, m₂, hb₂, hex, hcase⟩ := Stream.moveChain_moves (hinv.opened i).toBase (hinv.opened i).len
    hc hnd (fun a ha => ⟨(hnew a ha).1, (hnew a ha).2 i⟩) hfuel
  cases hmove.symm.trans hmove₁
  have hopen : Open P e m' free₁ b' := by
    rcases hmoved.cursor with rfl | hback
    · exact ⟨hmoved.base, hmoved.len, (hinv.opened i).ready⟩
    · exact .of_valid ⟨hmoved.base, hback, hmoved.len⟩
  have hl₁ := (hl.congr fun a => hslots ▸ held_split bufs pre [p] post i a).exchange (hinv.taken_owned i) hex
  refine ⟨free₁, hinv.move [p] hopen (by rw [hslots]; exact hmoved.trade.toSlotFrame), ?_⟩
  rcases hcase with ⟨hend, rfl⟩ | ⟨hend, rfl⟩
  · refine ((hl₁.clearBack hb₂).congr (held_update bufs (pre ++ post) i b')).relabel fun a => ?_
    rw [Marks, and_iff_right hend]
  · refine (hl₁.congr (held_update bufs (pre ++ post) i b')).relabel fun a => ?_
    exact and_iff_left fun hmarks => hend hmarks.1

theorem drop {p : Parcel} (h : Books P e m bufs (pre ++ p :: post) lost) (i : ι)
    (hwalk : P.manager.recycleBuffers P.manager.memSize m (slotView m p.offset) = some m') :
    Books P e m' bufs (pre ++ post) lost := by
  obtain ⟨free, hinv, hl⟩ := h
  obtain ⟨hc, hnd, hnew, hfuel⟩ := hinv.parcel
  have hslots : parcelSlots [p] = p.slots := List.flatMap_singleton _ _
  obtain ⟨m₁, free₁, hwalk₁, hf₁, hex₁⟩ := recycleBuffers_chain hinv.pool hc hnd (fun a ha => (hnew a ha).1) hfuel
  cases hwalk.symm.trans hwalk₁
  have hC : ∀ a ∈ (bufs i).held, ¬ free a ∧ a ∉ p.slots :=
    fun a ha => ⟨(hinv.opened i).holds.owned a ha, fun hx => (hnew a hx).2 i ha⟩
  have hex : Exchange P m free ((bufs i).held ++ p.slots) m' free₁ (bufs i).held := by
    refine (hex₁.more hC (hinv.opened i).slots).congr_left fun a => ?_
    rw [List.mem_append, List.mem_append, or_comm]
  have hopen := (hinv.opened i).others hf₁ fun a ha => ((hex₁.frame.others hC).1 a ha).1
  have hl₁ := (hl.congr fun a => hslots ▸ held_split bufs pre [p] post i a).exchange (hinv.taken_owned i) hex
  have hinv₁ := hinv.move [p] (i := i) hopen (by rw [hslots]; exact hex.frame)
  rw [Function.update_eq_self] at hinv₁
  exact ⟨free₁, hinv₁, hl₁.congr fun a => (held_self bufs (pre ++ post) i a).symm⟩

end Books

theorem books_of_run (h : Run P e m bufs flight lost) : Books P e m bufs flight lost := by
  induction h with
  | start hf hall => exact .start hf hall
  | call _ hlegal hplain hcall ih => exact ih.exchange fun _ hopen => Reserving.exchange_call hopen hlegal hplain hcall
  | @fallback m bufs _ _ i slice _ hok hnone ih =>
    refine ih.exchange fun free hopen => ⟨free, hopen.appendBufferSlice hok fun a ha => ?_, (Exchange.refl _ _ _ _).congr fun a => ?_⟩
    · rw [hnone] at ha
      cases ha
    · rw [(appendBufferSlice_base hopen.toBase hok fun a ha => by rw [hnone] at ha; cases ha).2.2.mem_iff, hnone]
      exact iff_of_eq (congrArg (a ∈ ·) (List.append_nil _))
  | keep _ hcall ih => exact ih.keep hcall
  | swap _ ih => exact ih.swap _
  | publish _ hdone hc ih => exact ih.publish hdone hc
  | receive _ hmove ih => exact ih.receive hmove
  | drop i _ hwalk ih => exact ih.drop i hwalk

theorem kept_returns_iff (h : Run P e m bufs flight lost) (hf : P.Free e m free) :
    (∀ d a, P.Slot d a → ¬ Held bufs flight a → (free a ↔ ¬ lost a)) ∧
      (e = true → (∀ a, ¬ Held bufs flight a) →
        (P.manager.checkBufferReturned m = true ↔ ∀ d a, P.Slot d a → ¬ lost a)) := by
  obtain ⟨free₀, hinv, hl⟩ := books_of_run h
  obtain rfl := hinv.pool.unique hf
  refine ⟨fun d a hd hgone => hl.free_iff hd hgone, ?_⟩
  rintro rfl hgone
  rw [checkBufferReturned_iff hf]
  apply forall_congr'
  intro d
  apply forall_congr'
  intro a
  exact imp_congr_right fun hd => hl.free_iff hd (hgone a)

end World

section Example

open Reserving (call)

open Built (threeSlots threeMem threeMem_free threeSlots_slot)

-- three bytes are written to the first slot
def written : LinkedBuffer := ⟨[⟨0, { freshSlice 4 36 with writeIndex := 3 }⟩], some 0, [], false, true, 3, 1⟩

-- all of them are read
def consumed : LinkedBuffer := ⟨[⟨0, { freshSlice 4 36 with readIndex := 3, writeIndex := 3 }⟩], some 0, [], true, true, 0, 1⟩

-- and the slot is kept
def reserved : LinkedBuffer := ⟨[⟨0, freshSlice 4 36⟩], some 0, [], true, true, 0, 1⟩

-- an empty slot, in the buffer from which the bytes were sent
def blank : LinkedBuffer := ⟨[⟨1, freshSlice 4 60⟩], some 1, [], false, true, 0, 2⟩

def ends (sender receiver : LinkedBuffer) (i : Bool) : LinkedBuffer := cond i sender receiver

theorem ends_sender (s r s' : LinkedBuffer) : Function.update (ends s r) true s' = ends s' r := by
  funext i
  cases i <;> rfl

theorem ends_receiver (s r r' : LinkedBuffer) : Function.update (ends s r) false r' = ends s r' := by
  funext i
  cases i <;> rfl

theorem ends_gone {s r : LinkedBuffer} (hs : s.held = []) (hr : r.held = []) (a : ℕ) : ¬ Held (ends s r) [] a := by
  rintro (⟨i, hi⟩ | h)
  · cases i with
    | true => exact absurd (hs ▸ hi) List.not_mem_nil
    | false => exact absurd (hr ▸ hi) List.not_mem_nil
  · cases h

theorem Run.receive_only {m m' : Mem} {bufs : Bool → LinkedBuffer} {p : Parcel} {lost : ℕ → Prop} {i : Bool} {b' : LinkedBuffer}
    (h : Run threeSlots true m bufs [p] lost)
    (hmove : Stream.moveChain threeSlots.manager 108 m (bufs i) p.offset = some (m', b')) :
    Run threeSlots true m' (Function.update bufs i b') [] fun a => lost a ∧ ¬ Marks m p.slots b' a :=
  .receive (show Run threeSlots true m bufs ([] ++ p :: []) lost from h) hmove

-- the last calls are those of a chain that is one empty slot
theorem run_kept : ∃ m kept, Run threeSlots true m (ends written.cleared reserved) [] kept ∧ (∀ a, kept a ↔ a = 36) ∧
    ∃ m₁ m₂ m₃, call threeSlots.manager m written.cleared (.alloc 4) = some (m₁, { blank with write := none }) ∧
      done threeSlots.manager m₁ blank = some (m₂, blank) ∧ Chain threeSlots m₂ 60 [60] ∧ BufferHeader.size m₂ 60 = 0 ∧
      Stream.moveChain threeSlots.manager 108 m₂ reserved 60 = some (m₃, reserved) := by
  have hcalls : ((call threeSlots.manager threeMem .empty (.writeBytes [1, 2, 3])).bind fun r₁ =>
      (done threeSlots.manager r₁.1 r₁.2).bind fun r₂ =>
      (Stream.moveChain threeSlots.manager 108 r₂.1 .empty 36).bind fun r₃ =>
      (call threeSlots.manager r₃.1 r₃.2 (.readBytes 3)).bind fun r₄ =>
      (call threeSlots.manager r₄.1 r₄.2 .releasePreviousReadAndReserve).bind fun r₅ =>
      (call threeSlots.manager r₅.1 r₂.2.cleared (.alloc 4)).bind fun r₆ =>
      (done threeSlots.manager r₆.1 { r₆.2 with write := r₆.2.front }).bind fun r₇ =>
      (Stream.moveChain threeSlots.manager 108 r₇.1 r₅.2 60).map fun r₈ =>
        ((decide (Chain threeSlots r₂.1 36 [36]), r₁.2, r₂.2), (r₃.2, r₄.2, r₅.2),
          (r₆.2, r₇.2, r₈.2), decide (Chain threeSlots r₇.1 60 [60]), BufferHeader.size r₇.1 60)) =
      some ((true, written, written), (written, consumed, reserved), ({ blank with write := none }, blank, reserved), true, 0) := by
    decide +kernel
  obtain ⟨⟨m₁, b₁⟩, hwrite, hcalls⟩ := Option.bind_eq_some_iff.mp hcalls
  obtain ⟨⟨m₂, b₂⟩, hdone, hcalls⟩ := Option.bind_eq_some_iff.mp hcalls
  obtain ⟨⟨m₃, b₃⟩, hmove, hcalls⟩ := Option.bind_eq_some_iff.mp hcalls
  obtain ⟨⟨m₄, b₄⟩, hread, hcalls⟩ := Option.bind_eq_some_iff.mp hcalls
  obtain ⟨⟨m₅, b₅⟩, hkeep, hcalls⟩ := Option.bind_eq_some_iff.mp hcalls
  obtain ⟨⟨m₆, b₆⟩, halloc, hcalls⟩ := Option.bind_eq_some_iff.mp hcalls
  obtain ⟨⟨m₇, b₇⟩, hdone', hcalls⟩ := Option.bind_eq_some_iff.mp hcalls
  obtain ⟨⟨m₈, b₈⟩, hmove', hcalls⟩ := Option.map_eq_some_iff.mp hcalls
  simp only [Prod.mk.injEq, decide_eq_true_eq] at hcalls
  obtain ⟨⟨hchain, rfl, rfl⟩, ⟨rfl, rfl, rfl⟩, ⟨rfl, rfl, rfl⟩, hchain', hsize⟩ := hcalls
  have hstart : Run threeSlots true threeMem (ends .empty .empty) [] fun _ => False := by
    rw [show ends .empty .empty = fun _ => .empty from funext fun i => Bool.cond_self i _]
    exact .start threeMem_free fun d a hd => threeSlots_slot hd
  have hsent := (hstart.call (c := .writeBytes [1, 2, 3]) (i := true) trivial trivial hwrite).publish (i := true) hdone hchain
  have hgot := hsent.receive_only (i := false) hmove
  have hkept := (hgot.call (c := .readBytes 3) (i := false) trivial trivial hread).keep (i := false) (Option.some.inj hkeep)
  simp only [ends_sender, ends_receiver] at hkept
  refine ⟨m₅, _, hkept, fun a => ?_, m₆, m₇, m₈, halloc, hdone', hchain', hsize, hmove'⟩
  constructor
  · rintro (⟨⟨⟩, -⟩ | ⟨-, n, hn, ha⟩)
    obtain ⟨rfl, -⟩ := List.cons.inj hn
    exact (Option.some.inj ha).symm
  · rintro rfl
    exact .inr ⟨rfl, _, rfl, rfl⟩

theorem kept_returns_marked : ∃ (m m₁ : Mem) (bufs : Bool → LinkedBuffer) (kept : ℕ → Prop), kept 36 ∧
    Run threeSlots true m bufs [] (fun a => kept a ∧ ¬ Marks m₁ [60] reserved a) ∧ (∀ a, ¬ Held bufs [] a) ∧
    threeSlots.manager.checkBufferReturned m = true := by
  obtain ⟨m, kept, hrun, hkept, m₁, m₂, m₃, halloc, hdone, hchain, hsize, hmove⟩ := run_kept
  have hfront := (hrun.call (c := .alloc 4) (i := true) (show 4 < 4294967296 by decide) trivial halloc).call
    (c := .setWriteFront) (i := true) rfl trivial rfl
  have hgot := (hfront.publish (i := true) hdone hchain).receive_only (i := false) hmove
  have hback := hgot.call (c := .recycle) (i := false) trivial trivial rfl
  simp only [ends_sender, ends_receiver] at hback
  obtain ⟨free, hinv, -⟩ := books_of_run hback
  have hgone := ends_gone (show (blank.cleared).held = [] from rfl) (show (reserved.cleared).held = [] from rfl)
  refine ⟨_, m₂, _, kept, (hkept 36).mpr rfl, hback, hgone, ((kept_returns_iff hback hinv.pool).2 rfl hgone).mpr ?_⟩
  rintro d a - ⟨ha, hmarks⟩
  rw [(hkept a).mp ha] at hmarks
  exact hmarks ⟨Stream.endsEmpty_singleton.mpr hsize, rfl⟩

theorem kept_lost : ∃ (m : Mem) (bufs : Bool → LinkedBuffer) (lost free : ℕ → Prop), Run threeSlots true m bufs [] lost ∧ (∀ a, ¬ Held bufs [] a) ∧ lost 36 ∧
    threeSlots.Free true m free ∧ ¬ free 36 ∧ threeSlots.manager.checkBufferReturned m = false := by
  obtain ⟨m, kept, hrun, hkept, -⟩ := run_kept
  have hback := hrun.call (c := .recycle) (i := false) trivial trivial rfl
  rw [ends_receiver] at hback
  obtain ⟨free, hinv, hl⟩ := books_of_run hback
  have hslot : threeSlots.Slot 4 36 := by decide
  have hlost := (hl.flags 4 36 hslot).mp ((hkept 36).mpr rfl)
  refine ⟨_, _, kept, free, hback, ends_gone rfl rfl, (hkept 36).mpr rfl, hinv.pool, hlost.1, ?_⟩
  rw [← Bool.not_eq_true, checkBufferReturned_iff hinv.pool]
  exact fun hall => hlost.1 (hall 4 36 hslot)

end Example

end KeptSlots

end Shmipc
