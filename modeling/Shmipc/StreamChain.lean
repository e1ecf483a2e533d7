import Shmipc.Stream
import Shmipc.LinkedBufferRelease

namespace Shmipc

open ByteMemory

variable {P : Pool} {e : Bool} {m m' : Mem} {free free' : ℕ → Prop} {a c off : ℕ} {A : List ℕ} {b : LinkedBuffer}

def slotView (m : Mem) (a : ℕ) : BufferSlice where
  bufferHeader := some a
  data := .shm (a + kBufferHeaderSize)
  cap := BufferHeader.cap m a
  start := BufferHeader.start m a
  offsetInShm := a
  readIndex := BufferHeader.start m a
  writeIndex := u32 (BufferHeader.start m a + BufferHeader.size m a)
  isFromShm := true

def Readable (P : Pool) (m : Mem) (a : ℕ) : Prop :=
  ∃ c, P.Slot c a ∧ BufferHeader.start m a + BufferHeader.size m a ≤ c

inductive Chain (P : Pool) (m : Mem) : ℕ → List ℕ → Prop
  | last {a : ℕ} : Readable P m a → BufferHeader.hasNext m a = false → Chain P m a [a]
  | cons {a : ℕ} {A : List ℕ} : Readable P m a → BufferHeader.hasNext m a = true →
      Chain P m (BufferHeader.nextBufferOffset m a) A → Chain P m a (a :: A)

theorem chain_cons : Chain P m off (a :: A) ↔ off = a ∧ Readable P m a ∧
    (BufferHeader.hasNext m a = false ∧ A = [] ∨
      BufferHeader.hasNext m a = true ∧ Chain P m (BufferHeader.nextBufferOffset m a) A) := by
  constructor
  · intro h
    cases h with
    | last hr hn => exact ⟨rfl, hr, .inl ⟨hn, rfl⟩⟩
    | cons hr hn hc => exact ⟨rfl, hr, .inr ⟨hn, hc⟩⟩
  · rintro ⟨rfl, hr, ⟨hn, rfl⟩ | ⟨hn, hc⟩⟩
    · exact .last hr hn
    · exact .cons hr hn hc

instance (P : Pool) (m : Mem) (a : ℕ) : Decidable (Readable P m a) :=
  decidable_of_iff (∃ k ∈ P.classes, IsSlot k.list k.num k.cap a ∧ BufferHeader.start m a + BufferHeader.size m a ≤ k.cap)
    ⟨fun ⟨k, hk, hs, hle⟩ => ⟨k.cap, ⟨k, hk, rfl, hs⟩, hle⟩, fun ⟨_, ⟨k, hk, hc, hs⟩, hle⟩ => ⟨k, hk, hs, hc ▸ hle⟩⟩

instance decidableChain (P : Pool) (m : Mem) : ∀ off A, Decidable (Chain P m off A)
  | _, [] => .isFalse fun h => by cases h
  | _, a :: A =>
    have := decidableChain P m (BufferHeader.nextBufferOffset m a) A
    decidable_of_iff _ chain_cons.symm

def chainBytes (m : Mem) (A : List ℕ) : List UInt8 := A.flatMap fun a => (slotView m a).unread m

def dataViews (m : Mem) (A : List ℕ) : List BufferSlice := (A.filter fun a => BufferHeader.size m a ≠ 0).map (slotView m)

theorem dataViews_append (m : Mem) (A B : List ℕ) : dataViews m (A ++ B) = dataViews m A ++ dataViews m B := by
  rw [dataViews, List.filter_append, List.map_append, dataViews, dataViews]

theorem Pool.Free.caps (h : P.Free e m free) (hs : P.Slot c a) : BufferHeader.cap m a = c := by
  obtain ⟨F, hF, -⟩ := h
  exact hF.caps c a hs

theorem readBufferSlice_slot (h : P.Free e m free) (hs : P.Slot c a) :
    P.manager.readBufferSlice m a = .ok (slotView m a) := by
  have hcap := h.caps hs
  have hfits := hs.fits
  have hpos := hs.cap_pos
  have hlt := hs.lt
  have hend : u32 (a + 20 + BufferHeader.cap m a) = a + 20 + c := by
    rw [hcap, u32, Nat.mod_eq_of_lt (by omega)]
  rw [BufferManager.readBufferSlice, kBufferHeaderSize_eq, if_neg (by omega)]
  change (if u32 (a + 20 + BufferHeader.cap m a) > P.manager.memSize then _ else _) = _
  rw [hend, if_neg (by omega)]
  rfl

theorem slotView_ok (h : P.Free e m free) (hr : Readable P m a) :
    SliceOk P (slotView m a) ∧ (slotView m a).size = BufferHeader.size m a := by
  obtain ⟨c, hs, hfit⟩ := hr
  have hcap := h.caps hs
  have hlt := hs.lt
  have hw : (slotView m a).writeIndex = BufferHeader.start m a + BufferHeader.size m a := by
    rw [slotView, u32, Nat.mod_eq_of_lt (by omega)]
  have hok : SliceOk P (slotView m a) := by
    refine ⟨?_, ?_, .inl ⟨a, ⟨rfl, rfl, rfl, ?_⟩, rfl⟩⟩
    · rw [hw]
      exact Nat.le_add_right _ _
    · rw [hw]
      change _ ≤ BufferHeader.cap m a
      rw [hcap]
      exact hfit
    · change P.Slot (BufferHeader.cap m a) a
      rw [hcap]
      exact hs
  refine ⟨hok, ?_⟩
  rw [hok.size_eq, hw]
  exact Nat.add_sub_cancel_left _ _

section Congr

theorem slotView_congr (h : SameOn m m' a (a + 20)) : slotView m' a = slotView m a := by
  simp only [slotView, BufferHeader.cap_congr h, BufferHeader.start_congr h, BufferHeader.size_congr h]

theorem Readable.congr (hr : Readable P m a) (h : SameOn m m' a (a + 20)) : Readable P m' a := by
  obtain ⟨c, hs, hfit⟩ := hr
  exact ⟨c, hs, by rw [BufferHeader.start_congr h, BufferHeader.size_congr h]; exact hfit⟩

theorem Readable.header (hr : Readable P m a) (h : Untouched P m m' A) (ha : a ∈ A) : SameOn m m' a (a + 20) := by
  obtain ⟨c, hs, -⟩ := hr
  exact (h c a hs ha).mono le_rfl (by omega)

theorem Chain.readable (h : Chain P m off A) (ha : a ∈ A) : Readable P m a := by
  induction h with
  | last hr _ => rwa [List.mem_singleton.mp ha]
  | cons hr _ _ ih =>
    rcases List.mem_cons.mp ha with rfl | ha
    · exact hr
    · exact ih ha

theorem Chain.ne_nil (h : Chain P m off A) : A ≠ [] := by
  cases h with
  | last => exact List.cons_ne_nil _ _
  | cons => exact List.cons_ne_nil _ _

theorem Chain.unique {B : List ℕ} (h : Chain P m off A) (h' : Chain P m off B) : A = B := by
  induction h generalizing B with
  | last _ hn =>
    cases h' with
    | last => rfl
    | cons _ hn' _ => exact absurd (hn.symm.trans hn') nofun
  | cons _ hn _ ih =>
    cases h' with
    | last _ hn' => exact absurd (hn.symm.trans hn') nofun
    | cons _ _ hc => rw [ih hc]

theorem Chain.congr (h : Chain P m off A) (hsame : Untouched P m m' A) : Chain P m' off A := by
  induction h with
  | last hr hn =>
    have hh := hr.header hsame (List.mem_singleton_self _)
    exact .last (hr.congr hh) (by rwa [BufferHeader.hasNext_congr hh])
  | cons hr hn _ ih =>
    have hh := hr.header hsame List.mem_cons_self
    refine .cons (hr.congr hh) (by rwa [BufferHeader.hasNext_congr hh]) ?_
    rw [BufferHeader.nextBufferOffset_congr hh]
    exact ih (hsame.mono fun x hx => List.mem_cons_of_mem _ hx)

theorem dataViews_congr (hr : ∀ a ∈ A, Readable P m a) (hsame : Untouched P m m' A) : dataViews m' A = dataViews m A := by
  have hh : ∀ a ∈ A, SameOn m m' a (a + 20) := fun a ha => (hr a ha).header hsame ha
  have hfilter : A.filter (fun a => BufferHeader.size m' a ≠ 0) = A.filter (fun a => BufferHeader.size m a ≠ 0) := by
    apply List.filter_congr
    intro a ha
    rw [BufferHeader.size_congr (hh a ha)]
  rw [dataViews, dataViews, hfilter]
  apply List.map_congr_left
  intro a ha
  exact slotView_congr (hh a (List.mem_filter.mp ha).1)

theorem chainBytes_congr (hf : P.Free e m free) (hr : ∀ a ∈ A, Readable P m a) (hsame : Untouched P m m' A) :
    chainBytes m' A = chainBytes m A := by
  apply List.flatMap_congr
  intro a ha
  have hh := (hr a ha).header hsame ha
  obtain ⟨hok, -⟩ := slotView_ok hf (hr a ha)
  rw [slotView_congr hh]
  apply hok.unread_congr
  intro x hx
  cases hx
  exact hsame _ a (hok.refers rfl).1.slot ha

end Congr

theorem recycle_slotView (h : P.Free e m free) (hr : Readable P m a) (hna : ¬ free a) :
    ∃ free', P.Free e (P.manager.recycleBuffer m (slotView m a)) free' ∧
      Exchange P m free [a] (P.manager.recycleBuffer m (slotView m a)) free' [] := by
  have hrefers := ((slotView_ok h hr).1.refers rfl).1
  have hone : ∀ x ∈ [a], x = a := fun x hx => List.mem_singleton.mp hx
  rcases h.recycleBuffer hrefers hna with ⟨hu, hm⟩ | ⟨hu, hgave⟩
  · rw [hm]
    exact ⟨free, h, .drop (fun x hx _ => hone x hx ▸ hu) (List.forall_mem_nil _)⟩
  · refine ⟨_, hgave.state, .give hgave (fun x hx => ⟨_, hone x hx ▸ hrefers.slot⟩) (fun x hx => hone x hx ▸ hna)
      (List.mem_singleton_self a) hu fun x => ?_⟩
    simp

namespace Stream

open LinkedBuffer

theorem clearBack_trade (hb : Base P e m free b) :
    Base P e (clearBack m b) free b ∧ unreadOf (clearBack m b) b.sliceList = unreadOf m b.sliceList ∧
      Trade P m free b.held (clearBack m b) free b.held := by
  have hsame : Base P e m free b ∧ unreadOf m b.sliceList = unreadOf m b.sliceList ∧
      Trade P m free b.held m free b.held := ⟨hb, rfl, (Exchange.refl _ _ _ _).trade hb.holds.owned⟩
  rw [clearBack]
  rcases List.eq_nil_or_concat' b.sliceList with hnil | ⟨pre, n, hsplit⟩
  · rw [hnil] at hsame ⊢
    exact hsame
  · rw [hsplit, List.getLast?_concat, Option.bind_some, ← hsplit]
    cases hh : n.slice.bufferHeader with
    | none => exact hsame
    | some a =>
      have hok := hb.mem_slice (n := n) (by simp [hsplit])
      have hout : ∀ lo hi, a + 20 ≤ lo ∨ hi ≤ a →
          SameOn m (BufferHeader.setInUsed (BufferHeader.clearFlag m a) a) lo hi := fun lo hi hoff =>
        (BufferHeader.sameOn_clearFlag m a hoff).trans (BufferHeader.sameOn_setInUsed _ a hoff)
      have hw : n.slice.WritesSlot m (BufferHeader.setInUsed (BufferHeader.clearFlag m a) a) := by
        refine ⟨fun lo hi hlo => hout lo hi ?_, fun x hx => ?_⟩
        · have := hlo a hh
          omega
        · rw [hh] at hx
          cases hx
          simp
      obtain ⟨hbase, -⟩ := hb.replace hsplit hw hok rfl rfl
      have hframe := hb.frame hsplit hw
      have hnodes : b.nodes = pre ++ n :: ([] ++ b.pinnedList) := by simp [nodes, hsplit]
      refine ⟨hbase.congr hsplit rfl rfl rfl, ?_, ⟨hframe, ?_, fun _ x hx => hx⟩⟩
      · apply List.flatMap_congr
        intro x hx
        rw [hsplit] at hx
        rcases List.mem_append.mp hx with hx | hx
        · exact (hnodes ▸ hb.holds).unread_others hw (by simp [hx])
        · rw [List.mem_singleton.mp hx]
          apply hok.unread_of_data
          intro y hy
          rw [hh] at hy
          cases hy
          exact hout _ _ (.inl le_rfl)
      · intro hA x hx
        by_cases hxa : x = a
        · rw [hxa]
          simp
        · obtain ⟨d, hd⟩ := hb.slots x hx
          have hkept := hok.frame hw hd fun he => hxa (Option.some.inj (hh ▸ he)).symm
          rw [BufferHeader.isInUsed_congr (hkept.mono le_rfl (by omega))]
          exact hA x hx

-- the head of a chain goes back to the pool, and the rest of it stays
theorem recycle_head (hb : Base P e m free b) (hr : ∀ x ∈ a :: A, Readable P m x) (hnd : (a :: A).Nodup)
    (hown : ∀ x ∈ a :: A, ¬ free x ∧ x ∉ b.held) :
    ∃ free', Base P e (P.manager.recycleBuffer m (slotView m a)) free' b ∧
      (∀ x ∈ A, ¬ free' x) ∧ Untouched P m (P.manager.recycleBuffer m (slotView m a)) (b.held ++ A) ∧
      Exchange P m free (b.held ++ a :: A) (P.manager.recycleBuffer m (slotView m a)) free' (b.held ++ A) := by
  obtain ⟨hna, hnb⟩ := hown a List.mem_cons_self
  obtain ⟨free', hf, hex⟩ := recycle_slotView hb.holds.pool (hr a List.mem_cons_self) hna
  have hC : ∀ x ∈ b.held ++ A, ¬ free x ∧ x ∉ [a] := by
    intro x hx
    rw [List.mem_singleton]
    rcases List.mem_append.mp hx with hx | hx
    · exact ⟨hb.holds.owned x hx, fun he => hnb (he ▸ hx)⟩
    · exact ⟨(hown x (List.mem_cons_of_mem a hx)).1, fun he => (List.nodup_cons.mp hnd).1 (he ▸ hx)⟩
  have hslots : ∀ x ∈ b.held ++ A, ∃ d, P.Slot d x := by
    intro x hx
    rcases List.mem_append.mp hx with hx | hx
    · exact hb.slots x hx
    · obtain ⟨d, hd, -⟩ := hr x (List.mem_cons_of_mem a hx)
      exact ⟨d, hd⟩
  obtain ⟨hout, hsame⟩ := hex.frame.others hC
  refine ⟨free', hb.others hf fun x hx => (hout x (List.mem_append_left _ hx)).1,
    fun x hx => (hout x (List.mem_append_right _ hx)).1, hsame, (hex.more hC hslots).congr_left ?_⟩
  intro x
  simp only [List.mem_append, List.mem_cons, List.not_mem_nil, or_false]
  tauto

-- the head of a chain goes into the buffer
theorem append_head (hb : Base P e m free b) (hr : Readable P m a)
    (hown : ∀ x ∈ a :: A, ¬ free x ∧ x ∉ b.held) :
    Base P e m free (b.appendBufferSlice (slotView m a)) ∧
      unreadOf m (b.appendBufferSlice (slotView m a)).sliceList = unreadOf m b.sliceList ++ (slotView m a).unread m ∧
      (∀ x, x ∈ (b.appendBufferSlice (slotView m a)).held ↔ x ∈ b.held ∨ x = a) ∧
      Exchange P m free (b.held ++ a :: A) m free ((b.appendBufferSlice (slotView m a)).held ++ A) := by
  obtain ⟨hb', hunread, hperm⟩ := appendBufferSlice_base hb (slotView_ok hb.holds.pool hr).1
    (fun x hx => hown x (by cases hx; exact List.mem_cons_self))
  have hmem : ∀ x, x ∈ (b.appendBufferSlice (slotView m a)).held ↔ x ∈ b.held ∨ x = a := by
    intro x
    rw [hperm.mem_iff]
    simp [slotView]
  refine ⟨hb', hunread, hmem, (Exchange.refl P m free (b.held ++ a :: A)).congr ?_⟩
  intro x
  simp only [List.mem_append, hmem, List.mem_cons]
  tauto

section Rounds

variable {bm : BufferManager} {rest : Mem → LinkedBuffer → ℕ → Option (Mem × LinkedBuffer)} {s : BufferSlice}

theorem moveSlot_empty (hsize : s.size = 0) : moveSlot bm rest m b (.ok s) =
    if s.bufferHeader.any (BufferHeader.hasNext m) = true then
      rest (bm.recycleBuffer m s) b ((s.bufferHeader.map (BufferHeader.nextBufferOffset m)).getD 0)
    else some (clearBack (bm.recycleBuffer m s) b, b) := by
  exact if_pos hsize

theorem moveSlot_data (hsize : ¬ s.size = 0) : moveSlot bm rest m b (.ok s) =
    if s.bufferHeader.any (BufferHeader.hasNext m) = true then
      rest m (b.appendBufferSlice s) ((s.bufferHeader.map (BufferHeader.nextBufferOffset m)).getD 0)
    else some (m, b.appendBufferSlice s) := by
  exact if_neg hsize

theorem moveChain_eq {fuel h : ℕ} (hread : bm.readBufferSlice m off = .ok s) (hh : s.bufferHeader = some h) :
    moveChain bm (fuel + 1) m b off =
      if s.size = 0 then
        if BufferHeader.hasNext m h = true then
          moveChain bm fuel (bm.recycleBuffer m s) b (BufferHeader.nextBufferOffset m h)
        else some (clearBack (bm.recycleBuffer m s) b, b)
      else if BufferHeader.hasNext m h = true then
        moveChain bm fuel m (b.appendBufferSlice s) (BufferHeader.nextBufferOffset m h)
      else some (m, b.appendBufferSlice s) := by
  have hround : moveChain bm (fuel + 1) m b off =
      moveSlot bm (moveChain bm fuel) m b (bm.readBufferSlice m off) := rfl
  rw [hround, hread]
  by_cases hsize : s.size = 0
  · rw [moveSlot_empty hsize, if_pos hsize, hh, Option.any_some, Option.map_some, Option.getD_some]
  · rw [moveSlot_data hsize, if_neg hsize, hh, Option.any_some, Option.map_some, Option.getD_some]

end Rounds

structure Moved (P : Pool) (e : Bool) (m : Mem) (free : ℕ → Prop) (b : LinkedBuffer) (A : List ℕ) (data : List UInt8) (m' : Mem)
    (free' : ℕ → Prop) (b' : LinkedBuffer) : Prop where
  base : Base P e m' free' b'
  len : b'.len = sizeOf b'.sliceList
  cursor : b' = b ∨ b'.write = b'.back
  unread : unreadOf m' b'.sliceList = unreadOf m b.sliceList ++ data
  trade : Trade P m free (b.held ++ A) m' free' b'.held

namespace Moved

variable {m₁ : Mem} {free₁ : ℕ → Prop} {b₁ b' : LinkedBuffer} {data data₁ : List UInt8} {B : List ℕ}

theorem valid (h : Moved P e m free b A data m' free' b') (hv : Valid P e m free b) : Valid P e m' free' b' := by
  refine ⟨h.base, ?_, h.len⟩
  rcases h.cursor with rfl | hback
  · exact hv.cursor
  · exact hback

-- `B` comes behind what was there in between
theorem step (h : Moved P e m₁ free₁ b₁ B data m' free' b') (hcursor : b₁ = b ∨ b₁.write = b₁.back)
    (hunread : unreadOf m₁ b₁.sliceList = unreadOf m b.sliceList ++ data₁)
    (ht : Trade P m free (b.held ++ A) m₁ free₁ (b₁.held ++ B)) : Moved P e m free b A (data₁ ++ data) m' free' b' where
  base := h.base
  len := h.len
  cursor := by
    rcases h.cursor with rfl | hback
    · exact hcursor
    · exact .inr hback
  unread := by rw [h.unread, hunread, List.append_assoc]
  trade := ht.trans h.trade

end Moved

structure Grown (b b' : LinkedBuffer) (slices : List BufferSlice) : Prop where
  behind : ∃ ns, b'.sliceList = b.sliceList ++ ns ∧ ns.map Node.slice = slices
  pinned : b'.pinnedList = b.pinnedList
  currentPinned : b'.currentPinned = b.currentPinned

namespace Grown

variable {b₁ b' : LinkedBuffer} {slices slices₁ : List BufferSlice}

theorem refl (b : LinkedBuffer) : Grown b b [] := ⟨⟨[], (List.append_nil _).symm, rfl⟩, rfl, rfl⟩

theorem trans (h : Grown b b₁ slices₁) (h' : Grown b₁ b' slices) : Grown b b' (slices₁ ++ slices) := by
  obtain ⟨⟨ns, hs, hns⟩, hp, hc⟩ := h
  obtain ⟨⟨ns', hs', hns'⟩, hp', hc'⟩ := h'
  refine ⟨⟨ns ++ ns', ?_, ?_⟩, hp'.trans hp, hc'.trans hc⟩
  · rw [hs', hs, List.append_assoc]
  · rw [List.map_append, hns, hns']

theorem append (b : LinkedBuffer) {s : BufferSlice} (hs : s.isFromShm = true) : Grown b (b.appendBufferSlice s) [s] := by
  rw [appendBufferSlice, if_pos hs]
  exact ⟨⟨_, rfl, rfl⟩, rfl, rfl⟩

end Grown

def EndsEmpty (m : Mem) (A : List ℕ) : Prop := ∃ a, A.getLast? = some a ∧ BufferHeader.size m a = 0

theorem endsEmpty_singleton : EndsEmpty m [a] ↔ BufferHeader.size m a = 0 := by
  simp [EndsEmpty]

theorem endsEmpty_cons (hA : A ≠ []) : EndsEmpty m (a :: A) ↔ EndsEmpty m A := by
  obtain ⟨x, B, rfl⟩ := List.exists_cons_of_ne_nil hA
  rw [EndsEmpty, List.getLast?_cons_cons, EndsEmpty]

theorem endsEmpty_congr (hr : ∀ a ∈ A, Readable P m a) (hsame : Untouched P m m' A) : EndsEmpty m' A ↔ EndsEmpty m A := by
  apply exists_congr
  intro a
  apply and_congr_right
  intro ha
  have hmem := List.mem_of_getLast? ha
  rw [BufferHeader.size_congr ((hr a hmem).header hsame hmem)]

/-- The slots of the chain went into the buffer or back to the pool, and then the header of the last slice was cleared if the
chain ends in an empty slot. -/
def Walked (P : Pool) (e : Bool) (m : Mem) (free : ℕ → Prop) (b : LinkedBuffer) (A : List ℕ) (m' : Mem) (free' : ℕ → Prop)
    (b' : LinkedBuffer) : Prop :=
  ∃ m₁, Base P e m₁ free' b' ∧ Exchange P m free (b.held ++ A) m₁ free' b'.held ∧
    (EndsEmpty m A ∧ m' = clearBack m₁ b' ∨ ¬ EndsEmpty m A ∧ m' = m₁)

theorem Walked.step {m₁ : Mem} {free₁ : ℕ → Prop} {b₁ b' : LinkedBuffer} {B : List ℕ} (h : Walked P e m₁ free₁ b₁ B m' free' b')
    (hex : Exchange P m free (b.held ++ A) m₁ free₁ (b₁.held ++ B)) (hslots : ∀ a ∈ b.held ++ A, ∃ d, P.Slot d a)
    (hend : EndsEmpty m₁ B ↔ EndsEmpty m A) : Walked P e m free b A m' free' b' := by
  obtain ⟨m₂, hb₂, hex', hcase⟩ := h
  rw [hend] at hcase
  exact ⟨m₂, hb₂, hex.trans hslots hex', hcase⟩

theorem moveChain_moves {fuel : ℕ} (hb : Base P e m free b) (hlen : b.len = sizeOf b.sliceList) (hc : Chain P m off A) (hnd : A.Nodup)
    (hown : ∀ a ∈ A, ¬ free a ∧ a ∉ b.held) (hfuel : A.length ≤ fuel) :
    ∃ m' free' b', moveChain P.manager fuel m b off = some (m', b') ∧ Moved P e m free b A (chainBytes m A) m' free' b' ∧
      Grown b b' (dataViews m A) ∧ Walked P e m free b A m' free' b' := by
  induction A generalizing m free b off fuel with
  | nil => cases hc
  | cons a A ih =>
    obtain ⟨fuel, rfl⟩ : ∃ k, fuel = k + 1 := ⟨fuel - 1, by simp only [List.length_cons] at hfuel; omega⟩
    obtain rfl : off = a := by cases hc <;> rfl
    have hr : ∀ x ∈ off :: A, Readable P m x := fun x hx => hc.readable hx
    obtain ⟨hok, hsizeOf⟩ := slotView_ok hb.holds.pool (hr off List.mem_cons_self)
    have hread : P.manager.readBufferSlice m off = .ok (slotView m off) :=
      readBufferSlice_slot hb.holds.pool (hok.refers rfl).1.slot
    have hbytes : chainBytes m (off :: A) = (slotView m off).unread m ++ chainBytes m A := List.flatMap_cons
    have hslots : ∀ x ∈ b.held ++ off :: A, ∃ d, P.Slot d x := by
      intro x hx
      rcases List.mem_append.mp hx with hx | hx
      · exact hb.slots x hx
      · obtain ⟨d, hd, -⟩ := hr x hx
        exact ⟨d, hd⟩
    rw [moveChain_eq hread rfl, hbytes]
    by_cases hsize : (slotView m off).size = 0
    · -- an empty slot is skipped
      rw [if_pos hsize]
      have hempty : (slotView m off).unread m = [] := by rw [← List.length_eq_zero_iff, hok.unread_length, hsize]
      obtain ⟨free₁, hb₁, hown₁, hsame, hex⟩ := recycle_head hb hr hnd hown
      have ht := hex.trade fun x hx => (List.mem_append.mp hx).elim (hb₁.holds.owned x) (hown₁ x)
      have hunread₁ := hb.unread_untouched (hsame.mono fun x hx => List.mem_append_left _ hx)
      have hsameA := hsame.mono fun x (hx : x ∈ A) => List.mem_append_right _ hx
      have hbytes₁ := chainBytes_congr hb.holds.pool (fun x hx => hr x (List.mem_cons_of_mem off hx)) hsameA
      have hviews : dataViews m (off :: A) = dataViews m A := by
        rw [dataViews, List.filter_cons_of_neg (by simpa using hsizeOf.symm.trans hsize), dataViews]
      rw [hempty, hviews, ← dataViews_congr (fun x hx => hr x (List.mem_cons_of_mem off hx)) hsameA]
      cases hc with
      | last _ hn =>
        obtain ⟨hb', hunread', ht'⟩ := clearBack_trade hb₁
        rw [hn, if_neg Bool.false_ne_true]
        refine ⟨_, free₁, b, rfl, ⟨hb', hlen, .inl rfl, ?_, ht.trans (ht'.congr (fun x => by simp) fun x => Iff.rfl)⟩, .refl b, _, hb₁,
          hex.congr fun x => by simp, .inl ⟨endsEmpty_singleton.mpr (hsizeOf.symm.trans hsize), rfl⟩⟩
        rw [hunread', hunread₁]
        exact (List.append_nil _).symm
      | cons _ hn hc =>
        rw [if_pos hn]
        have hend := (endsEmpty_congr (fun x hx => hr x (List.mem_cons_of_mem off hx)) hsameA).trans
          (endsEmpty_cons (a := off) hc.ne_nil).symm
        obtain ⟨m', free', b', hmove, hmoved, hgrown, hwalked⟩ := ih hb₁ hlen (hc.congr hsameA) (List.nodup_cons.mp hnd).2
          (fun x hx => ⟨hown₁ x hx, (hown x (List.mem_cons_of_mem off hx)).2⟩)
          (by simpa using hfuel)
        rw [hbytes₁] at hmoved
        refine ⟨m', free', b', hmove, hmoved.step (.inl rfl) ?_ ht, hgrown, hwalked.step hex hslots hend⟩
        rw [hunread₁, List.append_nil]
    · rw [if_neg hsize]
      obtain ⟨hb₁, hunread₁, hmem, hex⟩ := append_head hb (hr off List.mem_cons_self) hown
      have ht := hex.trade fun x hx =>
        (List.mem_append.mp hx).elim (hb₁.holds.owned x) fun hx => (hown x (List.mem_cons_of_mem off hx)).1
      have hback : (b.appendBufferSlice (slotView m off)).write = (b.appendBufferSlice (slotView m off)).back := rfl
      have hviews : dataViews m (off :: A) = [slotView m off] ++ dataViews m A := by
        rw [dataViews, List.filter_cons_of_pos (by simpa using hsizeOf ▸ hsize), dataViews, List.map_cons, List.singleton_append]
      have hgrown₁ : Grown b (b.appendBufferSlice (slotView m off)) [slotView m off] := .append b rfl
      rw [hviews]
      cases hc with
      | last _ hn =>
        rw [hn, if_neg Bool.false_ne_true]
        refine ⟨m, free, _, rfl,
          ⟨hb₁, appendBufferSlice_len hlen, .inr hback, ?_, ht.congr (fun x => Iff.rfl) fun x => by simp⟩, hgrown₁, m, hb₁,
          hex.congr fun x => by simp, .inr ⟨fun h => hsize (hsizeOf.trans (endsEmpty_singleton.mp h)), rfl⟩⟩
        rw [hunread₁]
        simp [chainBytes]
      | cons _ hn hc =>
        rw [if_pos hn]
        have hend := (endsEmpty_cons (m := m) (a := off) hc.ne_nil).symm
        obtain ⟨m', free', b', hmove, hmoved, hgrown, hwalked⟩ := ih hb₁ (appendBufferSlice_len hlen) hc (List.nodup_cons.mp hnd).2
          (by
            intro x hx
            obtain ⟨hf, hb⟩ := hown x (List.mem_cons_of_mem off hx)
            refine ⟨hf, ?_⟩
            rw [hmem]
            rintro (hx' | rfl)
            · exact hb hx'
            · exact (List.nodup_cons.mp hnd).1 hx)
          (by simpa using hfuel)
        exact ⟨m', free', b', hmove, hmoved.step (.inr hback) hunread₁ ht, hgrown₁.trans hgrown, hwalked.step hex hslots hend⟩

end Stream

end Shmipc
