import Shmipc.Pool

namespace Shmipc

open ByteMemory

namespace Storage

theorem load_add (m : Mem) (data : Storage) (off i j : ℕ) :
    data.load m off (i + j) = data.load m off i ++ data.load m (off + i) j := by
  cases data with
  | shm a => rw [load, load, load, loadBytes_add, Nat.add_assoc]
  | heap bs => rw [load, load, load, List.take_add, List.drop_drop]

theorem load_zero (m : Mem) (data : Storage) (off : ℕ) : data.load m off 0 = [] := by
  cases data with
  | shm a => rfl
  | heap bs => rw [load, List.take_zero]

end Storage

structure SliceOk (P : Pool) (s : BufferSlice) : Prop where
  read_le : s.readIndex ≤ s.writeIndex
  write_le : s.writeIndex ≤ s.cap
  backed : (∃ a, P.Refers s a ∧ s.data = .shm (a + kBufferHeaderSize)) ∨
    (s.bufferHeader = none ∧ s.isFromShm = false ∧ ∃ bs, s.data = .heap bs ∧ bs.length = s.cap)

namespace BufferSlice

def unread (m : Mem) (s : BufferSlice) : List UInt8 := s.data.load m s.readIndex s.size

def WritesData (s : BufferSlice) (m m' : Mem) : Prop :=
  ∀ lo hi, (∀ a, s.bufferHeader = some a → a + (s.cap + 20) ≤ lo ∨ hi ≤ a + 20) → SameOn m m' lo hi

structure WritesSlot (s : BufferSlice) (m m' : Mem) : Prop where
  outside : ∀ lo hi, (∀ a, s.bufferHeader = some a → a + (s.cap + 20) ≤ lo ∨ hi ≤ a) → SameOn m m' lo hi
  cap : ∀ a, s.bufferHeader = some a → BufferHeader.cap m' a = BufferHeader.cap m a

theorem WritesData.header {s : BufferSlice} {m m' : Mem} {a : ℕ} (h : s.WritesData m m')
    (ha : s.bufferHeader = some a) : SameOn m m' a (a + 20) := by
  apply h
  intro b hb
  rw [ha] at hb
  cases hb
  omega

theorem WritesData.slot {s : BufferSlice} {m m' : Mem} (h : s.WritesData m m') : s.WritesSlot m m' where
  outside lo hi hout := h lo hi fun a ha => by
    have := hout a ha
    omega
  cap a ha := BufferHeader.cap_congr (h.header ha)

theorem WritesSlot.refl (s : BufferSlice) (m : Mem) : s.WritesSlot m m where
  outside _ _ _ := .refl _ _ _
  cap _ _ := rfl

end BufferSlice

namespace SliceOk

variable {P : Pool} {s : BufferSlice} {m m' : Mem} {a n : ℕ} {bs : List UInt8}

theorem size_eq (h : SliceOk P s) : s.size = s.writeIndex - s.readIndex := usub_of_le h.read_le

theorem remain_eq (h : SliceOk P s) : s.remain = s.cap - s.writeIndex := usub_of_le h.write_le

theorem refers (h : SliceOk P s) (ha : s.bufferHeader = some a) :
    P.Refers s a ∧ s.data = .shm (a + kBufferHeaderSize) := by
  rcases h.backed with ⟨b, hb, hd⟩ | ⟨hn, -⟩
  · rw [hb.header, Option.some.injEq] at ha
    exact ha ▸ ⟨hb, hd⟩
  · rw [hn] at ha
    cases ha

theorem of_isFromShm (h : SliceOk P s) (hs : s.isFromShm = true) : ∃ a, P.Refers s a := by
  rcases h.backed with ⟨a, ha, -⟩ | ⟨-, hf, -⟩
  · exact ⟨a, ha⟩
  · rw [hf] at hs
    cases hs

theorem size_le (h : SliceOk P s) : s.readIndex + s.size ≤ s.cap := by
  have h1 := h.size_eq
  have h2 := h.read_le
  have h3 := h.write_le
  omega

theorem load_length {off : ℕ} (h : SliceOk P s) (m : Mem) (hle : off + n ≤ s.cap) : (s.data.load m off n).length = n := by
  rcases h.backed with ⟨a, -, hd⟩ | ⟨-, -, bs, hd, hlen⟩
  · rw [hd, Storage.load, loadBytes_length]
  · rw [hd, Storage.load, List.length_take, List.length_drop, hlen]
    omega

theorem unread_length (h : SliceOk P s) (m : Mem) : (s.unread m).length = s.size := h.load_length m h.size_le

theorem load_of_data {off : ℕ} (h : SliceOk P s) (hle : off + n ≤ s.cap)
    (hs : ∀ a, s.bufferHeader = some a → SameOn m m' (a + 20) (a + (s.cap + 20))) : s.data.load m' off n = s.data.load m off n := by
  rcases h.backed with ⟨a, ha, hd⟩ | ⟨-, -, bs, hd, -⟩
  · simp only [hd, Storage.load, kBufferHeaderSize_eq]
    exact loadBytes_congr ((hs a ha.header).mono (by omega) (by omega))
  · simp only [hd, Storage.load]

theorem unread_of_data (h : SliceOk P s)
    (hs : ∀ a, s.bufferHeader = some a → SameOn m m' (a + 20) (a + (s.cap + 20))) : s.unread m' = s.unread m :=
  h.load_of_data h.size_le hs

theorem unread_congr (h : SliceOk P s)
    (hs : ∀ a, s.bufferHeader = some a → SameOn m m' a (a + (s.cap + 20))) : s.unread m' = s.unread m :=
  h.unread_of_data fun a ha => (hs a ha).mono (by omega) le_rfl

theorem frame {d x : ℕ} (h : SliceOk P s) (hw : s.WritesSlot m m') (hx : P.Slot d x) (hne : s.bufferHeader ≠ some x) :
    SameOn m m' x (x + (d + 20)) := by
  apply hw.outside
  intro a ha
  have hapart := (h.refers ha).1.slot.apart hx fun he => hne (he ▸ ha)
  omega

theorem free {e : Bool} {free : ℕ → Prop} (h : SliceOk P s) (hw : s.WritesSlot m m') (hf : P.Free e m free)
    (hown : ∀ a, s.bufferHeader = some a → ¬ free a) : P.Free e m' free := by
  cases hh : s.bufferHeader with
  | none =>
    have hm : m' = m := Mem.ext (funext fun x => hw.outside x (x + 1) (by simp [hh]) x le_rfl (by omega))
    exact hm ▸ hf
  | some a =>
    refine hf.write (h.refers hh).1.slot (hown a hh) ?_ (hw.cap a hh)
    intro lo hi hout
    apply hw.outside
    intro b hb
    rw [hh] at hb
    cases hb
    exact hout

theorem fresh (ha : P.Slot n a) : SliceOk P (freshSlice n a) where
  read_le := le_rfl
  write_le := Nat.zero_le _
  backed := .inl ⟨a, ⟨rfl, rfl, rfl, ha⟩, rfl⟩

theorem fromHeap (h : bs.length < 4294967296) : SliceOk P (.fromHeap bs) where
  read_le := le_rfl
  write_le := Nat.zero_le _
  backed := .inr ⟨rfl, rfl, bs, rfl, (Nat.mod_eq_of_lt h).symm⟩

theorem consume (h : SliceOk P s) (hn : n ≤ s.size) :
    SliceOk P { s with readIndex := s.readIndex + n } ∧
    { s with readIndex := s.readIndex + n }.size = s.size - n ∧
    s.data.load m s.readIndex n = (s.unread m).take n ∧
    { s with readIndex := s.readIndex + n }.unread m = (s.unread m).drop n := by
  have h1 := h.size_eq
  have h2 := h.read_le
  have hok : SliceOk P { s with readIndex := s.readIndex + n } := by
    refine ⟨?_, h.write_le, ?_⟩
    · change s.readIndex + n ≤ s.writeIndex
      omega
    · rcases h.backed with ⟨a, ha, hd⟩ | hb
      · exact .inl ⟨a, ⟨ha.header, ha.shm, ha.offset, ha.slot⟩, hd⟩
      · exact .inr hb
  have hsize : { s with readIndex := s.readIndex + n }.size = s.size - n := by
    rw [hok.size_eq, h1]
    change s.writeIndex - (s.readIndex + n) = _
    omega
  have hsplit : s.unread m = s.data.load m s.readIndex n ++ s.data.load m (s.readIndex + n) (s.size - n) := by
    rw [← Storage.load_add, Nat.add_sub_cancel' hn]
    rfl
  have hlen : (s.data.load m s.readIndex n).length = n := by
    have htotal := congrArg List.length hsplit
    rw [h.unread_length, List.length_append] at htotal
    have hrest : { s with readIndex := s.readIndex + n }.unread m =
        s.data.load m (s.readIndex + n) (s.size - n) := by
      rw [BufferSlice.unread, hsize]
    rw [← hrest, hok.unread_length, hsize] at htotal
    omega
  refine ⟨hok, hsize, ?_, ?_⟩
  · rw [hsplit, List.take_left' hlen]
  · rw [hsplit, List.drop_left' hlen, BufferSlice.unread, hsize]

theorem reserve (h : SliceOk P s) (hn : n ≤ s.remain) : SliceOk P { s with writeIndex := s.writeIndex + n } := by
  have h1 := h.write_le
  have h2 := h.remain_eq
  refine ⟨Nat.le_add_right_of_le h.read_le, ?_, ?_⟩
  · change s.writeIndex + n ≤ s.cap
    omega
  · rcases h.backed with ⟨a, ha, hd⟩ | hb
    · exact .inl ⟨a, ⟨ha.header, ha.shm, ha.offset, ha.slot⟩, hd⟩
    · exact .inr hb

theorem reset (h : SliceOk P s) : SliceOk P (s.reset m).2 ∧ (s.reset m).2.size = 0 ∧ s.WritesSlot m (s.reset m).1 ∧
    ∀ a, s.bufferHeader = some a → BufferHeader.isInUsed (s.reset m).1 a = false := by
  refine ⟨⟨le_rfl, Nat.zero_le _, ?_⟩, rfl, ?_, ?_⟩
  · rcases h.backed with ⟨a, ha, hd⟩ | hb
    · exact .inl ⟨a, ⟨ha.header, ha.shm, ha.offset, ha.slot⟩, hd⟩
    · exact .inr hb
  · cases hh : s.bufferHeader with
    | none =>
      simp only [BufferSlice.reset, hh]
      exact .refl s m
    | some a =>
      simp only [BufferSlice.reset, hh]
      refine ⟨fun lo hi hout => ?_, fun b hb => ?_⟩
      · have := hout a hh
        have hoff : a + 20 ≤ lo ∨ hi ≤ a := by omega
        exact ((BufferHeader.sameOn_setSize m a 0 hoff).trans (BufferHeader.sameOn_setStart _ a 0 hoff)).trans
          (BufferHeader.sameOn_clearFlag _ a hoff)
      · rw [hh] at hb
        cases hb
        simp
  · intro a ha
    simp [BufferSlice.reset, ha]

-- `update` writes the header of the slot only
theorem sameOn_update {lo hi : ℕ} (s : BufferSlice) (next : Option ℕ)
    (hout : ∀ a, s.bufferHeader = some a → a + 20 ≤ lo ∨ hi ≤ a) : SameOn m (s.update m next) lo hi := by
  cases hh : s.bufferHeader with
  | none =>
    simp only [BufferSlice.update, hh]
    exact .refl _ _ _
  | some a =>
    have hoff := hout a hh
    have hfields := (BufferHeader.sameOn_setSize m a s.size hoff).trans (BufferHeader.sameOn_setStart _ a s.start hoff)
    cases next with
    | none => simpa only [BufferSlice.update, hh] using hfields
    | some off =>
      simp only [BufferSlice.update, hh]
      exact hfields.trans (BufferHeader.sameOn_linkNext _ a off hoff)

theorem update (h : SliceOk P s) (next : Option ℕ) : s.WritesSlot m (s.update m next) ∧
    s.unread (s.update m next) = s.unread m ∧
    ∀ a, s.bufferHeader = some a → BufferHeader.isInUsed (s.update m next) a = BufferHeader.isInUsed m a := by
  refine ⟨⟨fun lo hi hout => ?_, fun a ha => ?_⟩, ?_, fun a ha => ?_⟩
  · apply sameOn_update
    intro a ha
    have := hout a ha
    omega
  · cases next <;> simp [BufferSlice.update, ha]
  · apply h.unread_of_data
    intro a ha
    apply sameOn_update
    intro x hx
    rw [ha] at hx
    cases hx
    exact .inl le_rfl
  · cases next <;> simp [BufferSlice.update, ha]

theorem extend (h : SliceOk P s) (hbs : bs.length ≤ s.remain) {data : Storage}
    (hd : s.data.store m s.writeIndex bs = (m', data)) :
    SliceOk P { s with data := data, writeIndex := s.writeIndex + bs.length } ∧
    { s with data := data, writeIndex := s.writeIndex + bs.length }.unread m' = s.unread m ++ bs ∧
    s.WritesData m m' := by
  have h1 := h.size_eq
  have h2 := h.read_le
  have h3 := h.write_le
  have h4 := h.remain_eq
  have hroom : s.writeIndex + bs.length ≤ s.cap := by omega
  rcases h.backed with ⟨a, ha, hs⟩ | ⟨hh, hf, cs, hs, hlen⟩
  · rw [hs, Storage.store, Prod.mk.injEq] at hd
    obtain ⟨rfl, rfl⟩ := hd
    have hok : SliceOk P { s with data := .shm (a + kBufferHeaderSize),
                                  writeIndex := s.writeIndex + bs.length } :=
      ⟨Nat.le_add_right_of_le h2, hroom, .inl ⟨a, ⟨ha.header, ha.shm, ha.offset, ha.slot⟩, rfl⟩⟩
    refine ⟨hok, ?_, ?_⟩
    · have hsize := hok.size_eq
      have hsum : s.writeIndex + bs.length - s.readIndex = s.size + bs.length := by omega
      have hmid : a + kBufferHeaderSize + (s.readIndex + s.size) = a + kBufferHeaderSize + s.writeIndex := by
        omega
      simp only [hsum] at hsize
      rw [BufferSlice.unread, hsize, Storage.load_add, BufferSlice.unread, hs]
      simp only [Storage.load]
      rw [hmid, loadBytes_storeBytes_same, loadBytes_congr (sameOn_storeBytes m _ _ (by omega))]
    · intro lo hi hout
      have := hout a ha.header
      exact sameOn_storeBytes m _ _ (by rw [kBufferHeaderSize_eq]; omega)
  · rw [hs, Storage.store, Prod.mk.injEq] at hd
    obtain ⟨rfl, rfl⟩ := hd
    have hok : SliceOk P { s with data := .heap (cs.take s.writeIndex ++ bs ++ cs.drop (s.writeIndex + bs.length)),
                                  writeIndex := s.writeIndex + bs.length } := by
      refine ⟨Nat.le_add_right_of_le h2, hroom, .inr ⟨hh, hf, _, rfl, ?_⟩⟩
      simp only [List.length_append, List.length_take, List.length_drop]
      omega
    refine ⟨hok, ?_, fun _ _ _ => SameOn.refl _ _ _⟩
    have hsize := hok.size_eq
    have hsum : s.writeIndex + bs.length - s.readIndex = s.size + bs.length := by omega
    simp only [hsum] at hsize
    have hkept : (cs.take s.writeIndex).drop s.readIndex = (cs.drop s.readIndex).take s.size := by
      rw [List.drop_take, h1]
    have hlen1 : ((cs.take s.writeIndex).drop s.readIndex ++ bs).length = s.size + bs.length := by
      simp only [List.length_append, List.length_take, List.length_drop]
      omega
    rw [BufferSlice.unread, hsize, BufferSlice.unread, hs]
    simp only [Storage.load]
    rw [List.append_assoc, List.drop_append_of_le_length (by rw [List.length_take]; omega), ← List.append_assoc,
      List.take_left' hlen1, hkept]

end SliceOk

end Shmipc
