import Shmipc.SharedQueue

/-!
The accesses of a put and of a pop when the other process may write anything into the queue: each load of the
head or of the tail returns whatever is there at that moment.
-/

namespace Shmipc.SharedQueue

open ByteMemory

variable {arch : Arch} {q : View} {m : Mem} {size : ℕ} {qm : QueueManager}

def I64 (z : ℤ) : Prop := -9223372036854775808 ≤ z ∧ z < 9223372036854775808

instance (z : ℤ) : Decidable (I64 z) := inferInstanceAs (Decidable (_ ∧ _))

def wrap64 (z : ℤ) : ℤ := (z + 9223372036854775808) % 18446744073709551616 - 9223372036854775808

structure Range where
  addr : ℤ
  width : ℤ

def headRange (arch : Arch) (q : View) : Range := ⟨q.data + arch.head, 8⟩

def tailRange (arch : Arch) (q : View) : Range := ⟨q.data + arch.tail, 8⟩

/-- The address of the slot of a counter; there is none for the capacity zero, by which the code divides. -/
def slotAddress (q : View) (counter : ℤ) : Option ℤ :=
  if q.cap = 0 then none
  else some (q.data + kQueueHeaderLength + counter.tmod q.cap * kQueueElementLen)

def slotRanges (a : ℤ) : List Range := [⟨a, 4⟩, ⟨a + 4, 4⟩, ⟨a + 8, 4⟩]

/-- What `put` reads and writes; `tail` and `head` are loaded for the comparison, `tail'` for the slot. -/
def putRanges (arch : Arch) (q : View) (tail head tail' : ℤ) : Option (List Range) :=
  if wrap64 (tail - head) ≥ q.cap then some [tailRange arch q, headRange arch q]
  else (slotAddress q tail').map fun a =>
    [tailRange arch q, headRange arch q, tailRange arch q] ++ slotRanges a ++ [tailRange arch q, tailRange arch q]

def popRanges (arch : Arch) (q : View) (head tail head' : ℤ) : Option (List Range) :=
  if head ≥ tail then some [headRange arch q, tailRange arch q]
  else (slotAddress q head').map fun a =>
    [headRange arch q, tailRange arch q, headRange arch q] ++ slotRanges a ++ [headRange arch q, headRange arch q]

def Stays (lo hi : ℤ) : Option (List Range) → Prop
  | none => False
  | some rs => ∀ r ∈ rs, lo ≤ r.addr ∧ r.addr + r.width ≤ hi

def Confined (arch : Arch) (q : View) (lo hi : ℤ) : Prop :=
  ∀ x y z, I64 x → I64 y → I64 z → Stays lo hi (putRanges arch q x y z) ∧ Stays lo hi (popRanges arch q x y z)

/-- A ring of at most three slots that fits: a negative remainder still lands in the header. -/
def Room (cap : ℤ) (len : ℤ) : Prop := 1 ≤ cap ∧ cap ≤ 3 ∧ kQueueHeaderLength + kQueueElementLen * cap ≤ len

theorem slotAddress_bounds (hroom : 1 ≤ q.cap) (hcap : q.cap ≤ 3) (c : ℤ) :
    ∃ a, slotAddress q c = some a ∧ q.data ≤ a ∧ a + 12 ≤ q.data + 24 + 12 * q.cap := by
  have hlt := Int.tmod_lt_of_pos c (show 0 < q.cap by omega)
  have hgt := Int.lt_tmod_of_pos c (show 0 < q.cap by omega)
  refine ⟨_, if_neg (by omega), ?_, ?_⟩
  · simp only [kQueueHeaderLength, kQueueElementLen]
    omega
  · simp only [kQueueHeaderLength, kQueueElementLen]
    omega

theorem stays_slot {lo hi a : ℤ} {rs : List Range} (hrs : ∀ r ∈ rs, lo ≤ r.addr ∧ r.addr + r.width ≤ hi) (hlo : lo ≤ a)
    (hhi : a + 12 ≤ hi) {ss : List Range} (hss : ∀ r ∈ ss, lo ≤ r.addr ∧ r.addr + r.width ≤ hi) :
    Stays lo hi (some (rs ++ slotRanges a ++ ss)) := by
  intro r hr
  rw [List.mem_append, List.mem_append] at hr
  rcases hr with (hr | hr) | hr
  · exact hrs r hr
  · simp only [slotRanges, List.mem_cons, List.not_mem_nil, or_false] at hr
    rcases hr with rfl | rfl | rfl <;> constructor <;> simp only <;> omega
  · exact hss r hr

theorem counters_inside (arch : Arch) (q : View) : ∀ r ∈ [tailRange arch q, headRange arch q],
    (q.data : ℤ) ≤ r.addr ∧ r.addr + r.width ≤ q.data + 24 := by
  intro r hr
  simp only [List.mem_cons, List.not_mem_nil, or_false] at hr
  rcases hr with rfl | rfl <;> cases arch <;> simp only [tailRange, headRange, Arch.tail, Arch.head] <;> omega

theorem confined_of_room {len : ℤ} (h : Room q.cap len) : Confined arch q q.data (q.data + len) := by
  obtain ⟨hone, hthree, hfit⟩ := h
  simp only [kQueueHeaderLength, kQueueElementLen] at hfit
  have htail : (q.data : ℤ) ≤ (tailRange arch q).addr ∧ (tailRange arch q).addr + (tailRange arch q).width ≤ q.data + len := by
    have := counters_inside arch q (tailRange arch q) (by simp)
    omega
  have hhead : (q.data : ℤ) ≤ (headRange arch q).addr ∧ (headRange arch q).addr + (headRange arch q).width ≤ q.data + len := by
    have := counters_inside arch q (headRange arch q) (by simp)
    omega
  intro x y z _ _ _
  obtain ⟨a, ha, hlow, hhigh⟩ := slotAddress_bounds hone hthree z
  constructor
  · rw [putRanges]
    split_ifs
    · simp [Stays, htail, hhead]
    · rw [ha, Option.map_some]
      apply stays_slot _ hlow (by omega)
      · simp [htail]
      · simp [htail, hhead]
  · rw [popRanges]
    split_ifs
    · simp [Stays, htail, hhead]
    · rw [ha, Option.map_some]
      apply stays_slot _ hlow (by omega)
      · simp [hhead]
      · simp [htail, hhead]

theorem Confined.slot {lo hi : ℤ} (h : Confined arch q lo hi) (tail head : ℤ) (htail : I64 tail) (hhead : I64 head)
    (hroom : tail - head < q.cap) (hsmall : I64 (tail - head)) :
    ∃ a, slotAddress q tail = some a ∧ lo ≤ a ∧ a + 12 ≤ hi := by
  have hput := (h tail head tail htail hhead htail).1
  have hwrap : wrap64 (tail - head) = tail - head := by
    rw [wrap64]
    obtain ⟨hl, hh⟩ := hsmall
    omega
  rw [putRanges, hwrap, if_neg (not_le.mpr hroom)] at hput
  cases ha : slotAddress q tail with
  | none =>
    rw [ha] at hput
    exact hput.elim
  | some a =>
    rw [ha, Option.map_some] at hput
    have hfirst := hput ⟨a, 4⟩ (by simp [slotRanges])
    have hlast := hput ⟨a + 8, 4⟩ (by simp [slotRanges])
    simp only at hfirst hlast
    exact ⟨a, rfl, hfirst.1, by omega⟩

theorem room_of_confined {len : ℤ} (hcap : 0 ≤ q.cap) (hlt : q.cap < 4294967296) (h : Confined arch q q.data (q.data + len)) :
    Room q.cap len := by
  have hpos : q.cap ≠ 0 := by
    intro hzero
    obtain ⟨a, ha, -⟩ := h.slot 0 1 (by decide) (by decide) (by omega) (by decide)
    rw [slotAddress, if_pos hzero] at ha
    cases ha
  have hthree : q.cap ≤ 3 := by
    by_contra hlarge
    have hneg : (-3 : ℤ).tmod q.cap = -3 := by
      rw [Int.neg_tmod, Int.tmod_eq_of_lt (by omega) (by omega)]
    obtain ⟨a, ha, hlo, -⟩ := h.slot (-3) 0 (by decide) (by decide) (by omega) (by decide)
    rw [slotAddress, if_neg hpos, hneg] at ha
    cases ha
    simp only [kQueueHeaderLength, kQueueElementLen] at hlo
    omega
  have hlast : (q.cap - 1).tmod q.cap = q.cap - 1 := Int.tmod_eq_of_lt (by omega) (by omega)
  obtain ⟨a, ha, -, hhi⟩ := h.slot (q.cap - 1) (q.cap - 1) ⟨by omega, by omega⟩ ⟨by omega, by omega⟩
    (by omega) ⟨by omega, by omega⟩
  rw [slotAddress, if_neg hpos, hlast] at ha
  cases ha
  refine ⟨by omega, hthree, ?_⟩
  simp only [kQueueHeaderLength, kQueueElementLen] at hhi ⊢
  omega

theorem confined_iff_room {len : ℤ} (hcap : 0 ≤ q.cap) (hlt : q.cap < 4294967296) :
    Confined arch q q.data (q.data + len) ↔ Room q.cap len := ⟨room_of_confined hcap hlt, confined_of_room⟩

theorem mapped_queues_confined (h : mapping arch m size = .ok qm) :
    (Confined arch qm.sendQueue ((size / 2 : ℕ) : ℤ) size ∧ Confined arch qm.recvQueue 0 ((size / 2 : ℕ) : ℤ)) ↔
      Room (load32 m (size / 2)) ((size - size / 2 : ℕ) : ℤ) ∧ Room (load32 m 0) ((size / 2 : ℕ) : ℤ) := by
  have hqm : qm = ⟨mappingFromBytes m (size / 2), mappingFromBytes m 0⟩ := by
    rw [mapping] at h
    split_ifs at h
    exact (Except.ok.inj h).symm
  have hlt (data : ℕ) : 0 ≤ (mappingFromBytes m data).cap ∧ (mappingFromBytes m data).cap < 4294967296 :=
    ⟨Int.natCast_nonneg _, Int.ofNat_lt.mpr (load32_lt m data)⟩
  have hsend : Confined arch (mappingFromBytes m (size / 2)) _ (_ + ((size - size / 2 : ℕ) : ℤ)) ↔ _ :=
    confined_iff_room (hlt _).1 (hlt _).2
  have hrecv : Confined arch (mappingFromBytes m 0) _ (_ + ((size / 2 : ℕ) : ℤ)) ↔ _ := confined_iff_room (hlt _).1 (hlt _).2
  have hhalf : (((size / 2 : ℕ) : ℤ) + ((size - size / 2 : ℕ) : ℤ)) = size := by omega
  simp only [mappingFromBytes, Nat.cast_zero, zero_add, hhalf] at hsend hrecv
  rw [hqm]
  exact and_congr hsend hrecv

def twoHeaders (cap : ℕ) : Mem := store32 (store32 ⟨fun _ => 0⟩ 0 cap) 60 cap

theorem twoHeaders_words {cap : ℕ} (h : cap < 4294967296) : load32 (twoHeaders cap) 60 = cap ∧ load32 (twoHeaders cap) 0 = cap := by
  constructor
  · exact load32_store32_of_lt _ 60 h
  · rw [twoHeaders, load32_store32_of_disjoint _ _ (by omega), load32_store32_of_lt _ 0 h]

theorem twoHeaders_mapping (cap : ℕ) : mapping .x86 (twoHeaders cap) 120 =
    .ok ⟨mappingFromBytes (twoHeaders cap) 60, mappingFromBytes (twoHeaders cap) 0⟩ := if_neg nofun

theorem mapped_queues_confined_three : ∃ qm, mapping .x86 (twoHeaders 3) 120 = .ok qm ∧ Confined .x86 qm.sendQueue 60 120 ∧
    Confined .x86 qm.recvQueue 0 60 := by
  obtain ⟨hsend, hrecv⟩ := @twoHeaders_words 3 (by decide)
  have hroom : Room (load32 (twoHeaders 3) 60) 60 ∧ Room (load32 (twoHeaders 3) 0) 60 := by
    rw [hsend, hrecv]
    exact ⟨⟨by decide, by decide, by decide⟩, by decide, by decide, by decide⟩
  exact ⟨_, twoHeaders_mapping 3, (mapped_queues_confined (twoHeaders_mapping 3)).mpr hroom⟩

-- a put at counter 99 goes to byte 1212 of a half of sixty bytes; one with the tail behind the head divides by zero
theorem mapped_queues_leave :
    (∃ qm, mapping .x86 (twoHeaders 100) 120 = .ok qm ∧ ¬ Stays 60 120 (putRanges .x86 qm.sendQueue 99 99 99)) ∧
    ∃ qm, mapping .x86 (twoHeaders 0) 120 = .ok qm ∧ putRanges .x86 qm.sendQueue 0 1 0 = none := by
  have hcap (cap : ℕ) (h : cap < 4294967296) : mappingFromBytes (twoHeaders cap) 60 = ⟨60, cap⟩ := by
    rw [mappingFromBytes, (twoHeaders_words h).1]
  constructor
  · refine ⟨_, twoHeaders_mapping 100, ?_⟩
    simp only [hcap 100 (by decide)]
    intro hstays
    have hslot : (⟨60 + 24 + 99 * 12, 4⟩ : Range) ∈ [tailRange .x86 ⟨60, 100⟩, headRange .x86 ⟨60, 100⟩, tailRange .x86 ⟨60, 100⟩] ++
        slotRanges (60 + 24 + 99 * 12) ++ [tailRange .x86 ⟨60, 100⟩, tailRange .x86 ⟨60, 100⟩] := by simp [slotRanges]
    have hhigh := (hstays _ hslot).2
    exact absurd hhigh (by decide)
  · refine ⟨_, twoHeaders_mapping 0, ?_⟩
    simp only [hcap 0 (by decide)]
    rfl

end Shmipc.SharedQueue
