import Shmipc.SharedQueue

namespace Shmipc.SharedQueue

open ByteMemory Transition

variable {ι : Type} {arch : Arch} {data cap i : ℕ} {m m' : Mem} {d d' : Direction ι} {e : QueueElement}

def slot (data cap i : ℕ) : ℕ := data + kQueueHeaderLength + i % cap * kQueueElementLen

def Written (data cap : ℕ) (m : Mem) (i : ℕ) (e : QueueElement) : Prop :=
  load32 m (slot data cap i) = e.seqId ∧ load32 m (slot data cap i + 4) = e.offsetInShmBuf ∧
    load32 m (slot data cap i + 8) = e.status

def HasRoom (cap : ℕ) (d : Direction ι) : Prop := d.put.length < d.got.length + cap

def PutOk (data cap : ℕ) (m : Mem) (d : Direction ι) : Put → Prop
  | .idle => True
  | .compare _ e => Fits e
  | .compared true e tail => Fits e ∧ tail = d.put.length
  | .compared false e head => Fits e ∧ head ≤ d.got.length ∧ (d.atHead : ℤ) = d.put.length - head ∧ d.atHead ≤ cap
  | .offset e => Fits e ∧ HasRoom cap d
  | .seqId e off => Fits e ∧ HasRoom cap d ∧ off = d.put.length % cap * kQueueElementLen
  | .shmOffset e off => Fits e ∧ HasRoom cap d ∧ off = d.put.length % cap * kQueueElementLen ∧
      load32 m (slot data cap d.put.length) = e.seqId
  | .status e off => Fits e ∧ HasRoom cap d ∧ off = d.put.length % cap * kQueueElementLen ∧
      load32 m (slot data cap d.put.length) = e.seqId ∧
      load32 m (slot data cap d.put.length + 4) = e.offsetInShmBuf
  | .loadTail e => HasRoom cap d ∧ Written data cap m d.put.length e
  | .storeTail e tail => HasRoom cap d ∧ Written data cap m d.put.length e ∧ tail = d.put.length
  | .returned (.ok _) => True
  | .returned (.error err) => err = .ofKind .queueFull ∧ d.atHead = cap

def PopOk (cap : ℕ) (d : Direction ι) : Pop → Prop
  | .idle | .compare _ => True
  | .compared true head => head = d.got.length
  | .compared false tail => tail ≤ d.put.length
  | .offset => d.got.length < d.put.length
  | .seqId off => off = d.got.length % cap * kQueueElementLen ∧ d.got.length < d.put.length
  | .shmOffset off x => off = d.got.length % cap * kQueueElementLen ∧
      ∃ e, d.put[d.got.length]? = some e ∧ e.seqId = x
  | .status off x y => off = d.got.length % cap * kQueueElementLen ∧
      ∃ e, d.put[d.got.length]? = some e ∧ e.seqId = x ∧ e.offsetInShmBuf = y
  | .loadHead e => d.put[d.got.length]? = some e
  | .storeHead e head => d.put[d.got.length]? = some e ∧ head = d.got.length
  | .returned (.ok e) => d.got.getLast? = some e
  | .returned (.error err) => err = .ofKind .queueEmpty

structure RingOk (arch : Arch) (data cap : ℕ) (m : Mem) (d : Direction ι) : Prop where
  send : d.sendQueue = ⟨data, cap⟩
  recv : d.recvQueue = ⟨data, cap⟩
  head : loadI64 m (data + arch.head) = d.got.length
  tail : loadI64 m (data + arch.tail) = d.put.length
  got : d.got <+: d.put
  room : d.put.length ≤ d.got.length + cap
  cells : ∀ i e, d.got.length ≤ i → d.put[i]? = some e → Written data cap m i e
  holder : ∀ i, d.producer i = .idle ∨ d.lock = some i
  producer : ∀ i, PutOk data cap m d (d.producer i)
  consumer : PopOk cap d d.consumer

theorem queueOffset_eq (n cap : ℕ) : queueOffset n cap = n % cap * kQueueElementLen := by
  rw [queueOffset, Int.tmod_eq_emod_of_nonneg (Int.natCast_nonneg n)]
  norm_cast

theorem slot_le (data : ℕ) (hcap : 1 ≤ cap) (i : ℕ) :
    data + kQueueHeaderLength ≤ slot data cap i ∧ slot data cap i + kQueueElementLen ≤ data + countQueueMemSize cap := by
  have hlt := Nat.mod_lt i hcap
  simp only [slot, countQueueMemSize, kQueueHeaderLength, kQueueElementLen]
  omega

theorem counters_le (arch : Arch) :
    4 ≤ arch.head ∧ arch.head + 8 ≤ kQueueHeaderLength ∧ 4 ≤ arch.tail ∧ arch.tail + 8 ≤ kQueueHeaderLength ∧
      (arch.head + 8 ≤ arch.tail ∨ arch.tail + 8 ≤ arch.head) := by
  cases arch <;> decide

theorem Written.congr (h : Written data cap m i e)
    (hm : SameOn m m' (slot data cap i) (slot data cap i + kQueueElementLen)) : Written data cap m' i e := by
  simp only [kQueueElementLen] at hm
  obtain ⟨h0, h1, h2⟩ := h
  refine ⟨?_, ?_, ?_⟩
  · rwa [load32_congr (hm.mono (by omega) (by omega))]
  · rwa [load32_congr (hm.mono (by omega) (by omega))]
  · rwa [load32_congr (hm.mono (by omega) (by omega))]

theorem PutOk.mono {pc : Put} (h : PutOk data cap m d pc) (hput : d'.put = d.put)
    (hgot : d.got.length ≤ d'.got.length) (hat : d'.atHead = d.atHead)
    (hm : SameOn m m' (slot data cap d.put.length) (slot data cap d.put.length + kQueueElementLen)) :
    PutOk data cap m' d' pc := by
  have hroom : HasRoom cap d → HasRoom cap d' := by
    unfold HasRoom
    rw [hput]
    omega
  have hm' := hm
  simp only [kQueueElementLen] at hm'
  have h0 : load32 m' (slot data cap d.put.length) = load32 m (slot data cap d.put.length) :=
    load32_congr (hm'.mono (by omega) (by omega))
  have h4 : load32 m' (slot data cap d.put.length + 4) = load32 m (slot data cap d.put.length + 4) :=
    load32_congr (hm'.mono (by omega) (by omega))
  unfold PutOk at h ⊢
  split at h
  · trivial
  · exact h
  · rwa [hput]
  · rw [hput, hat]
    exact ⟨h.1, by omega, h.2.2⟩
  · exact ⟨h.1, hroom h.2⟩
  · rw [hput]
    exact ⟨h.1, hroom h.2.1, h.2.2⟩
  · rw [hput, h0]
    exact ⟨h.1, hroom h.2.1, h.2.2⟩
  · rw [hput, h0, h4]
    exact ⟨h.1, hroom h.2.1, h.2.2⟩
  · rw [hput]
    exact ⟨hroom h.1, h.2.congr hm⟩
  · rw [hput]
    exact ⟨hroom h.1, h.2.1.congr hm, h.2.2⟩
  · trivial
  · rwa [hat]

theorem PopOk.mono {pc : Pop} (h : PopOk cap d pc) (hput : d.put <+: d'.put) (hgot : d'.got = d.got) :
    PopOk cap d' pc := by
  have hlen := hput.length_le
  have hcell : ∀ e, d.put[d.got.length]? = some e → d'.put[d.got.length]? = some e := by
    obtain ⟨rest, hrest⟩ := hput
    intro e he
    rw [← hrest, List.getElem?_append_left (List.getElem?_eq_some_iff.mp he).1, he]
  unfold PopOk at h ⊢
  split at h
  · trivial
  · trivial
  · rwa [hgot]
  · omega
  · rw [hgot]
    omega
  · rw [hgot]
    exact ⟨h.1, by omega⟩
  · rw [hgot]
    obtain ⟨hoff, e, he, hx⟩ := h
    exact ⟨hoff, e, hcell e he, hx⟩
  · rw [hgot]
    obtain ⟨hoff, e, he, hxy⟩ := h
    exact ⟨hoff, e, hcell e he, hxy⟩
  · rw [hgot]
    exact hcell _ h
  · rw [hgot]
    exact ⟨hcell _ h.1, h.2⟩
  · rwa [hgot]
  · exact h

namespace RingOk

theorem congr (h : RingOk arch data cap m d) (hcap : 1 ≤ cap)
    (hm : SameOn m m' data (data + countQueueMemSize cap)) : RingOk arch data cap m' d := by
  obtain ⟨hh, hh', ht, ht', -⟩ := counters_le arch
  have hslot := slot_le data hcap
  refine { h with head := ?_, tail := ?_, cells := ?_, producer := ?_ }
  · rw [loadI64_congr (hm.mono (by omega) ?_), h.head]
    simp only [countQueueMemSize]
    omega
  · rw [loadI64_congr (hm.mono (by omega) ?_), h.tail]
    simp only [countQueueMemSize]
    omega
  · intro i e hi he
    exact (h.cells i e hi he).congr (hm.mono (by have := hslot i; omega) (hslot i).2)
  · intro i
    exact (h.producer i).mono rfl le_rfl rfl (hm.mono (by have := hslot d.put.length; omega) (hslot _).2)

def queue (h : RingOk arch data cap m d) : CircularQueue QueueElement where
  cap := cap
  head := d.got.length
  tail := d.put.length
  cells i := ⟨load32 m (data + kQueueHeaderLength + i * kQueueElementLen),
    load32 m (data + kQueueHeaderLength + i * kQueueElementLen + 4),
    load32 m (data + kQueueHeaderLength + i * kQueueElementLen + 8)⟩
  head_le := h.got.length_le
  room := h.room

theorem slot_disjoint (h : RingOk arch data cap m d) (hroom : HasRoom cap d) (hi : d.got.length ≤ i)
    (hlt : i < d.put.length) : slot data cap i + kQueueElementLen ≤ slot data cap d.put.length ∨
      slot data cap d.put.length + kQueueElementLen ≤ slot data cap i := by
  have hne := CircularQueue.mod_ne_tail (r := h.queue) (i := i - d.got.length) hroom (by simp only [queue]; omega)
  simp only [queue, Nat.add_sub_cancel' hi] at hne
  simp only [slot, kQueueElementLen]
  omega

theorem queue_contents (h : RingOk arch data cap m d) : h.queue.contents = d.put.drop d.got.length := by
  apply List.ext_getElem?
  intro k
  rw [List.getElem?_drop]
  simp only [CircularQueue.contents, queue, List.getElem?_map]
  by_cases hk : k < d.put.length - d.got.length
  · obtain ⟨e, he⟩ : ∃ e, d.put[d.got.length + k]? = some e := ⟨_, List.getElem?_eq_getElem (by omega)⟩
    obtain ⟨h0, h1, h2⟩ := h.cells _ e (by omega) he
    rw [List.getElem?_range hk, he, Option.map_some]
    simp only [slot] at h0 h1 h2
    rw [h0, h1, h2]
  · rw [List.getElem?_eq_none (by simpa using hk), List.getElem?_eq_none (by omega)]
    rfl

variable {j k : ι} {next : Put} {nextPop : Pop}

theorem others_idle (h : RingOk arch data cap m d) (hj : d.producer j ≠ .idle) (hk : k ≠ j) : d.producer k = .idle := by
  have hlock := (h.holder j).resolve_left hj
  apply (h.holder k).resolve_right
  intro hlock'
  exact hk (Option.some.inj (hlock'.symm.trans hlock))

theorem counters (h : RingOk arch data cap m d) (hcap : 1 ≤ cap)
    (hm : SameOn m m' data (slot data cap d.put.length)) :
    loadI64 m' (data + arch.head) = d.got.length ∧ loadI64 m' (data + arch.tail) = d.put.length := by
  obtain ⟨hh, hh', ht, ht', -⟩ := counters_le arch
  have hslot := slot_le data hcap d.put.length
  rw [loadI64_congr (hm.mono (by omega) (by omega)), loadI64_congr (hm.mono (by omega) (by omega))]
  exact ⟨h.head, h.tail⟩

theorem decide_ok {tail head : ℤ} {q : View} (hq : q.cap = cap) (he : Fits e)
    (hfull : tail - head ≥ cap → d.atHead = cap) (hroom : tail - head < cap → HasRoom cap d) :
    PutOk data cap m d (Put.decide q e tail head) := by
  unfold Put.decide
  split_ifs with hc
  · exact ⟨rfl, hfull (hq ▸ hc)⟩
  · exact ⟨he, hroom (by omega)⟩

-- an access of the pop that does not take the element is a load
theorem consume (h : RingOk arch data cap m d) (htakes : d.consumer.takes = []) (hok : PopOk cap d nextPop) :
    RingOk arch data cap m (d.consume nextPop) := by
  have hgot : (d.consume nextPop).got = d.got := by simp [Direction.consume, htakes]
  constructor
  · exact h.send
  · exact h.recv
  · rw [hgot]
    exact h.head
  · exact h.tail
  · rw [hgot]
    exact h.got
  · rw [hgot]
    exact h.room
  · rw [hgot]
    exact h.cells
  · exact h.holder
  · intro k
    exact (h.producer k).mono rfl (by rw [hgot]) rfl (.refl _ _ _)
  · exact hok.mono (List.prefix_refl _) hgot

theorem take (h : RingOk arch data cap m d) (hcap : 1 ≤ cap) (hsmall : d.put.length + 1 < 2 ^ 63)
    (hc : d.consumer = .storeHead e d.got.length) :
    RingOk arch data cap (storeI64 m (data + arch.head) (d.got.length + 1)) (d.consume (.returned (.ok e))) := by
  obtain ⟨hh, hh', ht, ht', hne⟩ := counters_le arch
  have hok := h.consumer
  rw [hc] at hok
  obtain ⟨he, -⟩ := hok
  have hlt := (List.getElem?_eq_some_iff.mp he).1
  have hgot : (d.consume (.returned (.ok e))).got = d.got ++ [e] := by simp [Direction.consume, hc, Pop.takes]
  have hcell : ∀ i, SameOn m (storeI64 m (data + arch.head) (d.got.length + 1)) (slot data cap i)
      (slot data cap i + kQueueElementLen) := by
    intro i
    have hslot := slot_le data hcap i
    exact sameOn_storeI64 _ _ _ (by omega)
  constructor
  · exact h.send
  · exact h.recv
  · rw [loadI64_storeI64_same _ _ (by omega) (by norm_num at hsmall; omega), hgot]
    simp
  · rw [loadI64_congr (sameOn_storeI64 _ _ _ (by omega)), h.tail]
    rfl
  · obtain ⟨rest, hrest⟩ := h.got
    rw [hgot]
    rw [← hrest, List.getElem?_append_right le_rfl, Nat.sub_self] at he
    obtain ⟨rest', rfl⟩ : ∃ rest', rest = e :: rest' := by
      cases rest with
      | nil => cases he
      | cons a rest' =>
        cases he
        exact ⟨rest', rfl⟩
    refine ⟨rest', ?_⟩
    rw [List.append_assoc]
    exact hrest
  · rw [hgot, List.length_append]
    have hroom := h.room
    exact hroom.trans (by omega)
  · intro i e' hi he'
    rw [hgot, List.length_append] at hi
    exact (h.cells i e' (by omega) he').congr (hcell i)
  · exact h.holder
  · intro k
    refine (h.producer k).mono rfl ?_ rfl (hcell _)
    rw [hgot, List.length_append]
    omega
  · simp only [Direction.consume, hc, Pop.takes, PopOk]
    exact List.getLast?_concat

theorem popDecide_ok {head tail : ℤ} (h : head < tail → d.got.length < d.put.length) :
    PopOk cap d (Pop.decide head tail) := by
  unfold Pop.decide
  split_ifs with hc
  · rfl
  · exact h (by omega)

theorem consume_step (h : RingOk arch data cap m d) (hcap : 1 ≤ cap) (hsmall : d.put.length + 1 < 2 ^ 63)
    {x : Access Pop} (hx : d.consumer.access arch d.recvQueue = some x) :
    RingOk arch data cap (x.exec m).1 (d.consume (x.exec m).2) := by
  have hok := h.consumer
  have hword : ∀ e, d.put[d.got.length]? = some e → Written data cap m d.got.length e :=
    fun e he => h.cells _ e le_rfl he
  rw [h.recv] at hx
  cases hp : d.consumer with
  | idle =>
    rw [hp] at hx
    cases hx
  | compare headFirst =>
    rw [hp] at hx
    cases headFirst <;> cases hx
    · exact h.consume (by rw [hp]; rfl) h.tail.le
    · exact h.consume (by rw [hp]; rfl) h.head
  | compared headFirst v =>
    rw [hp] at hx hok
    cases headFirst <;> cases hx
    · refine h.consume (by rw [hp]; rfl) (popDecide_ok ?_)
      rw [h.head]
      simp only [PopOk] at hok
      omega
    · refine h.consume (by rw [hp]; rfl) (popDecide_ok ?_)
      rw [h.tail]
      simp only [PopOk] at hok
      omega
  | offset =>
    rw [hp] at hx hok
    cases hx
    refine h.consume (by rw [hp]; rfl) ⟨?_, hok⟩
    rw [h.head]
    exact queueOffset_eq _ _
  | seqId off =>
    rw [hp] at hx hok
    cases hx
    obtain ⟨rfl, hlt⟩ := hok
    have he := List.getElem?_eq_getElem hlt
    exact h.consume (by rw [hp]; rfl) ⟨rfl, _, he, (hword _ he).1.symm⟩
  | shmOffset off x =>
    rw [hp] at hx hok
    cases hx
    obtain ⟨rfl, e, he, h0⟩ := hok
    exact h.consume (by rw [hp]; rfl) ⟨rfl, e, he, h0, (hword e he).2.1.symm⟩
  | status off x y =>
    rw [hp] at hx hok
    cases hx
    obtain ⟨rfl, e, he, rfl, rfl⟩ := hok
    have hz : load32 m (data + kQueueHeaderLength + (d.got.length % cap * kQueueElementLen + 8)) = e.status :=
      (hword e he).2.2
    refine h.consume (by rw [hp]; rfl) ?_
    simp only [Access.exec, PopOk, he, hz]
  | loadHead e =>
    rw [hp] at hx hok
    cases hx
    exact h.consume (by rw [hp]; rfl) ⟨hok, h.head⟩
  | storeHead e head =>
    rw [hp] at hx hok
    cases hx
    obtain ⟨he, rfl⟩ := hok
    exact h.take hcap hsmall hp
  | returned r =>
    rw [hp] at hx
    cases hx

theorem within_put (h : RingOk arch data cap m d) (hcap : 1 ≤ cap) {x : Access Put}
    (hx : (d.producer j).access arch d.sendQueue = some x) : x.Within data (data + countQueueMemSize cap) := by
  obtain ⟨hh, hh', ht, ht', -⟩ := counters_le arch
  have hslot := slot_le data hcap d.put.length
  have hok := h.producer j
  rw [h.send] at hx
  cases hp : d.producer j with
  | idle | returned r =>
    rw [hp] at hx
    cases hx
  | compare tailFirst e | compared tailFirst e v =>
    rw [hp] at hx
    cases tailFirst <;> cases hx <;> simp only [Access.Within, Access.addr, Access.width] <;> omega
  | offset e | loadTail e | storeTail e tail =>
    rw [hp] at hx
    cases hx
    simp only [Access.Within, Access.addr, Access.width]
    omega
  | seqId e off =>
    rw [hp] at hx hok
    cases hx
    obtain ⟨_, _, hoff⟩ := hok
    simp only [slot, kQueueElementLen] at hslot hoff
    simp only [Access.Within, Access.addr, Access.width]
    omega
  | shmOffset e off | status e off =>
    rw [hp] at hx hok
    cases hx
    obtain ⟨_, _, hoff, _⟩ := hok
    simp only [slot, kQueueElementLen] at hslot hoff
    simp only [Access.Within, Access.addr, Access.width]
    omega

theorem within_pop (h : RingOk arch data cap m d) (hcap : 1 ≤ cap) {x : Access Pop}
    (hx : d.consumer.access arch d.recvQueue = some x) : x.Within data (data + countQueueMemSize cap) := by
  obtain ⟨hh, hh', ht, ht', -⟩ := counters_le arch
  have hslot := slot_le data hcap d.got.length
  have hok := h.consumer
  rw [h.recv] at hx
  cases hp : d.consumer with
  | idle | returned r =>
    rw [hp] at hx
    cases hx
  | compare headFirst | compared headFirst v =>
    rw [hp] at hx
    cases headFirst <;> cases hx <;> simp only [Access.Within, Access.addr, Access.width] <;> omega
  | offset | loadHead e | storeHead e head =>
    rw [hp] at hx
    cases hx
    simp only [Access.Within, Access.addr, Access.width]
    omega
  | seqId off | shmOffset off x | status off x y =>
    rw [hp] at hx hok
    cases hx
    obtain ⟨hoff, _⟩ := hok
    simp only [slot, kQueueElementLen] at hslot hoff
    simp only [Access.Within, Access.addr, Access.width]
    omega

variable [DecidableEq ι]

-- an access of a put that does not publish: a load, or a store into the free cell behind the tail
theorem produce (h : RingOk arch data cap m d) (hcap : 1 ≤ cap) (hj : d.producer j ≠ .idle)
    (hpub : (d.producer j).publishes = [])
    (hm : m' = m ∨ HasRoom cap d ∧ SameOn m m' data (slot data cap d.put.length) ∧
      SameOn m m' (slot data cap d.put.length + kQueueElementLen) (data + countQueueMemSize cap))
    (hok : PutOk data cap m' (d.produce j next) next) : RingOk arch data cap m' (d.produce j next) := by
  have hput : (d.produce j next).put = d.put := by simp [Direction.produce, hpub]
  have hcount : loadI64 m' (data + arch.head) = d.got.length ∧ loadI64 m' (data + arch.tail) = d.put.length := by
    obtain rfl | ⟨-, hm, -⟩ := hm
    · exact ⟨h.head, h.tail⟩
    · exact h.counters hcap hm
  constructor
  · exact h.send
  · exact h.recv
  · exact hcount.1
  · rw [hput]
    exact hcount.2
  · rw [hput]
    exact h.got
  · rw [hput]
    exact h.room
  · intro i e hi he
    rw [hput] at he
    have hw := h.cells i e hi he
    obtain rfl | ⟨hroom, hlo, hhi⟩ := hm
    · exact hw
    · have hslot := slot_le data hcap i
      refine hw.congr ?_
      obtain hlt | hlt := h.slot_disjoint hroom hi (List.getElem?_eq_some_iff.mp he).1
      · exact hlo.mono (by omega) hlt
      · exact hhi.mono hlt hslot.2
  · intro k
    by_cases hk : k = j
    · right
      rw [hk]
      exact (h.holder j).resolve_left hj
    · simp only [Direction.produce, Function.update_of_ne hk]
      exact h.holder k
  · intro k
    by_cases hk : k = j
    · simp only [hk, Direction.produce, Function.update_self]
      exact hok
    · simp only [Direction.produce, Function.update_of_ne hk, h.others_idle hj hk]
      trivial
  · exact h.consumer.mono (by rw [hput]) rfl

theorem publish (h : RingOk arch data cap m d) (hcap : 1 ≤ cap) (hsmall : d.put.length + 1 < 2 ^ 63)
    (hj : d.producer j = .storeTail e d.put.length) :
    RingOk arch data cap (storeI64 m (data + arch.tail) (d.put.length + 1)) (d.produce j (.returned (.ok ()))) := by
  obtain ⟨hh, hh', ht, ht', hne⟩ := counters_le arch
  have hok := h.producer j
  rw [hj] at hok
  obtain ⟨hroom, hw, -⟩ := hok
  have hput : (d.produce j (.returned (.ok ()))).put = d.put ++ [e] := by simp [Direction.produce, hj, Put.publishes]
  have hcell : ∀ i, SameOn m (storeI64 m (data + arch.tail) (d.put.length + 1)) (slot data cap i)
      (slot data cap i + kQueueElementLen) := by
    intro i
    have hslot := slot_le data hcap i
    exact sameOn_storeI64 _ _ _ (by omega)
  constructor
  · exact h.send
  · exact h.recv
  · rw [loadI64_congr (sameOn_storeI64 _ _ _ (by omega)), h.head]
    rfl
  · rw [loadI64_storeI64_same _ _ (by omega) (by norm_num at hsmall; omega), hput]
    simp
  · rw [hput]
    exact h.got.trans (List.prefix_append _ _)
  · rw [hput]
    rw [List.length_append]
    exact hroom
  · intro i e' hi he
    rw [hput] at he
    refine Written.congr ?_ (hcell i)
    by_cases hlt : i < d.put.length
    · rw [List.getElem?_append_left hlt] at he
      exact h.cells i e' hi he
    · obtain rfl : i = d.put.length := by
        have hlen := (List.getElem?_eq_some_iff.mp he).1
        simp at hlen
        omega
      rw [List.getElem?_concat_length] at he
      cases he
      exact hw
  · intro k
    by_cases hk : k = j
    · right
      rw [hk]
      exact (h.holder j).resolve_left (by simp [hj])
    · simp only [Direction.produce, Function.update_of_ne hk]
      exact h.holder k
  · intro k
    by_cases hk : k = j
    · simp only [hk, Direction.produce, Function.update_self]
      trivial
    · simp only [Direction.produce, Function.update_of_ne hk, h.others_idle (by simp [hj]) hk]
      trivial
  · exact h.consumer.mono (by rw [hput]; exact List.prefix_append _ _) rfl

theorem produce_step (h : RingOk arch data cap m d) (hcap : 1 ≤ cap) (hsmall : d.put.length + 1 < 2 ^ 63)
    {x : Access Put} (hx : (d.producer j).access arch d.sendQueue = some x) :
    RingOk arch data cap (x.exec m).1 (d.produce j (x.exec m).2) := by
  have hok := h.producer j
  have hle := h.got.length_le
  have hroom := h.room
  have hslot := slot_le data hcap d.put.length
  have hstore : ∀ n v, n + 4 ≤ kQueueElementLen →
      SameOn m (store32 m (slot data cap d.put.length + n) v) data (slot data cap d.put.length) ∧
      SameOn m (store32 m (slot data cap d.put.length + n) v) (slot data cap d.put.length + kQueueElementLen)
        (data + countQueueMemSize cap) := by
    intro n v hn
    exact ⟨sameOn_store32 _ _ _ (by omega), sameOn_store32 _ _ _ (by omega)⟩
  rw [h.send] at hx
  cases hp : d.producer j with
  | idle =>
    rw [hp] at hx
    cases hx
  | compare tailFirst e =>
    rw [hp] at hx hok
    cases tailFirst <;> cases hx
    · refine h.produce hcap (by simp [hp]) (by rw [hp]; rfl) (.inl rfl) ⟨hok, ?_⟩
      simp only [Access.exec, Direction.produce, hp, Put.publishes, Put.readsHead, List.append_nil, if_true]
      rw [h.head]
      omega
    · refine h.produce hcap (by simp [hp]) (by rw [hp]; rfl) (.inl rfl) ⟨hok, ?_⟩
      simpa only [Access.exec, Direction.produce, hp, Put.publishes, List.append_nil] using h.tail
  | compared tailFirst e v =>
    rw [hp] at hx hok
    cases tailFirst <;> cases hx
    · obtain ⟨he, hv, hat, hcap'⟩ := hok
      refine h.produce hcap (by simp [hp]) (by rw [hp]; rfl) (.inl rfl) (decide_ok rfl he ?_ ?_)
      all_goals
        simp only [HasRoom, Direction.produce, hp, Put.publishes, Put.readsHead, List.append_nil, h.tail]
        intro _
      · simp only [Bool.false_eq_true, if_false]
        omega
      · omega
    · obtain ⟨he, rfl⟩ := hok
      refine h.produce hcap (by simp [hp]) (by rw [hp]; rfl) (.inl rfl) (decide_ok rfl he ?_ ?_)
      all_goals
        simp only [HasRoom, Direction.produce, hp, Put.publishes, Put.readsHead, List.append_nil, h.head]
        intro _
      · simp only [if_true]
        omega
      · omega
  | offset e =>
    rw [hp] at hx hok
    cases hx
    refine h.produce hcap (by simp [hp]) (by rw [hp]; rfl) (.inl rfl) ?_
    simp only [Access.exec, PutOk, HasRoom, Direction.produce, hp, Put.publishes, List.append_nil]
    rw [h.tail]
    exact ⟨hok.1, hok.2, queueOffset_eq _ _⟩
  | seqId e off =>
    rw [hp] at hx hok
    cases hx
    obtain ⟨he, hr, rfl⟩ := hok
    refine h.produce hcap (by simp [hp]) (by rw [hp]; rfl) (.inr ⟨hr, hstore 0 _ (by decide)⟩) ?_
    simp only [Access.exec, PutOk, HasRoom, Direction.produce, hp, Put.publishes, List.append_nil]
    exact ⟨he, hr, trivial, load32_store32_of_lt _ _ he.1⟩
  | shmOffset e off =>
    rw [hp] at hx hok
    cases hx
    obtain ⟨he, hr, rfl, h0⟩ := hok
    refine h.produce hcap (by simp [hp]) (by rw [hp]; rfl) (.inr ⟨hr, hstore 4 _ (by decide)⟩) ?_
    simp only [Access.exec, PutOk, HasRoom, Direction.produce, hp, Put.publishes, List.append_nil]
    refine ⟨he, hr, trivial, ?_, load32_store32_of_lt _ _ he.2.1⟩
    rwa [load32_store32_of_disjoint _ _ (by simp only [slot]; omega)]
  | status e off =>
    rw [hp] at hx hok
    cases hx
    obtain ⟨he, hr, rfl, h0, h4⟩ := hok
    refine h.produce hcap (by simp [hp]) (by rw [hp]; rfl) (.inr ⟨hr, hstore 8 _ (by decide)⟩) ?_
    simp only [Access.exec, PutOk, HasRoom, Direction.produce, hp, Put.publishes, List.append_nil]
    refine ⟨hr, ?_, ?_, load32_store32_of_lt _ _ he.2.2⟩
    · rwa [load32_store32_of_disjoint _ _ (by simp only [slot]; omega)]
    · rwa [load32_store32_of_disjoint _ _ (by simp only [slot]; omega)]
  | loadTail e =>
    rw [hp] at hx hok
    cases hx
    refine h.produce hcap (by simp [hp]) (by rw [hp]; rfl) (.inl rfl) ?_
    simp only [Access.exec, PutOk, HasRoom, Direction.produce, hp, Put.publishes, List.append_nil]
    exact ⟨hok.1, hok.2, h.tail⟩
  | storeTail e tail =>
    rw [hp] at hx hok
    cases hx
    obtain ⟨hr, hw, rfl⟩ := hok
    exact h.publish hcap hsmall hp
  | returned r =>
    rw [hp] at hx
    cases hx

end RingOk

variable [DecidableEq ι]

inductive Moves (arch : Arch) (m : Mem) (d : Direction ι) : Mem → Direction ι → Prop
  | lock (j : ι) (tailFirst : Bool) (e : QueueElement) : d.lock = none → Fits e →
      Moves arch m d m { d with lock := some j, producer := Function.update d.producer j (.compare tailFirst e) }
  | unlock (j : ι) (r : Result Unit) : d.producer j = .returned r →
      Moves arch m d m { d with lock := none, producer := Function.update d.producer j .idle }
  | produce (j : ι) (x : Access Put) : (d.producer j).access arch d.sendQueue = some x →
      Moves arch m d (x.exec m).1 (d.produce j (x.exec m).2)
  | enter (headFirst : Bool) : Moves arch m d m { d with consumer := .compare headFirst }
  | leave : Moves arch m d m { d with consumer := .idle }
  | consume (x : Access Pop) : d.consumer.access arch d.recvQueue = some x →
      Moves arch m d (x.exec m).1 (d.consume (x.exec m).2)

theorem step_moves {a : Act ι} (hs : d.step arch m a = some (m', d')) : Moves arch m d m' d' := by
  cases a with
  | put j tailFirst e =>
    simp only [Direction.step] at hs
    split at hs
    · next hlock hidle =>
      split_ifs at hs with hfits
      cases hs
      exact .lock j tailFirst e hlock hfits
    · cases hs
  | producer j =>
    simp only [Direction.step] at hs
    split at hs
    · next hr =>
      cases hs
      exact .unlock j _ hr
    · next hx _ =>
      cases hs
      exact .produce j _ hx
    · cases hs
  | pop headFirst =>
    simp only [Direction.step] at hs
    split at hs
    · cases hs
      exact .enter headFirst
    · cases hs
  | consumer =>
    simp only [Direction.step] at hs
    split at hs
    · cases hs
      exact .leave
    · next hx _ =>
      cases hs
      exact .consume _ hx
    · cases hs

theorem RingOk.moves (h : RingOk arch data cap m d) (hcap : 1 ≤ cap) (hsmall : d.put.length + 1 < 2 ^ 63)
    (hs : Moves arch m d m' d') : RingOk arch data cap m' d' := by
  cases hs with
  | lock j tailFirst e hlock hfits =>
    have hidle : ∀ k, d.producer k = .idle := fun k => (h.holder k).resolve_right (by simp [hlock])
    refine { h with holder := ?_, producer := ?_, consumer := h.consumer.mono (List.prefix_refl _) rfl }
    · intro k
      by_cases hk : k = j
      · exact .inr (by rw [hk])
      · left
        simp only [Function.update_of_ne hk, hidle]
    · intro k
      by_cases hk : k = j
      · simp only [hk, Function.update_self]
        exact hfits
      · simp only [Function.update_of_ne hk, hidle]
        trivial
  | unlock j r hr =>
    have hidle : ∀ k, Function.update d.producer j .idle k = .idle := by
      intro k
      by_cases hk : k = j
      · rw [hk, Function.update_self]
      · rw [Function.update_of_ne hk]
        exact h.others_idle (by simp [hr]) hk
    refine { h with holder := ?_, producer := ?_, consumer := h.consumer.mono (List.prefix_refl _) rfl }
    · intro k
      exact .inl (hidle k)
    · intro k
      simp only [hidle]
      trivial
  | produce j x hx => exact h.produce_step hcap hsmall hx
  | enter headFirst =>
    exact { h with producer := fun k => (h.producer k).mono rfl le_rfl rfl (.refl _ _ _), consumer := trivial }
  | leave =>
    exact { h with producer := fun k => (h.producer k).mono rfl le_rfl rfl (.refl _ _ _), consumer := trivial }
  | consume x hx => exact h.consume_step hcap hsmall hx

theorem RingOk.moves_sameOn (h : RingOk arch data cap m d) (hcap : 1 ≤ cap) (hs : Moves arch m d m' d') {lo hi : ℕ}
    (hd : data + countQueueMemSize cap ≤ lo ∨ hi ≤ data) : SameOn m m' lo hi := by
  cases hs with
  | lock | unlock | enter | leave => exact .refl _ _ _
  | produce j x hx => exact (h.within_put hcap hx).sameOn hd
  | consume x hx => exact (h.within_pop hcap hx).sameOn hd

end Shmipc.SharedQueue
