import Shmipc.SharedQueueSteps

namespace Shmipc.SharedQueue

open ByteMemory Transition

variable {ι : Type} {arch : Arch} {cap : ℕ}

theorem workingFlag_le (arch : Arch) :
    4 ≤ arch.workingFlag ∧ arch.workingFlag + 4 ≤ kQueueHeaderLength ∧
      (arch.workingFlag + 4 ≤ arch.head ∨ arch.head + 8 ≤ arch.workingFlag) ∧
      (arch.workingFlag + 4 ≤ arch.tail ∨ arch.tail + 8 ≤ arch.workingFlag) := by
  cases arch <;> decide

structure Fresh (arch : Arch) (m : Mem) (data cap : ℕ) : Prop where
  cap : load32 m data = cap
  head : loadI64 m (data + arch.head) = 0
  tail : loadI64 m (data + arch.tail) = 0

theorem Fresh.congr {m m' : Mem} {data : ℕ} (h : Fresh arch m data cap)
    (hm : SameOn m m' data (data + kQueueHeaderLength)) : Fresh arch m' data cap := by
  obtain ⟨hh, hh', ht, ht', -⟩ := counters_le arch
  constructor
  · rw [load32_congr (hm.mono le_rfl (by omega)), h.cap]
  · rw [loadI64_congr (hm.mono (by omega) (by omega)), h.head]
  · rw [loadI64_congr (hm.mono (by omega) (by omega)), h.tail]

theorem createFromBytes_fresh (arch : Arch) (m : Mem) (data : ℕ) (hcap : cap < 2 ^ 32) :
    Fresh arch (createFromBytes arch m data cap).1 data cap ∧ (createFromBytes arch m data cap).2 = ⟨data, cap⟩ := by
  obtain ⟨hh, hh', ht, ht', hne⟩ := counters_le arch
  obtain ⟨hf, hf', hfh, hft⟩ := workingFlag_le arch
  have hload : load32 (store32 m data cap) data = cap := load32_store32_of_lt m data hcap
  refine ⟨⟨?_, ?_, ?_⟩, ?_⟩
  · simp only [createFromBytes]
    rw [load32_store32_of_disjoint _ _ (by omega), load32_congr (sameOn_storeI64 _ _ _ (by omega)),
      load32_congr (sameOn_storeI64 _ _ _ (by omega)), hload]
  · simp only [createFromBytes]
    rw [loadI64_congr (sameOn_store32 _ _ _ (by omega)), loadI64_congr (sameOn_storeI64 _ _ _ (by omega)),
      loadI64_storeI64_same _ _ le_rfl (by norm_num)]
  · simp only [createFromBytes]
    rw [loadI64_congr (sameOn_store32 _ _ _ (by omega)), loadI64_storeI64_same _ _ le_rfl (by norm_num)]
  · simp only [createFromBytes, mappingFromBytes, hload]

theorem sameOn_createFromBytes (m : Mem) {data lo hi : ℕ} (h : data + kQueueHeaderLength ≤ lo ∨ hi ≤ data) :
    SameOn m (createFromBytes arch m data cap).1 lo hi := by
  obtain ⟨hh, hh', ht, ht', -⟩ := counters_le arch
  obtain ⟨hf, hf', -⟩ := workingFlag_le arch
  refine SameOn.trans ?_ (sameOn_store32 _ (data + arch.workingFlag) 0 (by omega))
  refine SameOn.trans ?_ (sameOn_storeI64 _ (data + arch.tail) 0 (by omega))
  refine SameOn.trans ?_ (sameOn_storeI64 _ (data + arch.head) 0 (by omega))
  exact sameOn_store32 m data cap (by omega)

theorem half_eq (cap : ℕ) : countQueueMemSize cap * kQueueCount / 2 = countQueueMemSize cap := by
  simp [kQueueCount]

theorem create_fresh (arch : Arch) (m : Mem) (hcap : cap < 2 ^ 32) :
    (∀ w, Fresh arch (create arch m cap).1 (base cap w) cap) ∧
      (create arch m cap).2 = ⟨⟨base cap .there, cap⟩, ⟨base cap .back, cap⟩⟩ := by
  have hhead : kQueueHeaderLength ≤ countQueueMemSize cap := Nat.le_add_right _ _
  simp only [create, half_eq]
  obtain ⟨hsend, hq⟩ :=
    createFromBytes_fresh arch (memset m (countQueueMemSize cap * kQueueCount)) 0 hcap
  obtain ⟨hrecv, hq'⟩ := createFromBytes_fresh arch
    (createFromBytes arch (memset m (countQueueMemSize cap * kQueueCount)) 0 cap).1 (countQueueMemSize cap) hcap
  refine ⟨fun w => ?_, ?_⟩
  · cases w with
    | there => exact hsend.congr (sameOn_createFromBytes _ (by omega))
    | back => exact hrecv
  · rw [hq, hq']
    rfl

theorem ringOk_start {m : Mem} {data : ℕ} (h : Fresh arch m data cap) :
    RingOk arch data cap m (Direction.start ⟨data, cap⟩ ⟨data, cap⟩ : Direction ι) where
  send := rfl
  recv := rfl
  head := h.head
  tail := h.tail
  got := List.prefix_refl _
  room := Nat.zero_le _
  cells i e _ he := by simp [Direction.start] at he
  holder _ := .inl rfl
  producer _ := trivial
  consumer := trivial

theorem ringOk_of_starts {s : State ι} (hcap : cap < 2 ^ 32) (h : Starts arch cap s) (w : Way) :
    RingOk arch (base cap w) cap s.mem (s.dir w) := by
  obtain ⟨m, peer, hpeer, rfl⟩ := h
  obtain ⟨hfresh, hqm⟩ := create_fresh arch m hcap
  have hmap : peer = ⟨⟨base cap .back, cap⟩, ⟨base cap .there, cap⟩⟩ := by
    unfold mapping at hpeer
    split_ifs at hpeer
    cases hpeer
    have hthere := (hfresh .there).cap
    have hback := (hfresh .back).cap
    simp only [base] at hthere hback
    simp only [mappingFromBytes, half_eq, base, hthere, hback]
  rw [hqm, hmap]
  cases w with
  | there => exact ringOk_start (hfresh .there)
  | back => exact ringOk_start (hfresh .back)

theorem base_disjoint {w w' : Way} (h : w ≠ w') :
    base cap w + countQueueMemSize cap ≤ base cap w' ∨ base cap w' + countQueueMemSize cap ≤ base cap w := by
  cases w <;> cases w' <;> simp_all [base]

theorem Put.publishes_cases (pc : Put) : pc.publishes = [] ∨ ∃ e tail, pc = .storeTail e tail := by
  cases pc <;> simp [Put.publishes]

theorem Pop.takes_cases (pc : Pop) : pc.takes = [] ∨ ∃ e head, pc = .storeHead e head := by
  cases pc <;> simp [Pop.takes]

variable [DecidableEq ι]

/-- The ring refines the circular queue whose put and pop are single steps: they happen where the tail
and the head are stored. -/
theorem RingOk.refines {data : ℕ} {m m' : Mem} {d d' : Direction ι} (h : RingOk arch data cap m d)
    (h' : RingOk arch data cap m' d') (hs : Moves arch m d m' d') :
    h'.queue.contents = h.queue.contents ∨
    (∃ e q, h.queue.put? e = some q ∧ h'.queue.contents = q.contents) ∨
    ∃ e q, h.queue.pop? = some (e, q) ∧ h'.queue.contents = q.contents := by
  simp only [h.queue_contents, h'.queue_contents]
  cases hs with
  | lock | unlock | enter | leave => exact .inl rfl
  | produce j x hx =>
    obtain hpub | ⟨e, tail, hp⟩ := (d.producer j).publishes_cases
    · left
      simp only [Direction.produce, hpub, List.append_nil]
    · right
      left
      have hok := h.producer j
      rw [hp] at hok
      obtain ⟨hroom, -⟩ := hok
      obtain ⟨q, hq⟩ : ∃ q, h.queue.put? e = some q := ⟨_, dif_pos hroom⟩
      refine ⟨e, q, hq, ?_⟩
      rw [CircularQueue.contents_put hq, h.queue_contents]
      simp only [Direction.produce, hp, Put.publishes]
      exact List.drop_append_of_le_length h.got.length_le
  | consume x hx =>
    obtain htakes | ⟨e, head, hp⟩ := d.consumer.takes_cases
    · left
      simp only [Direction.consume, htakes, List.append_nil]
    · right
      right
      have hok := h.consumer
      rw [hp] at hok
      obtain ⟨he, -⟩ := hok
      have hlt := (List.getElem?_eq_some_iff.mp he).1
      obtain ⟨⟨e', q⟩, hq⟩ : ∃ r, h.queue.pop? = some r := ⟨_, dif_pos hlt⟩
      refine ⟨e', q, hq, ?_⟩
      have hc := CircularQueue.contents_pop hq
      rw [h.queue_contents] at hc
      simp only [Direction.consume, hp, Pop.takes, List.length_append, List.length_singleton]
      rw [← List.tail_drop, hc, List.tail_cons]

theorem ringOk_of_reachable {s : State ι} (hcap : 1 ≤ cap) (hcap' : cap < 2 ^ 32)
    (h : (system arch cap ι).Reachable Small s) : ∀ w, RingOk arch (base cap w) cap s.mem (s.dir w) := by
  refine System.Reachable.invariant (I := fun s => ∀ w, RingOk arch (base cap w) cap s.mem (s.dir w)) ?_ ?_ h
  · intro s hs
    exact ringOk_of_starts hcap' hs
  · rintro s ⟨w, a⟩ t hi hsmall hs w'
    obtain ⟨⟨m', d'⟩, hstep, rfl⟩ := Option.map_eq_some_iff.mp hs
    have hmoves := step_moves hstep
    by_cases hw : w' = w
    · subst hw
      simp only [Function.update_self]
      exact (hi w').moves hcap (hsmall w') hmoves
    · simp only [Function.update_of_ne hw]
      exact (hi w').congr hcap ((hi w).moves_sameOn hcap hmoves (base_disjoint (Ne.symm hw)))

def NextAccess (arch : Arch) (d : Direction ι) (lo hi : ℕ) : Prop :=
  (∀ j x, (d.producer j).access arch d.sendQueue = some x → x.Within lo hi) ∧
    ∀ x, d.consumer.access arch d.recvQueue = some x → x.Within lo hi

theorem shared_queue_fifo {s : State ι} (hcap : 1 ≤ cap) (hcap' : cap < 2 ^ 32)
    (h : (system arch cap ι).Reachable Small s) (w : Way) :
    (s.dir w).got <+: (s.dir w).put ∧
    (∀ e, (s.dir w).consumer = .returned (.ok e) → (s.dir w).got.getLast? = some e) ∧
    (∀ j err, (s.dir w).producer j = .returned (.error err) → err = .ofKind .queueFull ∧ (s.dir w).atHead = cap) ∧
    NextAccess arch (s.dir w) (base cap w) (base cap w + countQueueMemSize cap) := by
  have hring := ringOk_of_reachable hcap hcap' h w
  refine ⟨hring.got, ?_, ?_, ?_, ?_⟩
  · intro e he
    have hok := hring.consumer
    rw [he] at hok
    exact hok
  · intro j err hj
    have hok := hring.producer j
    rw [hj] at hok
    exact hok
  · intro j x hx
    exact hring.within_put hcap hx
  · intro x hx
    exact hring.within_pop hcap hx

def exampleState : State (Fin 2) where
  mem := (create .x86 ⟨fun _ => 0xff⟩ 1).1
  dir
    | .there => .start ⟨0, 1⟩ ⟨0, 1⟩
    | .back => .start ⟨36, 1⟩ ⟨36, 1⟩

def putSteps (i : Fin 2) (tailFirst : Bool) (e : QueueElement) (n : ℕ) : List (Act (Fin 2)) :=
  Act.put i tailFirst e :: List.replicate n (Act.producer i)

def popSteps (n : ℕ) : List (Act (Fin 2)) := Act.pop true :: List.replicate n Act.consumer

-- the second put finds the ring full while the pop of the first element is under way
def exampleRun : List (Act (Fin 2)) :=
  List.flatten [putSteps 0 true ⟨1, 64, 0⟩ 9, popSteps 7, putSteps 1 false ⟨3, 96, 0⟩ 2, [Act.consumer]]

theorem shared_queue_fifo_full : ∃ s, (system .x86 1 (Fin 2)).Reachable Small s ∧
    (s.dir .there).got = [⟨1, 64, 0⟩] ∧ (s.dir .there).producer 1 = .returned (.error (.ofKind .queueFull)) ∧
    (s.dir .there).atHead = 1 := by
  have hrun : (((system .x86 1 (Fin 2)).restrict Small).runFrom exampleState
      (exampleRun.map (Prod.mk Way.there))).map
      (fun s => ((s.dir .there).got, (s.dir .there).producer 1)) =
      some ([⟨1, 64, 0⟩], .returned (.error (.ofKind .queueFull))) := by
    decide +kernel
  obtain ⟨s, hs, he⟩ := Option.map_eq_some_iff.mp hrun
  simp only [Prod.mk.injEq] at he
  have hstart : Starts .x86 1 exampleState := ⟨⟨fun _ => 0xff⟩, ⟨⟨36, 1⟩, ⟨0, 1⟩⟩, by decide +kernel, by
    rw [(create_fresh .x86 _ (by norm_num)).2]
    rfl⟩
  have hsmall : ((system .x86 1 (Fin 2)).restrict Small).Run s := .runFrom (fun _ _ _ => trivial) (.initial hstart) hs
  exact ⟨s, .of_restrict hsmall, he.1, he.2,
    ((shared_queue_fifo le_rfl (by norm_num) (.of_restrict hsmall) .there).2.2.1 1 _ he.2).2⟩

end Shmipc.SharedQueue
