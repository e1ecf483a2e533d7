import Shmipc.Delivery

namespace Shmipc.Delivery

open Transition

variable {isClient : Bool} {s t : State} {a : Act} {id : ℕ}

structure SameProtocol (s t : State) : Prop where
  queue : t.queue = s.queue
  channel : t.channel = s.channel
  pc : t.pc = s.pc
  reader : t.reader = s.reader

theorem handleMessage_protocol (status : ℕ) (payload : Payload) :
    SameProtocol s (handleMessage isClient s id status payload) := by
  unfold handleMessage
  split_ifs <;> exact ⟨rfl, rfl, rfl, rfl⟩

theorem enqueue_eq {e : QueueElement} {item : Item} (h : enqueue s id e item = some t) :
    ∃ queue, s.queue.put e = .ok queue ∧ t = { s with
      queue := queue
      pc := Function.update s.pc id .marking
      sent := Function.update s.sent id (s.sent id ++ [item]) } := by
  unfold enqueue at h
  split at h
  · cases h
  · next queue hput => exact ⟨queue, hput, (Option.some.inj h).symm⟩

structure Awake (s : State) : Prop where
  flag : s.queue.workingFlag ≠ 0 → .polling ∈ s.channel ∨ (∃ id, s.pc id = .waking) ∨
    s.reader = .draining ∨ s.reader = .unmarking
  ring : s.queue.contents ≠ [] → .polling ∈ s.channel ∨ s.reader ≠ .idle ∨ ∃ id, s.pc id ≠ .idle

theorem Awake.congr (h : Awake s) (hs : SameProtocol s t) : Awake t := by
  constructor
  · rw [hs.queue, hs.channel, hs.pc, hs.reader]
    exact h.flag
  · rw [hs.queue, hs.channel, hs.pc, hs.reader]
    exact h.ring

theorem waking_update {p : SenderPc} (h : ∃ x, s.pc x = .waking) (hid : s.pc id ≠ .waking) :
    ∃ x, Function.update s.pc id p x = .waking := by
  obtain ⟨x, hx⟩ := h
  refine ⟨x, ?_⟩
  rwa [Function.update_of_ne]
  rintro rfl
  exact hid hx

theorem Awake.enqueue (h : Awake s) {e : QueueElement} {item : Item} (hid : s.pc id ≠ .waking)
    (he : enqueue s id e item = some t) : Awake t := by
  obtain ⟨queue, hput, rfl⟩ := enqueue_eq he
  constructor
  · intro hf
    rw [(Queue.put_ok hput).2] at hf
    rcases h.flag hf with hc | hw | hr
    · exact .inl hc
    · exact .inr (.inl (waking_update hw hid))
    · exact .inr (.inr hr)
  · intro _
    exact .inr (.inr ⟨id, by simp⟩)

theorem Awake.mark (h : Awake s) (hid : s.pc id = .marking) :
    Awake { s with
      queue := s.queue.markWorking.2
      pc := Function.update s.pc id (if s.queue.markWorking.1 then .waking else .idle) } := by
  by_cases hflag : s.queue.workingFlag = 0
  · rw [Queue.markWorking, if_pos hflag]
    constructor
    · intro _
      exact .inr (.inl ⟨id, by simp⟩)
    · intro _
      exact .inr (.inr ⟨id, by simp⟩)
  · rw [Queue.markWorking, if_neg hflag]
    have hnext : .polling ∈ s.channel ∨ (∃ x, Function.update s.pc id .idle x = .waking) ∨
        s.reader = .draining ∨ s.reader = .unmarking := by
      rcases h.flag hflag with hc | hw | hr
      · exact .inl hc
      · exact .inr (.inl (waking_update hw (by simp [hid])))
      · exact .inr (.inr hr)
    constructor
    · intro _
      simpa using hnext
    · intro _
      rcases hnext with hc | ⟨x, hx⟩ | hr | hr
      · exact .inl hc
      · exact .inr (.inr ⟨x, by simp [hx]⟩)
      · exact .inr (.inl (by simp [hr]))
      · exact .inr (.inl (by simp [hr]))

theorem Awake.receive (h : Awake s) {frame : Frame} {rest : List Frame}
    (hc : s.channel = frame :: rest) : Awake (handleFrame isClient { s with channel := rest } frame) := by
  cases frame with
  | polling =>
    constructor
    · intro _
      exact .inr (.inr (.inl rfl))
    · intro _
      exact .inr (.inl (by simp [handleFrame]))
  | fallbackData seqId payload =>
    have hrest : Awake { s with channel := rest } := by
      constructor
      · simpa [hc] using h.flag
      · simpa [hc] using h.ring
    exact hrest.congr (handleMessage_protocol _ _)
  | streamClose id =>
    constructor
    · simpa [hc, handleFrame] using h.flag
    · simpa [hc, handleFrame] using h.ring

theorem awake_pop (hr : s.reader = .draining) (hp : step isClient s .pop = some t) :
    Awake t := by
  rw [step, if_pos hr] at hp
  split at hp
  · obtain rfl := Option.some.inj hp
    constructor
    · intro _
      exact .inr (.inr (.inr rfl))
    · intro _
      exact .inr (.inl (by simp))
  · next e queue hpop =>
    obtain rfl := Option.some.inj hp
    have hrest : Awake { s with queue := queue } := by
      constructor
      · intro _
        exact .inr (.inr (.inl hr))
      · intro _
        exact .inr (.inl (by simp [hr]))
    exact hrest.congr (handleMessage_protocol _ _)

theorem Awake.step (h : Awake s) (hs : step isClient s a = some t) : Awake t := by
  cases a with
  | put id offset =>
    simp only [Delivery.step, Option.ite_none_right_eq_some] at hs
    exact h.enqueue (by simp_all [ready]) hs.2
  | closePut id =>
    simp only [Delivery.step, Option.ite_none_right_eq_some] at hs
    have hclose : Awake (close s id) := h.congr ⟨rfl, rfl, rfl, rfl⟩
    exact hclose.enqueue (by simp_all [ready, close]) hs.2
  | mark id =>
    simp only [Delivery.step, Option.ite_none_right_eq_some, Option.some.injEq] at hs
    obtain ⟨hid, rfl⟩ := hs
    exact h.mark hid
  | wake id =>
    simp only [Delivery.step, Option.ite_none_right_eq_some, Option.some.injEq] at hs
    obtain ⟨-, rfl⟩ := hs
    constructor
    · intro _
      exact .inl (by simp)
    · intro _
      exact .inl (by simp)
  | enterFallback id =>
    obtain rfl := Option.some.inj hs
    exact h.congr ⟨rfl, rfl, rfl, rfl⟩
  | reset id =>
    simp only [Delivery.step, Option.ite_none_right_eq_some, Option.some.injEq] at hs
    obtain ⟨-, rfl⟩ := hs
    exact h.congr ⟨rfl, rfl, rfl, rfl⟩
  | sendFallback id payload =>
    simp only [Delivery.step, Option.ite_none_right_eq_some, Option.some.injEq] at hs
    obtain ⟨-, rfl⟩ := hs
    constructor
    · simpa [transmit] using h.flag
    · simpa [transmit] using h.ring
  | sendClose id =>
    simp only [Delivery.step, Option.ite_none_right_eq_some, Option.some.injEq] at hs
    obtain ⟨-, rfl⟩ := hs
    constructor
    · simpa [transmit, close] using h.flag
    · simpa [transmit, close] using h.ring
  | receive =>
    simp only [Delivery.step] at hs
    split at hs
    · next frame rest _ hc =>
      obtain rfl := Option.some.inj hs
      exact h.receive hc
    · cases hs
  | pop =>
    by_cases hr : s.reader = .draining
    · exact awake_pop hr hs
    · simp [Delivery.step, hr] at hs
  | unmark =>
    simp only [Delivery.step, Option.ite_none_right_eq_some, Option.some.injEq] at hs
    obtain ⟨-, rfl⟩ := hs
    constructor
    · intro hf
      exact absurd rfl hf
    · intro _
      exact .inr (.inl (by simp))
  | check =>
    simp only [Delivery.step, Option.ite_none_right_eq_some, Option.some.injEq] at hs
    obtain ⟨hr, rfl⟩ := hs
    constructor
    · intro hf
      rcases h.flag hf with hc | hw | hd | hd
      · exact .inl hc
      · exact .inr (.inl hw)
      · simp [hr] at hd
      · simp [hr] at hd
    · intro hne
      have hsize : s.queue.size ≠ 0 := fun he => hne (Queue.size_eq_zero.mp he)
      exact .inr (.inl (by simp [hsize]))
  | remark =>
    simp only [Delivery.step, Option.ite_none_right_eq_some, Option.some.injEq] at hs
    obtain ⟨-, rfl⟩ := hs
    constructor
    · intro _
      exact .inr (.inr (.inl rfl))
    · intro _
      exact .inr (.inl (by simp))

theorem awake_initial (cap : ℕ) (known : ℕ → Bool) : Awake (initial cap known) := by
  constructor
  · intro hf
    exact absurd rfl hf
  · intro hne
    exact absurd (CircularQueue.contents_empty cap _) hne

theorem no_lost_wakeup (cap : ℕ) (hs : (system isClient cap).Run s) (hne : s.queue.contents ≠ []) :
    .polling ∈ s.channel ∨ s.reader ≠ .idle ∨ ∃ id, s.pc id ≠ .idle := by
  have h : Awake s := by
    refine hs.invariant ?_ ?_
    · rintro s ⟨known, -, rfl⟩
      exact awake_initial cap known
    · intro s a t h _ hstep
      exact h.step hstep
  exact h.ring hne

-- two producers have put and returned; the frame of the one that set the flag is on its way
theorem no_lost_wakeup_in_flight : ∃ s : State, s.queue.contents = [⟨1, 7, 0⟩, ⟨2, 9, 0⟩] ∧ s.pc 1 = .idle ∧ s.pc 2 = .idle ∧
    s.reader = .idle ∧ s.channel = [.polling] ∧ (.polling ∈ s.channel ∨ s.reader ≠ .idle ∨ ∃ id, s.pc id ≠ .idle) := by
  have hrun : ((system false 4).runFrom (initial 4 fun _ => false) [.put 1 7, .put 2 9, .mark 1, .mark 2, .wake 1]).map
      (fun s => (s.queue.contents, s.pc 1, s.pc 2, s.reader, s.channel)) =
      some ([⟨1, 7, 0⟩, ⟨2, 9, 0⟩], .idle, .idle, .idle, [.polling]) := by
    decide
  obtain ⟨s, hs, he⟩ := Option.map_eq_some_iff.mp hrun
  simp only [Prod.mk.injEq] at he
  obtain ⟨hring, hone, htwo, hreader, hchannel⟩ := he
  refine ⟨s, hring, hone, htwo, hreader, hchannel, no_lost_wakeup 4 (System.Reachable.runFrom (fun _ _ _ => trivial)
    (.initial ⟨fun _ => false, by simp, rfl⟩) hs) ?_⟩
  simp [hring]

end Shmipc.Delivery
