import Mathlib.Data.List.TakeWhile
import Shmipc.Wakeup

namespace Shmipc.Delivery

open Transition

def elementItem (e : QueueElement) : Item :=
  if e.status = kStreamClosed then .close else .data (.shm e.offsetInShmBuf)

def frameItem (id : ℕ) : Frame → Option Item
  | .polling => none
  | .fallbackData seqId payload => if seqId = id then some (.data (.fallback payload)) else none
  | .streamClose x => if x = id then some .close else none

theorem frameItem_fallbackData (id seqId : ℕ) (payload : List UInt8) :
    frameItem id (.fallbackData seqId payload) =
      if id = seqId then some (.data (.fallback payload)) else none := by
  simp only [frameItem, eq_comm]

theorem frameItem_streamClose (id x : ℕ) :
    frameItem id (.streamClose x) = if id = x then some .close else none := by
  simp only [frameItem, eq_comm]

def ringItems (s : State) (id : ℕ) : List Item :=
  (s.queue.contents.filter (fun e => e.seqId = id)).map elementItem

def frameItems (id : ℕ) (frames : List Frame) : List Item := frames.filterMap (frameItem id)

def ahead (s : State) : List Frame := if s.reader = .idle then s.channel.takeWhile (· ≠ .polling) else []

def behind (s : State) : List Frame := if s.reader = .idle then s.channel.dropWhile (· ≠ .polling) else s.channel

def due (s : State) (id : ℕ) : List Item :=
  frameItems id (ahead s) ++ ringItems s id ++ frameItems id (behind s)

/-- Whatever is sent on a stream is handled after what was sent on it before: an element of the ring, when no frame of
the stream is behind the wake-up; a frame, when the ring holds nothing of the stream or is emptied ahead of it. -/
def Announced (s : State) : Act → Prop
  | .put id _ | .closePut id => frameItems id (behind s) = []
  | .sendFallback id _ | .sendClose id => (∀ e ∈ s.queue.contents, e.seqId ≠ id) ∨
      .polling ∈ s.channel ∨ s.reader ≠ .idle
  | _ => True

instance (s : State) (a : Act) : Decidable (Announced s a) := by
  cases a <;> unfold Announced <;> infer_instance

structure Ordered (isClient : Bool) (s : State) : Prop where
  split : ∀ id, s.sent id = s.log id ++ due s id
  shape : ∀ id, ∃ items, .close ∉ items ∧ s.sent id = items ++ (if s.closed id then [.close] else [])
  status : ∀ e ∈ s.queue.contents, e.status = kStreamOpened ∨ e.status = kStreamClosed
  known : isClient = true → ∀ id, s.known id = false → s.closed id = true ∧ due s id = []

variable {isClient : Bool} {s t : State} {a : Act} {id : ℕ}

section Due

variable {frame : Frame} {rest : List Frame}

theorem frameItems_cons (id : ℕ) (frame : Frame) (rest : List Frame) :
    frameItems id (frame :: rest) = (frameItem id frame).toList ++ frameItems id rest := by
  rw [frameItems, List.filterMap_cons]
  cases frameItem id frame <;> rfl

theorem frameItems_append (id : ℕ) (before after : List Frame) :
    frameItems id (before ++ after) = frameItems id before ++ frameItems id after :=
  List.filterMap_append

theorem ahead_append_behind (s : State) : ahead s ++ behind s = s.channel := by
  unfold ahead behind
  split_ifs
  · exact List.takeWhile_append_dropWhile
  · rfl

theorem due_of_ring_nil (h : ringItems s id = []) : due s id = frameItems id s.channel := by
  rw [due, h, List.append_nil, ← frameItems_append, ahead_append_behind]

theorem due_of_busy (h : s.reader ≠ .idle) : due s id = ringItems s id ++ frameItems id s.channel := by
  rw [due, ahead, behind, if_neg h, if_neg h]
  rfl

theorem due_of_unannounced (hr : s.reader = .idle) (hp : .polling ∉ s.channel) :
    due s id = frameItems id s.channel ++ ringItems s id := by
  have hall : ∀ frame ∈ s.channel, decide (frame ≠ .polling) = true := by
    intro frame hframe
    exact decide_eq_true fun he => hp (he ▸ hframe)
  rw [due, ahead, behind, if_pos hr, if_pos hr, List.takeWhile_eq_self_iff.mpr hall,
    List.dropWhile_eq_nil_iff.mpr hall]
  exact List.append_nil _

theorem due_of_announced {before : List Frame} (hr : s.reader = .idle) (hp : .polling ∉ before)
    (hc : s.channel = before ++ .polling :: rest) :
    due s id = frameItems id before ++ ringItems s id ++ frameItems id rest := by
  have hall : ∀ frame ∈ before, decide (frame ≠ .polling) = true := by
    intro frame hframe
    exact decide_eq_true fun he => hp (he ▸ hframe)
  rw [due, ahead, behind, if_pos hr, if_pos hr, hc, List.takeWhile_append_of_pos hall,
    List.dropWhile_append_of_pos hall, List.takeWhile_cons_of_neg (by simp), List.dropWhile_cons_of_neg (by simp),
    List.append_nil, frameItems_cons]
  rfl

theorem due_send (h : frameItem id frame = none ∨ ringItems s id = [] ∨ .polling ∈ s.channel ∨ s.reader ≠ .idle) :
    due { s with channel := s.channel ++ [frame] } id = due s id ++ (frameItem id frame).toList := by
  have hitems : frameItems id (s.channel ++ [frame]) = frameItems id s.channel ++ (frameItem id frame).toList := by
    rw [frameItems_append, frameItems_cons]
    exact congrArg _ (List.append_nil _)
  by_cases hr : s.reader = .idle
  swap
  · rw [due_of_busy hr, due_of_busy (by exact hr), List.append_assoc, ← hitems]
    rfl
  by_cases hp : .polling ∈ s.channel
  · obtain ⟨before, after, hc, hb⟩ := List.eq_append_cons_of_mem hp
    have hc' : s.channel ++ [frame] = before ++ .polling :: (after ++ [frame]) := by
      simp [hc]
    rw [due_of_announced hr hb hc, due_of_announced (by exact hr) hb hc', frameItems_append, frameItems_cons]
    simp [frameItems, ringItems]
  · by_cases hf : frame = .polling
    · subst hf
      rw [due_of_announced (by exact hr) hp rfl, due_of_unannounced hr hp]
      rfl
    · rw [due_of_unannounced hr hp, due_of_unannounced (by exact hr) (by simpa [hp] using Ne.symm hf)]
      change frameItems id (s.channel ++ [frame]) ++ ringItems s id = _
      rw [hitems]
      rcases h with h | h | h | h
      · simp [h]
      · simp [h]
      · exact absurd h hp
      · exact absurd hr h

theorem due_receive (hr : s.reader = .idle) (hc : s.channel = frame :: rest) (hf : frame ≠ .polling) :
    due s id = (frameItem id frame).toList ++ due { s with channel := rest } id := by
  simp only [due, ahead, behind, if_pos hr, hc]
  rw [List.takeWhile_cons_of_pos (by simpa using hf), List.dropWhile_cons_of_pos (by simpa using hf), frameItems_cons,
    List.append_assoc, List.append_assoc, List.append_assoc]
  rfl

theorem due_polling (hr : s.reader = .idle) (hc : s.channel = .polling :: rest) :
    due { s with channel := rest, reader := .draining } id = due s id := by
  rw [due_of_announced hr (List.not_mem_nil) (hc.trans (List.nil_append _).symm), due_of_busy (by simp)]
  rfl

end Due

section Ring

variable {queue : Queue} {e : QueueElement}

theorem ringItems_put (h : s.queue.put e = .ok queue) (id : ℕ) :
    (queue.contents.filter (fun e => e.seqId = id)).map elementItem =
      ringItems s id ++ if e.seqId = id then [elementItem e] else [] := by
  rw [(Queue.put_ok h).1, List.filter_append, List.map_append, ringItems]
  split_ifs with he <;> simp [he]

theorem ringItems_pop (h : s.queue.pop = .ok (e, queue)) (id : ℕ) :
    ringItems s id = (if e.seqId = id then [elementItem e] else []) ++
      (queue.contents.filter (fun e => e.seqId = id)).map elementItem := by
  rw [ringItems, (Queue.pop_ok h).1]
  split_ifs with he <;> simp [he]

end Ring

theorem split_concat {α : Type*} {A B C : List α} {x y : α} (h : A ++ [x] = B ++ y :: C) :
    (C = [] ∧ B = A ∧ x = y) ∨ ∃ C', C = C' ++ [x] ∧ A = B ++ y :: C' := by
  rcases List.eq_nil_or_concat' C with rfl | ⟨C', z, rfl⟩
  · obtain ⟨h1, h2⟩ := List.append_inj' h rfl
    exact .inl ⟨rfl, h1.symm, List.singleton_inj.mp h2⟩
  · have h' : A ++ [x] = (B ++ y :: C') ++ [z] := by simpa using h
    obtain ⟨h1, h2⟩ := List.append_inj' h' rfl
    exact .inr ⟨C', by rw [List.singleton_inj.mp h2], h1⟩

theorem shape_concat {sent : List Item} {item : Item} {c : Bool} (h : .close ∉ sent)
    (hc : c = true ↔ item = .close) :
    ∃ items, .close ∉ items ∧ sent ++ [item] = items ++ (if c then [.close] else []) := by
  cases c with
  | true => exact ⟨sent, h, by simp [hc.mp rfl]⟩
  | false =>
    refine ⟨sent ++ [item], ?_, by simp⟩
    have hne : item ≠ .close := fun he => absurd (hc.mpr he) (by simp)
    simp [h, hne.symm]

theorem close_last {items left right : List Item} {c : Bool} (h : .close ∉ items)
    (he : items ++ (if c then [.close] else []) = left ++ .close :: right) : c = true ∧ right = [] := by
  cases c with
  | true =>
    rcases split_concat he with ⟨hr, -, -⟩ | ⟨right', -, hitems⟩
    · exact ⟨rfl, hr⟩
    · exact absurd (by simp [hitems]) h
  | false =>
    refine absurd ?_ h
    simp only [Bool.false_eq_true, if_false, List.append_nil] at he
    simp [he]

theorem Ordered.open_sent (h : Ordered isClient s) (hopen : s.closed id = false) : .close ∉ s.sent id := by
  obtain ⟨items, hitems, he⟩ := h.shape id
  rw [he, hopen]
  simpa using hitems

theorem Ordered.enqueued (h : Ordered isClient s) {e : QueueElement} {queue : Queue} {c : Bool}
    (p : ℕ → SenderPc) (hput : s.queue.put e = .ok queue)
    (hst : e.status = kStreamOpened ∨ e.status = kStreamClosed) (hopen : s.closed e.seqId = false)
    (hok : frameItems e.seqId (behind s) = []) (hc : c = true ↔ elementItem e = .close) :
    Ordered isClient { s with
      queue := queue
      pc := p
      sent := Function.update s.sent e.seqId (s.sent e.seqId ++ [elementItem e])
      closed := Function.update s.closed e.seqId c } := by
  have hdue : ∀ id, frameItems id (ahead s) ++ (queue.contents.filter (fun e => e.seqId = id)).map elementItem ++
      frameItems id (behind s) = due s id ++ if e.seqId = id then [elementItem e] else [] := by
    intro id
    rw [ringItems_put hput, due]
    split_ifs with he
    · rw [← he, hok]
      simp
    · simp
  constructor
  · intro id
    refine Eq.trans ?_ (congrArg (s.log id ++ ·) (hdue id).symm)
    by_cases he : e.seqId = id
    · subst he
      simp [h.split e.seqId]
    · simp [he, Ne.symm he, h.split id]
  · intro id
    by_cases he : e.seqId = id
    · subst he
      simpa using shape_concat (h.open_sent hopen) hc
    · simpa [Function.update_of_ne (Ne.symm he)] using h.shape id
  · intro x hx
    rw [(Queue.put_ok hput).1] at hx
    rcases List.mem_append.mp hx with hx | hx
    · exact h.status x hx
    · rw [List.mem_singleton.mp hx]
      exact hst
  · intro hclient id hk
    obtain ⟨hclosed, hnil⟩ := h.known hclient id hk
    have he : e.seqId ≠ id := by
      rintro rfl
      simp [hopen] at hclosed
    refine ⟨by simpa [Function.update_of_ne he.symm] using hclosed, (hdue id).trans ?_⟩
    rw [hnil, if_neg he]
    rfl

theorem Ordered.transmitted (h : Ordered isClient s) {frame : Frame} {item : Item} {c : Bool}
    (hitem : ∀ x, frameItem x frame = if x = id then some item else none)
    (hok : (∀ e ∈ s.queue.contents, e.seqId ≠ id) ∨ .polling ∈ s.channel ∨ s.reader ≠ .idle)
    (hopen : s.closed id = false) (hc : c = true ↔ item = .close) :
    Ordered isClient { s with
      channel := s.channel ++ [frame]
      sent := Function.update s.sent id (s.sent id ++ [item])
      closed := Function.update s.closed id c } := by
  have hdue : ∀ x, due { s with channel := s.channel ++ [frame] } x =
      due s x ++ if x = id then [item] else [] := by
    intro x
    rw [due_send, hitem]
    · split_ifs <;> rfl
    · by_cases hx : x = id
      · refine .inr (hok.imp_left fun hno => ?_)
        rw [ringItems, List.filter_eq_nil_iff.mpr]
        · rfl
        · intro e he
          simpa [hx] using hno e he
      · exact .inl (by rw [hitem, if_neg hx])
  constructor
  · intro x
    refine Eq.trans ?_ (congrArg (s.log x ++ ·) (hdue x).symm)
    by_cases hx : x = id
    · subst hx
      simp [h.split x]
    · simp [hx, h.split x]
  · intro x
    by_cases hx : x = id
    · subst hx
      simpa using shape_concat (h.open_sent hopen) hc
    · simpa [Function.update_of_ne hx] using h.shape x
  · exact h.status
  · intro hclient x hk
    obtain ⟨hclosed, hnil⟩ := h.known hclient x hk
    have hx : x ≠ id := by
      rintro rfl
      simp [hopen] at hclosed
    refine ⟨by simpa [Function.update_of_ne hx] using hclosed, (hdue x).trans ?_⟩
    rw [hnil, if_neg hx]
    rfl

theorem Ordered.logged {u : State} (h : Ordered isClient s) {item : Item}
    (hlog : u.log = Function.update s.log id (s.log id ++ [item]))
    (hsame : u.sent = s.sent ∧ u.closed = s.closed)
    (hdue : ∀ x, due s x = (if x = id then [item] else []) ++ due u x)
    (hstatus : ∀ e ∈ u.queue.contents, e ∈ s.queue.contents)
    (hknown : ∀ x, u.known x = false → s.known x = false ∨ (x = id ∧ item = .close)) : Ordered isClient u := by
  obtain ⟨hsent, hclosed⟩ := hsame
  constructor
  · intro x
    rw [hsent, hlog, h.split x, hdue x]
    by_cases hx : x = id
    · subst hx
      simp
    · simp [hx]
  · rw [hsent, hclosed]
    exact h.shape
  · intro e he
    exact h.status e (hstatus e he)
  · intro hclient x hx
    rw [hclosed]
    rcases hknown x hx with hk | ⟨rfl, rfl⟩
    · obtain ⟨hc, hnil⟩ := h.known hclient x hk
      rw [hdue x, List.append_eq_nil_iff] at hnil
      exact ⟨hc, hnil.2⟩
    · -- the close is the last item sent, so nothing of the stream is left behind it
      obtain ⟨items, hitems, hshape⟩ := h.shape x
      rw [h.split x, hdue x, if_pos rfl, List.singleton_append] at hshape
      exact close_last hitems hshape.symm

theorem Ordered.known_of_due (h : Ordered isClient s) {item : Item} {items : List Item}
    (hdue : due s id = item :: items) (hclient : isClient = true) : s.known id = true := by
  by_contra hk
  have hnil := (h.known hclient id (by simpa using hk)).2
  rw [hdue] at hnil
  exact List.cons_ne_nil _ _ hnil

theorem handleMessage_spec {status : ℕ} {payload : Payload}
    (hst : status = kStreamOpened ∨ status = kStreamClosed) (hk : isClient = true → s.known id = true) :
    ∃ known : ℕ → Bool, (∀ x, known x = false → s.known x = false) ∧
      handleMessage isClient s id status payload = { s with
        known := known
        log := Function.update s.log id
          (s.log id ++ [if status = kStreamClosed then .close else .data payload]) } := by
  unfold handleMessage
  split_ifs with hfound hclosed hclosed
  · refine ⟨_, fun x hx => ?_, rfl⟩
    by_cases he : x = id
    · simp [he] at hx
    · simpa [he] using hx
  · refine ⟨_, fun x hx => ?_, rfl⟩
    by_cases he : x = id
    · simp [he] at hx
    · simpa [he] using hx
  · exact ⟨s.known, fun _ hx => hx, rfl⟩
  · cases isClient with
    | true => exact absurd (.inl (hk rfl)) hfound
    | false => exact absurd (.inr ⟨rfl, hst.resolve_right hclosed⟩) hfound

theorem Ordered.receive (h : Ordered isClient s) {frame : Frame} {rest : List Frame}
    (hr : s.reader = .idle) (hc : s.channel = frame :: rest) :
    Ordered isClient (handleFrame isClient { s with channel := rest } frame) := by
  cases frame with
  | polling =>
    have hdue : ∀ x, due (handleFrame isClient { s with channel := rest } .polling) x = due s x :=
      fun _ => due_polling hr hc
    constructor
    · intro x
      rw [hdue]
      exact h.split x
    · exact h.shape
    · exact h.status
    · intro hclient x hk
      rw [hdue]
      exact h.known hclient x hk
  | fallbackData seqId payload =>
    have hdue : ∀ x, due s x = (if x = seqId then [.data (.fallback payload)] else []) ++
        due { s with channel := rest } x := by
      intro x
      rw [due_receive hr hc (by simp), frameItem_fallbackData]
      split_ifs <;> rfl
    obtain ⟨known, hknown, hm⟩ := @handleMessage_spec isClient { s with channel := rest } seqId kStreamOpened
      (.fallback payload) (.inl rfl) (h.known_of_due ((hdue seqId).trans (by rw [if_pos rfl]; rfl)))
    rw [handleFrame, hm]
    exact h.logged rfl ⟨rfl, rfl⟩ hdue (fun e he => he) fun x hx => .inl (hknown x hx)
  | streamClose y =>
    have hdue : ∀ x, due s x = (if x = y then [.close] else []) ++ due { s with channel := rest } x := by
      intro x
      rw [due_receive hr hc (by simp), frameItem_streamClose]
      split_ifs <;> rfl
    refine h.logged rfl ⟨rfl, rfl⟩ hdue (fun e he => he) fun x hx => ?_
    by_cases hxy : x = y
    · exact .inr ⟨hxy, rfl⟩
    · exact .inl (by simpa [handleFrame, Function.update_of_ne hxy] using hx)

theorem Ordered.popped (h : Ordered isClient s) {e : QueueElement} {queue : Queue}
    (hr : s.reader = .draining) (hp : s.queue.pop = .ok (e, queue)) :
    Ordered isClient (handleMessage isClient { s with queue := queue } e.seqId e.status
      (.shm e.offsetInShmBuf)) := by
  have hcontents := (Queue.pop_ok hp).1
  have hdue : ∀ x, due s x = (if x = e.seqId then [elementItem e] else []) ++ due { s with queue := queue } x := by
    intro x
    rw [due_of_busy (by simp [hr]), due_of_busy (by simp [hr]), ringItems_pop hp, List.append_assoc]
    simp only [eq_comm (a := x), ringItems]
  obtain ⟨known, hknown, hm⟩ := @handleMessage_spec isClient { s with queue := queue } e.seqId e.status
    (.shm e.offsetInShmBuf) (h.status e (by simp [hcontents]))
    (h.known_of_due ((hdue e.seqId).trans (by rw [if_pos rfl]; rfl)))
  rw [hm]
  exact h.logged rfl ⟨rfl, rfl⟩ hdue (fun x hx => by simp [hcontents, hx]) fun x hx => .inl (hknown x hx)

theorem Ordered.kept (h : Ordered isClient s) (hq : t.queue.contents = s.queue.contents)
    (hdue : ∀ id, due t id = due s id)
    (hsame : t.sent = s.sent ∧ t.closed = s.closed ∧ t.known = s.known ∧ t.log = s.log) : Ordered isClient t := by
  obtain ⟨h1, h2, h3, h4⟩ := hsame
  constructor
  · intro x
    rw [h1, h4, hdue]
    exact h.split x
  · rw [h1, h2]
    exact h.shape
  · rw [hq]
    exact h.status
  · intro hclient x hk
    rw [h3] at hk
    rw [h2, hdue]
    exact h.known hclient x hk

theorem due_reader (hq : t.queue.contents = s.queue.contents) (hc : t.channel = s.channel) (hs : s.reader ≠ .idle)
    (ht : t.reader ≠ .idle ∨ s.queue.contents = []) (id : ℕ) : due t id = due s id := by
  have hring : ringItems t id = ringItems s id := by
    rw [ringItems, ringItems, hq]
  rw [due_of_busy hs, ← hc, ← hring]
  rcases ht with ht | hnil
  · exact due_of_busy ht
  · have hempty : ringItems t id = [] := by
      rw [ringItems, hq, hnil]
      rfl
    rw [due_of_ring_nil hempty, hempty]
    rfl

theorem Ordered.step (h : Ordered isClient s) (hok : Announced s a) (hs : step isClient s a = some t) :
    Ordered isClient t := by
  cases a with
  | put id offset =>
    simp only [Delivery.step, Option.ite_none_right_eq_some] at hs
    obtain ⟨⟨hready, -⟩, hs⟩ := hs
    obtain ⟨queue, hput, rfl⟩ := enqueue_eq hs
    have hopen : s.closed id = false := by
      simp_all [ready]
    have := h.enqueued (Function.update s.pc id .marking) hput (c := false) (.inl rfl) hopen hok
      (by simp [elementItem, kStreamOpened, kStreamClosed])
    rw [← hopen, Function.update_eq_self] at this
    exact this
  | closePut id =>
    simp only [Delivery.step, Option.ite_none_right_eq_some] at hs
    obtain ⟨⟨hready, -⟩, hs⟩ := hs
    obtain ⟨queue, hput, rfl⟩ := enqueue_eq hs
    have hopen : s.closed id = false := by
      simp_all [ready]
    exact h.enqueued (e := closeElement id) (Function.update s.pc id .marking) hput (.inr rfl) hopen hok
      (by simp [elementItem, closeElement])
  | mark id =>
    simp only [Delivery.step, Option.ite_none_right_eq_some, Option.some.injEq] at hs
    obtain ⟨-, rfl⟩ := hs
    have hq : s.queue.markWorking.2.contents = s.queue.contents := by
      simp only [Queue.markWorking]
      split_ifs <;> rfl
    refine h.kept hq (fun x => ?_) ⟨rfl, rfl, rfl, rfl⟩
    simp only [due, ringItems, hq]
    rfl
  | wake id =>
    simp only [Delivery.step, Option.ite_none_right_eq_some, Option.some.injEq] at hs
    obtain ⟨-, rfl⟩ := hs
    exact h.kept rfl (fun x => (@due_send s x .polling (.inl rfl)).trans (List.append_nil _))
      ⟨rfl, rfl, rfl, rfl⟩
  | enterFallback id =>
    obtain rfl := Option.some.inj hs
    exact h.kept rfl (fun _ => rfl) ⟨rfl, rfl, rfl, rfl⟩
  | reset id =>
    simp only [Delivery.step, Option.ite_none_right_eq_some, Option.some.injEq] at hs
    obtain ⟨-, rfl⟩ := hs
    exact h.kept rfl (fun _ => rfl) ⟨rfl, rfl, rfl, rfl⟩
  | sendFallback id payload =>
    simp only [Delivery.step, Option.ite_none_right_eq_some, Option.some.injEq] at hs
    obtain ⟨⟨hready, -⟩, rfl⟩ := hs
    have hopen : s.closed id = false := by
      simp_all [ready]
    have := h.transmitted (frameItem_fallbackData · id payload) (c := false) hok hopen (by simp)
    rw [← hopen, Function.update_eq_self] at this
    exact this
  | sendClose id =>
    simp only [Delivery.step, Option.ite_none_right_eq_some, Option.some.injEq] at hs
    obtain ⟨⟨hready, -⟩, rfl⟩ := hs
    have hopen : s.closed id = false := by
      simp_all [ready]
    exact h.transmitted (frameItem_streamClose · id) hok hopen (by simp)
  | receive =>
    simp only [Delivery.step] at hs
    split at hs
    · next frame rest hr hc =>
      obtain rfl := Option.some.inj hs
      exact h.receive hr hc
    · cases hs
  | pop =>
    simp only [Delivery.step, Option.ite_none_right_eq_some] at hs
    obtain ⟨hr, hs⟩ := hs
    split at hs
    · obtain rfl := Option.some.inj hs
      exact h.kept rfl (due_reader rfl rfl (by simp [hr]) (.inl (by simp))) ⟨rfl, rfl, rfl, rfl⟩
    · next e queue hpop =>
      obtain rfl := Option.some.inj hs
      exact h.popped hr hpop
  | unmark =>
    simp only [Delivery.step, Option.ite_none_right_eq_some, Option.some.injEq] at hs
    obtain ⟨hr, rfl⟩ := hs
    exact h.kept rfl (due_reader rfl rfl (by simp [hr]) (.inl (by simp))) ⟨rfl, rfl, rfl, rfl⟩
  | check =>
    simp only [Delivery.step, Option.ite_none_right_eq_some, Option.some.injEq] at hs
    obtain ⟨hr, rfl⟩ := hs
    refine h.kept rfl (due_reader rfl rfl (by simp [hr]) ?_) ⟨rfl, rfl, rfl, rfl⟩
    by_cases hsize : s.queue.size = 0
    · exact .inr (Queue.size_eq_zero.mp hsize)
    · exact .inl (by simp [hsize])
  | remark =>
    simp only [Delivery.step, Option.ite_none_right_eq_some, Option.some.injEq] at hs
    obtain ⟨hr, rfl⟩ := hs
    exact h.kept rfl (due_reader rfl rfl (by simp [hr]) (.inl (by simp))) ⟨rfl, rfl, rfl, rfl⟩

theorem ordered_initial (cap : ℕ) {known : ℕ → Bool} (hknown : isClient = true → ∀ id, known id = true) :
    Ordered isClient (initial cap known) := by
  have hempty : (initial cap known).queue.contents = [] := CircularQueue.contents_empty cap _
  constructor
  · intro id
    rw [due, ringItems, hempty]
    rfl
  · intro id
    exact ⟨[], by simp, rfl⟩
  · simp [hempty]
  · intro hclient id hk
    exact absurd (hknown hclient id) (by simpa [initial] using hk)

theorem delivered_in_order (cap : ℕ) (hs : (system isClient cap).Reachable Announced s) (id : ℕ) :
    s.log id <+: s.sent id ∧
      (∀ left right, s.log id = left ++ .close :: right → right = [] ∧ s.log id = s.sent id) ∧
      (s.channel = [] → s.reader = .idle → (∀ x, s.pc x = .idle) → s.log id = s.sent id) := by
  have h : Ordered isClient s ∧ Awake s := by
    refine hs.invariant (I := fun s => Ordered isClient s ∧ Awake s) ?_ ?_
    · rintro s ⟨known, hknown, rfl⟩
      exact ⟨ordered_initial cap hknown, awake_initial cap known⟩
    · intro s a t h hok hstep
      exact ⟨h.1.step hok hstep, h.2.step hstep⟩
  obtain ⟨hord, hawake⟩ := h
  have hsplit := hord.split id
  refine ⟨⟨_, hsplit.symm⟩, ?_, ?_⟩
  · intro left right hlog
    obtain ⟨items, hitems, hshape⟩ := hord.shape id
    have hlast := hshape.symm.trans hsplit
    rw [hlog, List.append_assoc, List.cons_append] at hlast
    obtain ⟨hright, hrest⟩ := List.append_eq_nil_iff.mp (close_last hitems hlast).2
    exact ⟨hright, by rw [hsplit, hrest, List.append_nil]⟩
  · intro hchannel hreader hpc
    have hring : s.queue.contents = [] := by
      by_contra hne
      rcases hawake.ring hne with hp | hp | ⟨x, hp⟩
      · simp [hchannel] at hp
      · exact hp hreader
      · exact hp (hpc x)
    have hnil : ringItems s id = [] := by
      rw [ringItems, hring]
      rfl
    rw [hsplit, due_of_ring_nil hnil, hchannel]
    exact (List.append_nil _).symm

def mixedRun : List Act :=
  [.put 1 7, .mark 1, .wake 1, .enterFallback 1, .sendFallback 1 [3], .receive, .pop, .pop, .unmark, .check, .reset 1,
    .put 1 9, .receive, .mark 1, .wake 1, .receive, .pop, .closePut 1, .mark 1, .pop]

theorem delivered_in_order_mixed : ∃ s : State,
    s.log 1 = [.data (.shm 7), .data (.fallback [3]), .data (.shm 9), .close] ∧ s.log 1 <+: s.sent 1 := by
  have hrun : (((system false 4).restrict Announced).runFrom (initial 4 fun _ => false) mixedRun).map (·.log 1) =
      some [.data (.shm 7), .data (.fallback [3]), .data (.shm 9), .close] := by
    decide
  obtain ⟨s, hs, hlog⟩ := Option.map_eq_some_iff.mp hrun
  have hr : ((system false 4).restrict Announced).Run s :=
    .runFrom (fun _ _ _ => trivial) (.initial ⟨fun _ => false, by simp, rfl⟩) hs
  exact ⟨s, hlog, (delivered_in_order 4 (.of_restrict hr) 1).1⟩

/-- Thread 2 owes the wake-up for the ring when thread 1 puts its first message there and its second one on the
channel. -/
def overtakingRun : List Act :=
  [.put 2 5, .mark 2, .put 1 7, .mark 1, .enterFallback 1, .sendFallback 1 [3], .receive, .wake 2, .receive, .pop,
    .pop]

theorem fallback_overtakes_ring : ∃ s, (system false 4).Run s ∧
    s.sent 1 = [.data (.shm 7), .data (.fallback [3])] ∧ s.log 1 = [.data (.fallback [3]), .data (.shm 7)] := by
  have hrun : ((system false 4).runFrom (initial 4 fun _ => false) overtakingRun).map
      (fun s => (s.sent 1, s.log 1)) =
      some ([.data (.shm 7), .data (.fallback [3])], [.data (.fallback [3]), .data (.shm 7)]) := by
    decide
  obtain ⟨s, hs, he⟩ := Option.map_eq_some_iff.mp hrun
  exact ⟨s, System.Reachable.runFrom (fun _ _ _ => trivial) (.initial ⟨fun _ => false, by simp, rfl⟩) hs,
    congrArg Prod.fst he, congrArg Prod.snd he⟩

end Shmipc.Delivery
