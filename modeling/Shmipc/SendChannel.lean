import Shmipc.Library.Transition

/-!
The send channel of a session: the threads in `wait_for_send`, the write loop, and the thread that
wins the exchange in `Session::close`. A pushed item is known by the `id` of its promise.
-/

namespace Shmipc.SendChannel

open Transition

structure SendReady where
  id : ℕ
  hdr : List UInt8
  body : List UInt8
deriving DecidableEq

inductive Promise
  | pending
  | fulfilled
  | dropped
deriving DecidableEq

-- `exiting` and `stopping` are inside `exit_err`, before the exchange and after winning it
inductive WriteLoop
  | popping
  | header (ready : SendReady)
  | body (ready : SendReady)
  | setting (ready : SendReady)
  | exiting (ready : SendReady)
  | stopping (ready : SendReady)
  | returned
deriving DecidableEq

structure State where
  queue : List SendReady
  stopped : Bool
  loop : WriteLoop
  shutdown : Bool
  closing : Bool
  promise : ℕ → Option Promise

inductive Act
  | push (ready : SendReady)
  | pushTimeout (ready : SendReady)
  | pop
  | write (ok : Bool)
  | setValue
  | exitErr
  | close
  | stop
deriving DecidableEq

def isFull (cap : ℕ) (s : State) : Bool := cap ≠ 0 && s.queue.length ≥ cap

def settle (s : State) (id : ℕ) (p : Promise) : ℕ → Option Promise := Function.update s.promise id (some p)

def step (cap : ℕ) (s : State) : Act → Option State
  | .push ready =>
    if s.promise ready.id ≠ none then none
    else if s.stopped then some s
    else if isFull cap s then none
    else some { s with queue := s.queue ++ [ready], promise := settle s ready.id .pending }
  | .pushTimeout _ => if s.stopped = false ∧ isFull cap s then some s else none
  | .pop =>
    match s.loop, s.queue with
    | .popping, ready :: queue => some { s with queue := queue, loop := .header ready }
    -- the wait ends on an empty queue only when the channel is stopped
    | .popping, [] => if s.stopped then some { s with loop := .returned } else none
    | _, _ => none
  | .write ok =>
    match s.loop with
    | .header ready => some { s with loop := if ready.hdr = [] ∨ ok then .body ready else .exiting ready }
    | .body ready => some { s with loop := if ready.body = [] ∨ ok then .setting ready else .exiting ready }
    | _ => none
  | .setValue =>
    match s.loop with
    | .setting ready => some { s with loop := .popping, promise := settle s ready.id .fulfilled }
    | _ => none
  | .exitErr =>
    match s.loop with
    | .exiting ready =>
      -- another thread is closing: the loop returns and does not wait for the channel to stop
      if s.shutdown then some { s with loop := .returned, promise := settle s ready.id .dropped }
      else some { s with shutdown := true, loop := .stopping ready }
    | .stopping ready =>
      some { s with stopped := true, loop := .returned, promise := settle s ready.id .dropped }
    | _ => none
  | .close => some (if s.shutdown then s else { s with shutdown := true, closing := true })
  | .stop => if s.closing then some { s with stopped := true, closing := false } else none

def initial : State where
  queue := []
  stopped := false
  loop := .popping
  shutdown := false
  closing := false
  promise := fun _ => none

def system (cap : ℕ) : System State Act where
  initial s := s = initial
  step := step cap

def WriteLoop.hand : WriteLoop → List SendReady
  | .header ready | .body ready | .setting ready | .exiting ready | .stopping ready => [ready]
  | .popping | .returned => []

def WriteLoop.left : WriteLoop → Bool
  | .exiting _ | .stopping _ | .returned => true
  | _ => false

/-- Writes fail only while the channel is empty, and nothing is pushed between a failed write and the stop. -/
def Quiet (s : State) : Act → Prop
  | .push _ => s.stopped = true ∨ s.loop.left = false
  | .write ok => ok = true ∨ s.queue = []
  | _ => True

instance (s : State) : (a : Act) → Decidable (Quiet s a)
  | .push _ => inferInstanceAs (Decidable (_ ∨ _))
  | .write _ => inferInstanceAs (Decidable (_ ∨ _))
  | .pushTimeout _ | .pop | .setValue | .exitErr | .close | .stop => .isTrue trivial

structure Accounted (s : State) : Prop where
  pending : ∀ id, s.promise id = some .pending → ∃ ready ∈ s.loop.hand ++ s.queue, ready.id = id
  empty : s.loop.left = true → s.queue = []

variable {cap : ℕ} {s t : State} {a : Act} {ready : SendReady}

theorem Accounted.of_same (h : Accounted s) (hp : t.promise = s.promise)
    (hm : t.loop.hand ++ t.queue = s.loop.hand ++ s.queue) (he : t.loop.left = true → t.queue = []) :
    Accounted t := by
  refine ⟨fun id hid => ?_, he⟩
  rw [hp] at hid
  rw [hm]
  exact h.pending id hid

theorem Accounted.pushed (h : Accounted s) (hl : s.loop.left = false) :
    Accounted { s with queue := s.queue ++ [ready], promise := settle s ready.id .pending } := by
  constructor
  · intro id hid
    by_cases he : id = ready.id
    · exact ⟨ready, by simp, he.symm⟩
    · simp only [settle, Function.update_of_ne he] at hid
      obtain ⟨r, hr, hrid⟩ := h.pending id hid
      refine ⟨r, ?_, hrid⟩
      rw [← List.append_assoc]
      exact List.mem_append_left _ hr
  · intro hleft
    simp [hl] at hleft

-- the item in hand is settled and leaves the loop
theorem Accounted.settled {p : Promise} {l : WriteLoop} (h : Accounted s) (hp : p ≠ .pending)
    (hhand : s.loop.hand = [ready]) (hl : l.hand = []) (he : l.left = true → s.queue = []) :
    Accounted { s with loop := l, promise := settle s ready.id p } := by
  refine ⟨fun id hid => ?_, he⟩
  have hne : id ≠ ready.id := by
    rintro rfl
    simp only [settle, Function.update_self, Option.some.injEq] at hid
    exact hp hid
  simp only [settle, Function.update_of_ne hne] at hid
  obtain ⟨r, hr, hrid⟩ := h.pending id hid
  rw [hhand, List.singleton_append, List.mem_cons] at hr
  refine ⟨r, ?_, hrid⟩
  rw [hl, List.nil_append]
  apply hr.resolve_left
  rintro rfl
  exact hne hrid.symm

theorem Accounted.step (h : Accounted s) (hok : Quiet s a) (hs : step cap s a = some t) : Accounted t := by
  cases a with
  | push ready =>
    simp only [SendChannel.step] at hs
    split_ifs at hs with hnew hstop hfull
    · exact Option.some.inj hs ▸ h
    · exact Option.some.inj hs ▸ h.pushed (hok.resolve_left hstop)
  | pushTimeout ready =>
    simp only [SendChannel.step, Option.ite_none_right_eq_some, Option.some.injEq] at hs
    exact hs.2 ▸ h
  | pop =>
    simp only [SendChannel.step] at hs
    split at hs
    · next ready queue hl hq =>
      obtain rfl := Option.some.inj hs
      refine h.of_same rfl ?_ ?_
      · simp [hl, hq, WriteLoop.hand]
      · simp [WriteLoop.left]
    · next hl hq =>
      simp only [Option.ite_none_right_eq_some, Option.some.injEq] at hs
      obtain ⟨-, rfl⟩ := hs
      refine h.of_same rfl ?_ ?_
      · simp [hl, WriteLoop.hand]
      · exact fun _ => hq
    · cases hs
  | write ok =>
    simp only [SendChannel.step] at hs
    split at hs
    · next ready hl =>
      obtain rfl := Option.some.inj hs
      refine h.of_same rfl ?_ ?_
      · split_ifs <;> simp [hl, WriteLoop.hand]
      · split_ifs with hw
        · simp [WriteLoop.left]
        · exact fun _ => hok.resolve_left fun he => hw (.inr he)
    · next ready hl =>
      obtain rfl := Option.some.inj hs
      refine h.of_same rfl ?_ ?_
      · split_ifs <;> simp [hl, WriteLoop.hand]
      · split_ifs with hw
        · simp [WriteLoop.left]
        · exact fun _ => hok.resolve_left fun he => hw (.inr he)
    · cases hs
  | setValue =>
    simp only [SendChannel.step] at hs
    split at hs
    · next ready hl =>
      obtain rfl := Option.some.inj hs
      refine h.settled (by decide) (by rw [hl, WriteLoop.hand]) rfl ?_
      simp [WriteLoop.left]
    · cases hs
  | exitErr =>
    simp only [SendChannel.step] at hs
    split at hs
    · next ready hl =>
      have hq : s.queue = [] := h.empty (by rw [hl, WriteLoop.left])
      split_ifs at hs
      · obtain rfl := Option.some.inj hs
        exact h.settled (by decide) (by rw [hl, WriteLoop.hand]) rfl (fun _ => hq)
      · obtain rfl := Option.some.inj hs
        refine h.of_same rfl ?_ ?_
        · simp [hl, WriteLoop.hand]
        · exact fun _ => hq
    · next ready hl =>
      have hq : s.queue = [] := h.empty (by rw [hl, WriteLoop.left])
      obtain rfl := Option.some.inj hs
      have hsettled := h.settled (p := .dropped) (l := .returned) (by decide) (by rw [hl, WriteLoop.hand])
        rfl (fun _ => hq)
      exact ⟨hsettled.pending, hsettled.empty⟩
    · cases hs
  | close =>
    simp only [SendChannel.step, Option.some.injEq] at hs
    split_ifs at hs <;> subst hs
    · exact h
    · exact ⟨h.pending, h.empty⟩
  | stop =>
    simp only [SendChannel.step, Option.ite_none_right_eq_some, Option.some.injEq] at hs
    obtain ⟨-, rfl⟩ := hs
    exact ⟨h.pending, h.empty⟩

theorem accounted_of_reachable (hs : (system cap).Reachable Quiet s) : Accounted s := by
  refine hs.invariant ?_ (fun s a t h hok hstep => h.step hok hstep)
  rintro s rfl
  exact ⟨fun id hid => by simp [initial] at hid, fun _ => rfl⟩

theorem no_sender_waits (hs : (system cap).Reachable Quiet s) (hl : s.loop = .returned) :
    s.queue = [] ∧ ∀ id p, s.promise id = some p → p = .fulfilled ∨ p = .dropped := by
  have h := accounted_of_reachable hs
  have hq : s.queue = [] := h.empty (by rw [hl, WriteLoop.left])
  refine ⟨hq, fun id p hid => ?_⟩
  cases p with
  | fulfilled => exact .inl rfl
  | dropped => exact .inr rfl
  | pending =>
    obtain ⟨r, hr, -⟩ := h.pending id hid
    simp [hl, hq, WriteLoop.hand] at hr

theorem no_sender_waits_failed_write : ∃ s : State, s.promise 1 = some .fulfilled ∧ s.promise 2 = some .dropped ∧
    s.queue = [] ∧ ∀ id p, s.promise id = some p → p = .fulfilled ∨ p = .dropped := by
  have hrun : (((system 4096).restrict Quiet).runFrom initial [.push ⟨1, [], [7]⟩, .push ⟨2, [], [8]⟩, .pop,
      .write true, .write true, .setValue, .pop, .write true, .write false, .exitErr, .exitErr, .push ⟨3, [], [9]⟩]).map
      (fun s => (s.loop, s.stopped, s.promise 1, s.promise 2)) =
      some (.returned, true, some .fulfilled, some .dropped) := by
    decide
  obtain ⟨s, hs, he⟩ := Option.map_eq_some_iff.mp hrun
  simp only [Prod.mk.injEq] at he
  have hquiet : ((system 4096).restrict Quiet).Run s := .runFrom (fun _ _ _ => trivial) (.initial rfl) hs
  exact ⟨s, he.2.2.1, he.2.2.2, no_sender_waits (.of_restrict hquiet) he.1⟩

theorem sender_left_waiting : ∃ s, (system 4096).Run s ∧ s.loop = .returned ∧ s.stopped = true ∧
    s.queue = [⟨2, [], [8]⟩] ∧ s.promise 2 = some .pending := by
  have hrun : ((system 4096).runFrom initial [.push ⟨1, [], [7]⟩, .push ⟨2, [], [8]⟩, .pop, .write true,
      .write false, .exitErr, .exitErr]).map (fun s => (s.loop, s.stopped, s.queue, s.promise 2)) =
      some (.returned, true, [⟨2, [], [8]⟩], some .pending) := by
    decide
  obtain ⟨s, hs, he⟩ := Option.map_eq_some_iff.mp hrun
  simp only [Prod.mk.injEq] at he
  exact ⟨s, .runFrom (fun _ _ _ => trivial) (.initial rfl) hs, he⟩

end Shmipc.SendChannel
