import Shmipc.Library.Transition

/-!
A user who reads from a stream while the thread of the session fills it and half-closes it. A step
is one section under `pending_mtx`, one access to the state, or one section under `notify_mtx`; the
receive buffer stands for the bytes it holds, a message for the bytes of its slices.
-/

namespace Shmipc.StreamRead

open Transition

inductive StreamState
  | opened
  | closed
  | halfClosed
deriving DecidableEq

inductive Op
  | read
  | readBytes (size : ℕ)
  | peek (size : ℕ)
  | discard (size : ℕ)
deriving DecidableEq

namespace Op

def minSize (op : Op) (len : ℕ) : Option ℕ :=
  match op with
  | read => if len = 0 then some 1 else none
  | readBytes size | peek size | discard size => if len < size then some size else none

def consumes (op : Op) (len : ℕ) : ℕ :=
  match op with
  | read => len
  | readBytes size | discard size => size
  | peek _ => 0

end Op

-- `endOfStream` keeps the state that the reader has seen
inductive ReadMore
  | ok
  | endOfStream (seen : StreamState)
  | streamClosed
deriving DecidableEq

inductive Reader
  | idle
  | moving (op : Op) (min : ℕ)
  | loading (op : Op) (min : ℕ)
  | locking (op : Op) (min : ℕ)
  | waitPending (op : Op) (min : ℕ)
  | waitState (op : Op) (min : ℕ)
  | asleep (op : Op) (min : ℕ)
  | movingAgain (op : Op) (min : ℕ)
  | loadingAgain (op : Op) (min : ℕ)
  | returned (op : Op) (min : ℕ) (r : ReadMore)
  | cleaning
deriving DecidableEq

inductive SessionThread
  | idle
  | pushed
  | notifying
  | cleaning
  | recycling
deriving DecidableEq

/-- `arrived` and `taken` are the bytes filled and the bytes consumed so far, `due` what had been
filled when the stream was half-closed. -/
structure State where
  state : StreamState
  pending : List (List UInt8)
  recv : List UInt8
  session : SessionThread
  reader : Reader
  arrived : List UInt8
  taken : List UInt8
  due : Option (List UInt8)

inductive Act
  | fill (message : List UInt8)
  | halfClose
  | session
  | call (op : Op)
  | reader
  | close
deriving DecidableEq

def Reader.holdsNotify : Reader → Bool
  | .waitPending _ _ | .waitState _ _ => true
  | _ => false

def Reader.notified : Reader → Reader
  | .asleep op min => .locking op min
  | r => r

def consume (s : State) (op : Op) : State :=
  { s with
    recv := s.recv.drop (op.consumes s.recv.length)
    taken := s.taken ++ s.recv.take (op.consumes s.recv.length)
    reader := .idle }

def movePendingData (s : State) (reader : List UInt8 → Reader) : State :=
  { s with recv := s.recv ++ s.pending.flatten, pending := [], reader := reader (s.recv ++ s.pending.flatten) }

def readerStep (s : State) : Option State :=
  match s.reader with
  | .moving op min => some (movePendingData s fun recv =>
      if min ≤ recv.length then .returned op min .ok
      else if recv.length = 0 then .loading op min
      else .locking op min)
  | .loading op min => some { s with reader :=
      if s.state ≠ .opened then .returned op min (.endOfStream s.state) else .locking op min }
  | .locking op min => some { s with reader := .waitPending op min }
  | .waitPending op min => some { s with reader := if s.pending ≠ [] then .movingAgain op min else .waitState op min }
  | .waitState op min => some { s with reader := if s.state ≠ .opened then .movingAgain op min else .asleep op min }
  -- a spurious wakeup
  | .asleep op min => some { s with reader := .locking op min }
  | .movingAgain op min => some (movePendingData s fun recv =>
      if min ≤ recv.length then .returned op min .ok else .loadingAgain op min)
  | .loadingAgain op min => some { s with reader :=
      match s.state with
      | .opened => .locking op min
      | .halfClosed => .returned op min (.endOfStream .halfClosed)
      | .closed => .returned op min .streamClosed }
  | .returned op _ .ok => some (consume s op)
  | .returned _ _ _ => some { s with reader := .idle }
  | .cleaning => some { s with pending := [], recv := [], reader := .idle }
  | .idle => none

def sessionStep (s : State) : Option State :=
  match s.session with
  | .pushed => some { s with session := if s.state = .closed then .cleaning else .notifying }
  | .notifying =>
    if s.reader.holdsNotify then none else some { s with session := .idle, reader := s.reader.notified }
  | .cleaning => some { s with session := .recycling, pending := [] }
  | .recycling => some { s with session := .idle, recv := [] }
  | .idle => none

def step (s : State) : Act → Option State
  | .fill message =>
    if s.session = .idle then
      some { s with session := .pushed, pending := s.pending ++ [message], arrived := s.arrived ++ message }
    else none
  | .halfClose =>
    if s.session = .idle then
      if s.state = .opened then some { s with session := .notifying, state := .halfClosed, due := some s.arrived }
      else some s
    else none
  | .session => sessionStep s
  | .call op =>
    if s.reader = .idle then
      match op.minSize s.recv.length with
      | some min => some { s with reader := .moving op min }
      | none => some (consume s op)
    else none
  | .reader => readerStep s
  | .close =>
    if s.reader = .idle then
      some { s with state := .closed, reader := if s.state = .closed then .idle else .cleaning }
    else none

def initial : State where
  state := .opened
  pending := []
  recv := []
  session := .idle
  reader := .idle
  arrived := []
  taken := []
  due := none

def system : System State Act where
  initial s := s = initial
  step := step

def Reader.window : Reader → Option ℕ
  | .loading _ min | .loadingAgain _ min => some min
  | _ => none

/-- The stream is not half-closed in the window of a reader to whom bytes are pending. -/
def Quiet (s : State) : Act → Prop
  | .halfClose => s.state = .opened → s.reader.window ≠ none → s.pending.flatten = []
  | _ => True

instance (s : State) : (a : Act) → Decidable (Quiet s a)
  | .halfClose => inferInstanceAs (Decidable (_ → _ → _))
  | .fill _ | .session | .call _ | .reader | .close => .isTrue trivial

def Moved (s : State) : Prop := ∃ d, s.due = some d ∧ d <+: s.taken ++ s.recv

def EndsAfterData (s : State) : Prop :=
  ∀ op min, s.reader = .returned op min (.endOfStream .halfClosed) → Moved s ∧ s.recv.length < min

structure Inv (s : State) : Prop where
  conserved : s.state ≠ .closed → s.taken ++ s.recv ++ s.pending.flatten = s.arrived
  cleaning : s.session = .cleaning ∨ s.session = .recycling ∨ s.reader = .cleaning → s.state = .closed
  due : s.state = .halfClosed → ∃ d, s.due = some d ∧ d <+: s.arrived
  short : ∀ min, s.reader.window = some min → s.recv.length < min

structure Settled (s : State) : Prop where
  window : s.state = .halfClosed → s.reader.window ≠ none → Moved s
  ends : ∀ op min, s.reader = .returned op min (.endOfStream .halfClosed) →
    s.state = .halfClosed ∧ Moved s ∧ s.recv.length < min

variable {s t : State} {a : Act} {r : Reader} {next : List UInt8 → Reader} {op : Op}

theorem Inv.set_reader (h : Inv s) (hr : r ≠ .cleaning) (hw : ∀ min, r.window = some min → s.recv.length < min) :
    Inv { s with reader := r } where
  conserved := h.conserved
  cleaning hc := by
    obtain hc | hc | hc := hc
    · exact h.cleaning (.inl hc)
    · exact h.cleaning (.inr (.inl hc))
    · exact absurd hc hr
  due := h.due
  short := hw

theorem Inv.movePendingData (h : Inv s) (hr : ∀ recv, next recv ≠ .cleaning)
    (hw : ∀ recv min, (next recv).window = some min → recv.length < min) : Inv (movePendingData s next) where
  conserved hs := by
    have hc := h.conserved hs
    simpa [StreamRead.movePendingData] using hc
  cleaning hc := by
    obtain hc | hc | hc := hc
    · exact h.cleaning (.inl hc)
    · exact h.cleaning (.inr (.inl hc))
    · exact absurd hc (hr _)
  due := h.due
  short min := hw _ min

theorem Inv.consume (h : Inv s) : Inv (consume s op) where
  conserved hs := by
    have hc := h.conserved hs
    simpa [StreamRead.consume] using hc
  cleaning hc := by
    obtain hc | hc | hc := hc
    · exact h.cleaning (.inl hc)
    · exact h.cleaning (.inr (.inl hc))
    · cases hc
  due := h.due
  short min hmin := by cases hmin

theorem Inv.readerStep (h : Inv s) (hs : readerStep s = some t) : Inv t := by
  unfold StreamRead.readerStep at hs
  split at hs <;> cases hs
  · refine h.movePendingData (fun recv => ?_) (fun recv min => ?_)
    · split_ifs <;> simp
    · split_ifs with h1 h2 <;> simp [Reader.window]
      omega
  · refine h.set_reader ?_ (fun min => ?_)
    · split_ifs <;> simp
    · split_ifs <;> simp [Reader.window]
  · exact h.set_reader (by simp) (by simp [Reader.window])
  · refine h.set_reader ?_ (fun min => ?_)
    · split_ifs <;> simp
    · split_ifs <;> simp [Reader.window]
  · refine h.set_reader ?_ (fun min => ?_)
    · split_ifs <;> simp
    · split_ifs <;> simp [Reader.window]
  · exact h.set_reader (by simp) (by simp [Reader.window])
  · refine h.movePendingData (fun recv => ?_) (fun recv min => ?_)
    · split_ifs <;> simp
    · split_ifs with h1 <;> simp [Reader.window]
      omega
  · refine h.set_reader ?_ (fun min => ?_)
    · split <;> simp
    · split <;> simp [Reader.window]
  · exact h.consume
  · exact h.set_reader (by simp) (by simp [Reader.window])
  · next hr =>
    have hclosed := h.cleaning (.inr (.inr hr))
    refine ⟨fun hs => absurd hclosed hs, fun _ => hclosed, h.due, ?_⟩
    simp [Reader.window]

theorem Reader.window_notified (r : Reader) : r.notified.window = r.window := by
  cases r <;> rfl

theorem Reader.notified_eq_cleaning (hr : r.notified = .cleaning) : r = .cleaning := by
  cases r <;> simp_all [Reader.notified]

theorem Inv.sessionStep (h : Inv s) (hs : sessionStep s = some t) : Inv t := by
  unfold StreamRead.sessionStep at hs
  split at hs
  · next hp =>
    cases hs
    refine ⟨h.conserved, fun hc => ?_, h.due, h.short⟩
    by_cases hst : s.state = .closed
    · exact hst
    · simp only [if_neg hst, reduceCtorEq, false_or] at hc
      exact h.cleaning (.inr (.inr hc))
  · split_ifs at hs
    cases hs
    refine ⟨h.conserved, fun hc => ?_, h.due, fun min hmin => ?_⟩
    · simp only [reduceCtorEq, false_or] at hc
      exact h.cleaning (.inr (.inr (Reader.notified_eq_cleaning hc)))
    · rw [Reader.window_notified] at hmin
      exact h.short min hmin
  · next hp =>
    cases hs
    have hclosed := h.cleaning (.inl hp)
    exact ⟨fun hs => absurd hclosed hs, fun _ => hclosed, h.due, h.short⟩
  · next hp =>
    cases hs
    have hclosed := h.cleaning (.inr (.inl hp))
    refine ⟨fun hs => absurd hclosed hs, fun _ => hclosed, h.due, fun min hmin => ?_⟩
    exact (Nat.zero_le _).trans_lt (h.short min hmin)
  · cases hs

theorem Inv.step (h : Inv s) (hs : step s a = some t) : Inv t := by
  cases a with
  | fill message =>
    simp only [StreamRead.step, Option.ite_none_right_eq_some, Option.some.injEq] at hs
    obtain ⟨hp, rfl⟩ := hs
    refine ⟨fun hst => ?_, fun hc => ?_, fun hst => ?_, h.short⟩
    · simp [← h.conserved hst]
    · simp only [reduceCtorEq, false_or] at hc
      exact h.cleaning (.inr (.inr hc))
    · obtain ⟨d, hd, hpre⟩ := h.due hst
      exact ⟨d, hd, hpre.trans (List.prefix_append _ _)⟩
  | halfClose =>
    simp only [StreamRead.step, Option.ite_none_right_eq_some] at hs
    obtain ⟨hp, hs⟩ := hs
    split_ifs at hs with hst
    · cases hs
      refine ⟨fun _ => h.conserved (by simp [hst]), fun hc => ?_, fun _ => ⟨_, rfl, List.prefix_rfl⟩, h.short⟩
      simp only [reduceCtorEq, false_or] at hc
      exact absurd (h.cleaning (.inr (.inr hc))) (by simp [hst])
    · cases hs
      exact h
  | session => exact h.sessionStep hs
  | call op =>
    simp only [StreamRead.step, Option.ite_none_right_eq_some] at hs
    obtain ⟨hr, hs⟩ := hs
    split at hs <;> cases hs
    · exact h.set_reader (by simp) (by simp [Reader.window])
    · exact h.consume
  | reader => exact h.readerStep hs
  | close =>
    simp only [StreamRead.step, Option.ite_none_right_eq_some, Option.some.injEq] at hs
    obtain ⟨hr, rfl⟩ := hs
    refine ⟨fun hst => absurd rfl hst, fun _ => rfl, nofun, fun min hmin => ?_⟩
    split_ifs at hmin <;> cases hmin

theorem inv_initial : Inv initial := by
  refine ⟨fun _ => rfl, ?_, nofun, ?_⟩
  · simp [initial]
  · simp [initial, Reader.window]

theorem inv_of_reachable {ok : State → Act → Prop} (h : system.Reachable ok s) : Inv s := by
  refine h.invariant ?_ ?_
  · rintro s rfl
    exact inv_initial
  · intro s a t hi _ hs
    exact hi.step hs

-- a reader who has moved everything has moved what is due
theorem Inv.moved (h : Inv s) (hst : s.state = .halfClosed) (hp : s.pending.flatten = []) : Moved s := by
  obtain ⟨d, hd, hpre⟩ := h.due hst
  have hc := h.conserved (by simp [hst])
  rw [hp, List.append_nil] at hc
  exact ⟨d, hd, hc ▸ hpre⟩

theorem Inv.moved_movePendingData (h : Inv s) (hst : s.state = .halfClosed) :
    Moved (StreamRead.movePendingData s next) := by
  obtain ⟨d, hd, hpre⟩ := h.due hst
  have hc := h.conserved (by simp [hst])
  rw [List.append_assoc] at hc
  exact ⟨d, hd, hc ▸ hpre⟩

-- steps of the session that change neither the receive buffer nor what is due
theorem Settled.of_same (h : Settled s) (hr : t.reader = s.reader) (hs : t.state = s.state) (hd : t.due = s.due)
    (ht : t.taken = s.taken) (hv : t.recv = s.recv) : Settled t := by
  have hm : Moved s → Moved t := by
    rintro ⟨d, hdue, hpre⟩
    exact ⟨d, hd.trans hdue, by rwa [ht, hv]⟩
  constructor
  · intro hst hw
    exact hm (h.window (hs ▸ hst) (hr ▸ hw))
  · intro op min hret
    obtain ⟨hst, hmoved, hlen⟩ := h.ends op min (hr ▸ hret)
    exact ⟨hs.trans hst, hm hmoved, by rwa [hv]⟩

theorem Settled.of_reader (hw : t.reader.window = none)
    (hr : ∀ op min, t.reader ≠ .returned op min (.endOfStream .halfClosed)) : Settled t where
  window _ h := absurd hw h
  ends op min h := absurd h (hr op min)

theorem Settled.readerStep (hi : Inv s) (h : Settled s) (hs : readerStep s = some t) : Settled t := by
  unfold StreamRead.readerStep at hs
  split at hs <;> cases hs
  · next op min hr =>
    constructor
    · intro hst _
      exact hi.moved_movePendingData hst
    · intro op' min' hret
      simp only [movePendingData] at hret
      split_ifs at hret
      cases hret
  · next op min hr =>
    by_cases hst : s.state = .opened
    · simp only [hst, ne_eq, not_true_eq_false, if_false]
      exact .of_reader rfl (by simp)
    · simp only [ne_eq, hst, not_false_eq_true, if_true]
      refine ⟨fun _ hw => absurd rfl hw, fun op' min' hret => ?_⟩
      simp only [Reader.returned.injEq, ReadMore.endOfStream.injEq] at hret
      obtain ⟨rfl, rfl, hhalf⟩ := hret
      exact ⟨hhalf, h.window hhalf (by simp [hr, Reader.window]), hi.short _ (by simp [hr, Reader.window])⟩
  · exact .of_reader rfl (by simp)
  · refine .of_reader ?_ (fun op' min' => ?_)
    · dsimp only
      split_ifs <;> rfl
    · dsimp only
      split_ifs <;> simp
  · refine .of_reader ?_ (fun op' min' => ?_)
    · dsimp only
      split_ifs <;> rfl
    · dsimp only
      split_ifs <;> simp
  · exact .of_reader rfl (by simp)
  · constructor
    · intro hst _
      exact hi.moved_movePendingData hst
    · intro op' min' hret
      simp only [movePendingData] at hret
      split_ifs at hret
      cases hret
  · next op min hr =>
    cases hst : s.state with
    | opened => exact .of_reader rfl (by simp)
    | closed => exact .of_reader rfl (by simp)
    | halfClosed =>
      refine ⟨fun _ hw => absurd rfl hw, fun op' min' hret => ?_⟩
      cases hret
      exact ⟨rfl, h.window hst (by simp [hr, Reader.window]), hi.short _ (by simp [hr, Reader.window])⟩
  · exact .of_reader rfl (by simp [consume])
  · exact .of_reader rfl (by simp)
  · exact .of_reader rfl (by simp)

theorem Settled.sessionStep (hi : Inv s) (h : Settled s) (hs : sessionStep s = some t) : Settled t := by
  unfold StreamRead.sessionStep at hs
  split at hs
  · cases hs
    exact h.of_same rfl rfl rfl rfl rfl
  · split_ifs at hs
    cases hs
    constructor
    · intro hst hw
      rw [Reader.window_notified] at hw
      exact h.window hst hw
    · intro op min hret
      refine h.ends op min ?_
      cases hr : s.reader <;> simp_all [Reader.notified]
  · cases hs
    exact h.of_same rfl rfl rfl rfl rfl
  · next hp =>
    cases hs
    have hclosed := hi.cleaning (.inr (.inl hp))
    constructor
    · intro hst _
      simp [hclosed] at hst
    · intro op min hret
      have hst := (h.ends op min hret).1
      simp [hclosed] at hst
  · cases hs

theorem Settled.step (hi : Inv s) (h : Settled s) (hq : Quiet s a) (hs : step s a = some t) : Settled t := by
  cases a with
  | fill message =>
    simp only [StreamRead.step, Option.ite_none_right_eq_some, Option.some.injEq] at hs
    obtain ⟨hp, rfl⟩ := hs
    exact h.of_same rfl rfl rfl rfl rfl
  | halfClose =>
    simp only [StreamRead.step, Option.ite_none_right_eq_some] at hs
    obtain ⟨hp, hs⟩ := hs
    split_ifs at hs with hst
    · cases hs
      constructor
      · intro _ hw
        have hc := hi.conserved (by simp [hst])
        rw [hq hst hw, List.append_nil] at hc
        exact ⟨_, rfl, by simp [hc]⟩
      · intro op min hret
        have hhalf := (h.ends op min hret).1
        simp [hst] at hhalf
    · cases hs
      exact h
  | session => exact h.sessionStep hi hs
  | call op =>
    simp only [StreamRead.step, Option.ite_none_right_eq_some] at hs
    obtain ⟨hr, hs⟩ := hs
    split at hs <;> cases hs
    · exact .of_reader rfl (by simp)
    · exact .of_reader rfl (by simp [consume])
  | reader => exact h.readerStep hi hs
  | close =>
    simp only [StreamRead.step, Option.ite_none_right_eq_some, Option.some.injEq] at hs
    obtain ⟨hr, rfl⟩ := hs
    refine .of_reader ?_ (fun op min => ?_)
    · dsimp only
      split_ifs <;> rfl
    · dsimp only
      split_ifs <;> simp

theorem settled_of_reachable (h : system.Reachable Quiet s) : Settled s := by
  have hboth : Inv s ∧ Settled s := by
    refine System.Reachable.invariant (I := fun s => Inv s ∧ Settled s) ?_ ?_ h
    · rintro s rfl
      exact ⟨inv_initial, .of_reader rfl (by simp [initial])⟩
    · rintro s a t ⟨hi, hset⟩ hq hs
      exact ⟨hi.step hs, hset.step hi hq hs⟩
  exact hboth.2

-- the load that follows reports the end of the stream, whatever is pending
theorem late_halfClose (hi : Inv s) (hst : s.state = .opened) (hp : s.session = .idle) (hw : s.reader.window ≠ none)
    (hpend : s.pending.flatten ≠ []) :
    ∃ t u, step s .halfClose = some t ∧ step t .reader = some u ∧ ¬ EndsAfterData u := by
  have hnot : ∀ op min, ¬ EndsAfterData { s with
      session := .notifying, state := .halfClosed, due := some s.arrived,
      reader := .returned op min (.endOfStream .halfClosed) } := by
    intro op min hends
    obtain ⟨⟨d, hd, hpre⟩, _⟩ := hends op min rfl
    simp only [Option.some.injEq] at hd
    subst hd
    have hlen := hpre.length_le
    have hc := congrArg List.length (hi.conserved (by simp [hst]))
    have hpos := List.length_pos_iff.mpr hpend
    simp only [List.length_append] at hlen hc
    omega
  have hclose : step s .halfClose =
      some { s with session := .notifying, state := .halfClosed, due := some s.arrived } := by simp [step, hp, hst]
  have hload : ∀ op min, s.reader = .loading op min ∨ s.reader = .loadingAgain op min →
      step { s with session := .notifying, state := .halfClosed, due := some s.arrived } .reader =
        some { s with
          session := .notifying, state := .halfClosed, due := some s.arrived,
          reader := .returned op min (.endOfStream .halfClosed) } := by
    rintro op min (hr | hr) <;> simp [step, StreamRead.readerStep, hr]
  cases hr : s.reader with
  | loading op min => exact ⟨_, _, hclose, hload op min (.inl hr), hnot op min⟩
  | loadingAgain op min => exact ⟨_, _, hclose, hload op min (.inr hr), hnot op min⟩
  | _ => simp [hr, Reader.window] at hw

theorem end_of_stream_after_data (s : State) :
    (system.Reachable Quiet s → EndsAfterData s) ∧
    (system.Run s → s.session = .idle → ¬ Quiet s .halfClose →
      ∃ t u, system.step s .halfClose = some t ∧ system.step t .reader = some u ∧ ¬ EndsAfterData u) := by
  constructor
  · intro h op min hret
    exact ((settled_of_reachable h).ends op min hret).2
  · intro h hp hq
    simp only [Quiet, Classical.not_imp] at hq
    obtain ⟨hst, hw, hpend⟩ := hq
    exact late_halfClose (inv_of_reachable h) hst hp hw hpend

def waits : List Act :=
  [.call (.readBytes 2), .reader, .reader, .fill [7], .session, .session, .reader, .reader, .reader, .reader, .reader,
    .reader, .reader, .halfClose, .session, .reader, .reader, .reader, .reader, .reader]

theorem end_of_stream_after_data_short :
    ∃ s, system.runFrom initial waits = some s ∧
      s.reader = .returned (.readBytes 2) 2 (.endOfStream .halfClosed) ∧ Moved s ∧ s.recv = [7] := by
  obtain ⟨s, hs⟩ : ∃ s, (system.restrict Quiet).runFrom initial waits = some s := ⟨_, rfl⟩
  have hrun : (system.restrict Quiet).Run s := .runFrom (fun _ _ _ => trivial) (.initial rfl) hs
  have hends := (end_of_stream_after_data s).1 hrun.of_restrict
  cases hs
  exact ⟨_, rfl, rfl, (hends _ _ rfl).1, rfl⟩

theorem end_of_stream_before_data :
    ∃ s, system.runFrom initial [.call .read, .reader, .fill [7], .session, .session, .halfClose, .reader] = some s ∧
      s.reader = .returned .read 1 (.endOfStream .halfClosed) ∧ s.due = some [7] ∧ s.recv = [] ∧ s.taken = [] :=
  ⟨_, rfl, rfl, rfl, rfl, rfl⟩

end Shmipc.StreamRead
