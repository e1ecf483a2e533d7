import Shmipc.Library.Threads
import Shmipc.Stream

/-!
`fill_data_to_read_buffer` of the session against `close` of other threads, with no reader at work. A
step of a call is one section under `pending_mtx`, one access to the state, or one chain handed to
`recycle_buffers`.
-/

namespace Shmipc.PendingClose

open Transition StreamRead

inductive Pc
  | fill (wrapper : Pending)
  | load
  | close
  | take
  | recycle (items : List Pending)
  | returned
deriving DecidableEq

/-- `pushed`, `taken` and `recycled` record the pushes, the vectors taken by each `clean_pending_data`, and
the chains handed to `recycle_buffers`. -/
structure Shared where
  state : StreamState
  pendingData : List Pending
  pushed : List Pending
  taken : List (List Pending)
  recycled : List ℕ

abbrev State := Threads Shared Pc

def advance (s : Shared) : Pc → Option (Shared × Pc)
  | .fill wrapper =>
    some ({ s with pendingData := s.pendingData ++ [wrapper], pushed := s.pushed ++ [wrapper] }, .load)
  | .load => some (s, if s.state = .closed then .take else .returned)
  | .close => some ({ s with state := .closed }, if s.state = .closed then .returned else .take)
  | .take => some ({ s with pendingData := [], taken := s.taken ++ [s.pendingData] }, .recycle s.pendingData)
  | .recycle (.fallback _ :: items) => some (s, .recycle items)
  | .recycle (.chain offset :: items) => some ({ s with recycled := s.recycled ++ [offset] }, .recycle items)
  | .recycle [] => some (s, .returned)
  | .returned => none

def Pc.fresh : Pc → Bool
  | .fill _ | .close => true
  | _ => false

def start (state : StreamState) (calls : List Pc) : State := ⟨⟨state, [], [], [], []⟩, calls⟩

def system (state : StreamState) (calls : List Pc) : System State ℕ where
  initial s := s = start state calls
  step := Threads.step advance

def chains (items : List Pending) : List ℕ :=
  items.filterMap fun
    | .chain offset => some offset
    | .fallback _ => none

def Pc.unpushed : Pc → List Pending
  | .fill wrapper => [wrapper]
  | _ => []

def Pc.unrecycled : Pc → List ℕ
  | .recycle items => chains items
  | _ => []

structure Inv (calls : List Pc) (s : State) : Prop where
  pushed : s.shared.pushed = s.shared.taken.flatten ++ s.shared.pendingData
  owed : s.shared.state = .closed → s.shared.pendingData ≠ [] → ∃ pc ∈ s.calls, pc = .load ∨ pc = .take
  closing : .close ∈ calls → s.shared.state = .closed ∨ .close ∈ s.calls
  recycled : (s.shared.recycled ++ s.calls.flatMap Pc.unrecycled).Perm (chains s.shared.taken.flatten)
  filled : (s.shared.pushed ++ s.calls.flatMap Pc.unpushed).Perm (calls.flatMap Pc.unpushed)

variable {state : StreamState} {calls pre post : List Pc} {pc : Pc} {s t : State} {i : ℕ}

theorem chains_append (items items' : List Pending) : chains (items ++ items') = chains items ++ chains items' :=
  List.filterMap_append

theorem inv_start (hfresh : ∀ pc ∈ calls, pc.fresh = true) : Inv calls (start state calls) := by
  have hnone : calls.flatMap Pc.unrecycled = [] := by
    rw [List.flatMap_eq_nil_iff]
    intro pc hpc
    have := hfresh pc hpc
    cases pc <;> first | rfl | cases this
  refine ⟨rfl, fun _ h => absurd rfl h, .inr, ?_, .refl _⟩
  simp [start, hnone, chains]

theorem Inv.step (h : Inv calls s) (hstep : (system state calls).step s i = some t) : Inv calls t := by
  obtain ⟨pre, pc, post, shared, pc', hs, -, ha, rfl⟩ := Threads.step_cases hstep
  obtain ⟨hpushed, howed, hclosing, hrecycled, hfilled⟩ := h
  rw [hs] at howed hclosing hrecycled hfilled
  -- the other calls are still where they were
  have hother : ∀ x, x ∈ pre ++ pc :: post → x ≠ pc → x ∈ pre ++ pc' :: post := by
    intro x hx hne
    simp only [List.mem_append, List.mem_cons] at hx ⊢
    tauto
  have hself : pc' ∈ pre ++ pc' :: post := by simp
  have howed' : pc ≠ .load → pc ≠ .take → s.shared.state = .closed → s.shared.pendingData ≠ [] →
      ∃ x ∈ pre ++ pc' :: post, x = .load ∨ x = .take := by
    intro hload htake hc hne
    obtain ⟨x, hx, hx'⟩ := howed hc hne
    refine ⟨x, hother x hx ?_, hx'⟩
    rintro rfl
    exact hx'.elim hload htake
  have hclosing' : pc ≠ .close → .close ∈ calls → s.shared.state = .closed ∨ .close ∈ pre ++ pc' :: post :=
    fun hne hc => (hclosing hc).imp_right fun hx => hother _ hx hne.symm
  have hrec : pc'.unrecycled = pc.unrecycled →
      (s.shared.recycled ++ (pre ++ pc' :: post).flatMap Pc.unrecycled).Perm (chains s.shared.taken.flatten) := by
    intro he
    rwa [Threads.flatMap_moved pc he]
  have hfill : pc'.unpushed = pc.unpushed →
      (s.shared.pushed ++ (pre ++ pc' :: post).flatMap Pc.unpushed).Perm (calls.flatMap Pc.unpushed) := by
    intro he
    rwa [Threads.flatMap_moved pc he]
  cases pc with
  | fill wrapper =>
    cases ha
    refine ⟨?_, fun _ _ => ⟨.load, hself, .inl rfl⟩, hclosing' (by simp), hrec rfl, ?_⟩
    · simp only [hpushed, List.append_assoc]
    · apply List.Perm.trans _ hfilled
      rw [List.append_assoc]
      apply List.Perm.append_left
      exact ((Threads.perm_middle_flatMap _ pre post _).append_left [wrapper]).trans
        (Threads.perm_middle_flatMap Pc.unpushed pre post (.fill wrapper)).symm
  | load =>
    cases ha
    exact ⟨hpushed, fun hc _ => ⟨_, hself, .inr (if_pos hc)⟩, hclosing' (by simp), hrec (by split_ifs <;> rfl),
      hfill (by split_ifs <;> rfl)⟩
  | close =>
    cases ha
    refine ⟨hpushed, fun _ hne => ?_, fun _ => .inl rfl, hrec (by split_ifs <;> rfl), hfill (by split_ifs <;> rfl)⟩
    by_cases hc : s.shared.state = .closed
    · exact howed' (by simp) (by simp) hc hne
    · exact ⟨_, hself, .inr (if_neg hc)⟩
  | take =>
    cases ha
    refine ⟨?_, fun _ hne => absurd rfl hne, hclosing' (by simp), ?_, hfill rfl⟩
    · simp only [hpushed, List.flatten_append, List.flatten_singleton, List.append_nil]
    · simp only [List.flatten_append, List.flatten_singleton, chains_append]
      rw [Threads.flatMap_removed rfl] at hrecycled
      apply List.Perm.trans _ (hrecycled.append_right _)
      rw [List.append_assoc]
      apply List.Perm.append_left
      exact (Threads.perm_middle_flatMap _ pre post _).trans List.perm_append_comm
  | recycle items =>
    rcases items with _ | ⟨slice | offset, items⟩
    · cases ha
      exact ⟨hpushed, howed' (by simp) (by simp), hclosing' (by simp), hrec rfl, hfill rfl⟩
    · cases ha
      exact ⟨hpushed, howed' (by simp) (by simp), hclosing' (by simp), hrec rfl, hfill rfl⟩
    · cases ha
      refine ⟨hpushed, howed' (by simp) (by simp), hclosing' (by simp), ?_, hfill rfl⟩
      apply List.Perm.trans _ hrecycled
      rw [List.append_assoc]
      apply List.Perm.append_left
      exact ((Threads.perm_middle_flatMap _ pre post _).append_left [offset]).trans
        (Threads.perm_middle_flatMap Pc.unrecycled pre post (.recycle (.chain offset :: items))).symm
  | returned => cases ha

theorem inv_of_run (hfresh : ∀ pc ∈ calls, pc.fresh = true) (h : (system state calls).Run s) : Inv calls s := by
  apply h.invariant
  · rintro s rfl
    exact inv_start hfresh
  · intro s i t hinv _ hstep
    exact hinv.step hstep

theorem closed_of_run (hclosed : state = .closed) (h : (system state calls).Run s) : s.shared.state = .closed := by
  refine h.invariant (I := fun s => s.shared.state = .closed) ?_ ?_
  · rintro s rfl
    exact hclosed
  · intro s i t hinv _ hstep
    obtain ⟨pre, pc, post, shared, pc', -, -, ha, rfl⟩ := Threads.step_cases hstep
    cases pc with
    | recycle items => rcases items with _ | ⟨wrapper | offset, items⟩ <;> cases ha <;> exact hinv
    | returned => cases ha
    | close => cases ha; rfl
    | _ => cases ha; exact hinv

theorem recycled_once (hfresh : ∀ pc ∈ calls, pc.fresh = true) (hclose : state = .closed ∨ .close ∈ calls)
    (h : (system state calls).Run s) (hret : ∀ pc ∈ s.calls, pc = .returned) :
    s.shared.pendingData = [] ∧ s.shared.taken.flatten = s.shared.pushed ∧
      s.shared.pushed.Perm (calls.flatMap Pc.unpushed) ∧ s.shared.recycled.Perm (chains s.shared.pushed) := by
  obtain ⟨hpushed, howed, hclosing, hrecycled, hfilled⟩ := inv_of_run hfresh h
  have hclosed : s.shared.state = .closed := by
    rcases hclose with hc | hc
    · exact closed_of_run hc h
    · apply (hclosing hc).resolve_right
      intro hx
      cases hret _ hx
  have hempty : s.shared.pendingData = [] := by
    by_contra hne
    obtain ⟨pc, hpc, hpc'⟩ := howed hclosed hne
    rw [hret pc hpc] at hpc'
    simp at hpc'
  have hnone : ∀ {α : Type} (f : Pc → List α), f .returned = [] → s.calls.flatMap f = [] := by
    intro α f hf
    rw [List.flatMap_eq_nil_iff]
    intro pc hpc
    rw [hret pc hpc, hf]
  rw [hempty, List.append_nil] at hpushed
  rw [hnone _ rfl, List.append_nil] at hrecycled hfilled
  rw [← hpushed] at hrecycled
  exact ⟨hempty, hpushed.symm, hfilled, hrecycled⟩

/-- Two messages and two closes: the second message is pushed between the exchange of the first close and
its `clean_pending_data`, which takes both. -/
def crossing : List Pc := [.fill (.chain 40), .fill (.chain 80), .close, .close]

theorem recycled_once_crossing : ∃ s, (system .opened crossing).Run s ∧ s.shared.taken = [[.chain 40, .chain 80], []] ∧
    s.shared.pendingData = [] ∧ s.shared.recycled.Perm [40, 80] := by
  have hrun : ((system .opened crossing).runFrom (start .opened crossing) [0, 0, 2, 1, 2, 1, 2, 1, 1, 3, 2, 2]).map
      (fun s => (s.calls, s.shared.taken, s.shared.pushed)) =
      some ([.returned, .returned, .returned, .returned], [[.chain 40, .chain 80], []], [.chain 40, .chain 80]) := by
    decide
  obtain ⟨s, hs, he⟩ := Option.map_eq_some_iff.mp hrun
  obtain ⟨hcalls, htaken, hpushed⟩ : s.calls = _ ∧ s.shared.taken = _ ∧ s.shared.pushed = _ := by simpa using he
  have hr : (system .opened crossing).Run s := .runFrom (fun _ _ _ => trivial) (.initial rfl) hs
  have hret : ∀ pc ∈ s.calls, pc = .returned := by simp [hcalls]
  obtain ⟨hempty, -, -, hrec⟩ := recycled_once (by decide) (.inr (by decide)) hr hret
  rw [hpushed] at hrec
  exact ⟨s, hr, htaken, hempty, hrec⟩

theorem pending_without_close : ∃ s, (system .opened [.fill (.chain 40)]).Run s ∧ (∀ pc ∈ s.calls, pc = .returned) ∧
    s.shared.pendingData = [.chain 40] := by
  have hrun : ((system .opened [.fill (.chain 40)]).runFrom (start .opened [.fill (.chain 40)]) [0, 0]).map
      (fun s => (s.calls, s.shared.pendingData)) = some ([.returned], [.chain 40]) := by
    decide
  obtain ⟨s, hs, he⟩ := Option.map_eq_some_iff.mp hrun
  obtain ⟨hcalls, hpending⟩ : s.calls = _ ∧ s.shared.pendingData = _ := by simpa using he
  exact ⟨s, .runFrom (fun _ _ _ => trivial) (.initial rfl) hs, by simp [hcalls], hpending⟩

end Shmipc.PendingClose
