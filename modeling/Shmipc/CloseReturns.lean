import Shmipc.StreamReuse
import Shmipc.HomeList

namespace Shmipc

open ByteMemory LinkedBuffer

section FreeSlots

variable {l : BufferList} {n c : ℕ} {m : Mem} {L L' : List ℕ} {P : Pool} {e : Bool} {free free' : ℕ → Prop}

theorem links_unique (hc : L.IsChain (Links l m)) (hlast : ∀ a, L.getLast? = some a → BufferHeader.hasNext m a = false)
    (hc' : L'.IsChain (Links l m)) (hlast' : ∀ a, L'.getLast? = some a → BufferHeader.hasNext m a = false)
    (hhead : L.head? = L'.head?) : L = L' := by
  induction L generalizing L' with
  | nil =>
    rw [List.head?_nil, eq_comm, List.head?_eq_none_iff] at hhead
    exact hhead.symm
  | cons a L ih =>
    cases L' with
    | nil => cases hhead
    | cons a' L' =>
      obtain rfl := Option.some.inj hhead
      cases L with
      | nil =>
        cases L' with
        | nil => rfl
        | cons b' L' =>
          have hnext := (List.isChain_cons_cons.mp hc').1.1
          rw [hlast a rfl] at hnext
          cases hnext
      | cons b L =>
        have hlink := List.isChain_cons_cons.mp hc
        cases L' with
        | nil =>
          have hnext := hlink.1.1
          rw [hlast' a rfl] at hnext
          cases hnext
        | cons b' L' =>
          have hlink' := List.isChain_cons_cons.mp hc'
          rw [ih hlink.2 (fun x hx => hlast x (by rwa [List.getLast?_cons_cons])) hlink'.2
            (fun x hx => hlast' x (by rwa [List.getLast?_cons_cons])) (congrArg some (hlink.1.2.symm.trans hlink'.1.2))]

theorem Pool.Free.unique (h : P.Free e m free) (h' : P.Free e m free') : free = free' := by
  obtain ⟨F, hF, hfree⟩ := h
  obtain ⟨F', hF', hfree'⟩ := h'
  have hsame : ∀ k ∈ P.classes, F k = F' k := by
    intro k hk
    have hk₁ := hF.chain k hk
    have hk₂ := hF'.chain k hk
    exact links_unique hk₁.chain hk₁.last hk₂.chain hk₂.last (hk₁.head.trans hk₂.head.symm)
  funext a
  apply propext
  rw [hfree, hfree']
  apply exists_congr
  intro k
  apply and_congr_right
  intro hk
  rw [hsame k hk]

theorem FreeList.all_free_iff (g : Geometry l n c) (h : FreeList l n c m L) :
    l.sizeLoad m = signed32 (l.capLoad m) ∧ l.counterLoad m = 0 ↔ ∀ a, IsSlot l n c a → a ∈ L := by
  refine ⟨?_, h.all_free g⟩
  rintro ⟨-, hcounter⟩ a ha
  rw [h.counter] at hcounter
  have hsub : L ⊆ l.slots n c := fun x hx => BufferList.mem_slots.mpr (h.slot x hx)
  have hperm := (h.nodup.subperm hsub).perm_of_length_le (by
    rw [BufferList.slots, List.length_map, List.length_range]
    omega)
  exact hperm.mem_iff.mpr (BufferList.mem_slots.mpr ha)

theorem checkBufferReturned_iff (h : P.Free true m free) :
    P.manager.checkBufferReturned m = true ↔ ∀ d a, P.Slot d a → free a := by
  obtain ⟨F, hF, hfree⟩ := h
  have hlist := hF.counts rfl
  rw [BufferManager.checkBufferReturned, List.all_eq_true, P.lists]
  simp only [List.forall_mem_map, Bool.and_eq_true, decide_eq_true_eq]
  constructor
  · rintro h d a ⟨k, hk, -, ha⟩
    exact (hfree a).mpr ⟨k, hk, ((hlist k hk).all_free_iff (P.geometry k hk)).mp (h k hk) a ha⟩
  · intro h k hk
    refine ((hlist k hk).all_free_iff (P.geometry k hk)).mpr fun a ha => ?_
    obtain ⟨j, hj, haj⟩ := (hfree a).mp (h k.cap a ⟨k, hk, rfl, ha⟩)
    have hjk : j = k := Pool.slot_own hj hk ((hlist j hj).slot a haj) ha
    exact hjk ▸ haj

end FreeSlots

namespace Stream

variable {bm : BufferManager} {P : Pool} {e : Bool} {m m' : Mem} {free free' : ℕ → Prop} {s s' : Stream}

def Unpinned (P : Pool) (m : Mem) (s : Stream) : Prop :=
  s.state ≠ .closed ∧ heldBy s.recvBuf.pinnedList = [] ∨ ∀ a, ¬ Owns P m s a

theorem close_of_clean (ans : Answers) (hopen : s.state ≠ .closed) (hclean : clean bm m { s with state := .closed } = some (m', s')) :
    ∃ ret sent, close bm ans m s = some (m', s', ret, sent) := by
  rw [close, if_neg hopen, hclean, Option.map_some]
  split_ifs
  · exact ⟨_, _, rfl⟩
  · split
    · exact ⟨_, _, rfl⟩
    · exact ⟨_, _, rfl⟩
    · exact ⟨_, _, rfl⟩

-- the slots of a stream are its own, and slots
theorem owns_of_run (h : Run P e true m s) (hf : P.Free e m free) {a : ℕ} (ha : Owns P m s a) : ¬ free a ∧ ∃ d, P.Slot d a := by
  obtain ⟨free₀, A, hs⟩ := soundAt_of_run h
  obtain rfl := hs.recvOpen.holds.pool.unique hf
  have hmem := hs.owns_iff.mp ha
  refine ⟨?_, hs.slots a hmem⟩
  rcases List.mem_append.mp hmem with hx | hx
  · rcases List.mem_append.mp hx with hx | hx
    · exact hs.recvOpen.holds.owned a hx
    · exact hs.sendOpen.holds.owned a hx
  · exact (hs.owned a hx).1

theorem close_frees (h : Run P e true m s) (hf : P.Free e m free) (ans : Answers) :
    ∃ m' s' ret sent free', s.close P.manager ans m = some (m', s', ret, sent) ∧ P.Free e m' free' ∧ (∀ a, free a → free' a) ∧
      ((∀ a, Owns P m s a → free' a) ↔ Unpinned P m s) := by
  by_cases hclosed : s.state = .closed
  · refine ⟨m, s, .ok (), [], free, by rw [close, if_pos hclosed], hf, fun _ ha => ha, ?_, ?_⟩
    · intro hback
      exact .inr fun a ha => (owns_of_run h hf ha).1 (hback a ha)
    · rintro (⟨hne, -⟩ | hnone) a ha
      · exact absurd hclosed hne
      · exact absurd ha (hnone a)
  obtain ⟨free₀, A, hs⟩ := soundAt_of_run h
  obtain rfl := hs.recvOpen.holds.pool.unique hf
  have hs₀ : Sound P e true m free₀ { s with state := .closed }.recvBuf { s with state := .closed }.sendBuf
    { s with state := .closed }.pendingData A := hs
  obtain ⟨m', free', hclean, hs', hback⟩ := hs₀.clean
  obtain ⟨ret, sent, hclose⟩ := close_of_clean ans hclosed hclean
  have hpinned : s.recvBuf.cleared.held = heldBy s.recvBuf.pinnedList := rfl
  have hmem : ∀ a ∈ heldBy s.recvBuf.pinnedList, a ∈ s.recvBuf.held := by
    intro a ha
    rw [held, nodes, heldBy_append]
    exact List.mem_append_right _ ha
  have hkept : ∀ a ∈ heldBy s.recvBuf.pinnedList, ¬ free' a := fun a ha => hs'.recvOpen.holds.owned a (hpinned ▸ ha)
  have hback := hback rfl
  refine ⟨m', _, ret, sent, free', hclose, hs'.recvOpen.holds.pool, ?_, ?_, ?_⟩
  · intro a ha
    refine (hback a (.inr ha)).resolve_left fun hx => ?_
    exact hs.recvOpen.holds.owned a (hmem a hx) ha
  · intro hall
    refine .inl ⟨hclosed, List.eq_nil_iff_forall_not_mem.mpr fun a ha => ?_⟩
    exact hkept a ha (hall a (.inl (hmem a ha)))
  · rintro (⟨-, hnil⟩ | hnone) a ha
    · refine (hback a (.inl (hs.owns_iff.mp ha))).resolve_left fun hx => ?_
      rw [hpinned, hnil] at hx
      cases hx
    · exact absurd ha (hnone a)

theorem close_returns_iff (h : Run P e true m s) (hf : P.Free e m free) (ans : Answers) :
    ∃ m' s' ret sent free', s.close P.manager ans m = some (m', s', ret, sent) ∧ P.Free e m' free' ∧
      ((∀ a, Owns P m s a → free' a) ↔ Unpinned P m s) ∧
      (e = true → (∀ d a, P.Slot d a → free a ∨ Owns P m s a) →
        (P.manager.checkBufferReturned m' = true ↔ Unpinned P m s)) := by
  obtain ⟨m', s', ret, sent, free', hclose, hf', hmore, hiff⟩ := close_frees h hf ans
  refine ⟨m', s', ret, sent, free', hclose, hf', hiff, ?_⟩
  rintro rfl hall
  rw [← hiff, checkBufferReturned_iff hf']
  constructor
  · intro hreturned a ha
    obtain ⟨-, d, hd⟩ := owns_of_run h hf ha
    exact hreturned d a hd
  · intro hback d a hd
    rcases hall d a hd with ha | ha
    · exact hmore a ha
    · exact hback a ha

open Built (threeSlots)

theorem close_returns_written : ∃ (m : Mem) (s : Stream) (m' : Mem) (s' : Stream) (ret : Result Unit) (sent : List Sent) (free' : ℕ → Prop),
    s.sendBuf.held = [36] ∧ s.close threeSlots.manager sending m = some (m', s', ret, sent) ∧ threeSlots.Free true m' free' ∧ free' 36 := by
  obtain ⟨m₁, hwrite, -⟩ := three_written
  have hcall := congrArg (Option.map fun r => (r.1, { Stream.empty 1 with sendBuf := r.2 })) hwrite
  have hrun : Run threeSlots true true _ _ := (Run.start 1 Built.threeMem_free).call (c := .writeBytes [1, 2, 3]) trivial hcall
  obtain ⟨free, A, hs⟩ := soundAt_of_run hrun
  obtain ⟨m', s', ret, sent, free', hclose, hf', hiff, -⟩ := close_returns_iff hrun hs.recvOpen.holds.pool sending
  have hopen : StreamRead.StreamState.opened ≠ .closed := by decide
  exact ⟨_, _, m', s', ret, sent, free', rfl, hclose, hf', hiff.mpr (.inl ⟨hopen, rfl⟩) 36 (.inr (.inl List.mem_cons_self))⟩

open StreamExt (oneByte_start firstBuf secondBuf) in
/-- Two messages of one byte are read, the second one while the first is pinned. After the close one slot is missing, and no one
else has it. -/
theorem close_leaves_pinned : ∃ m s free, Run threeSlots true true m s ∧ threeSlots.Free true m free ∧ s.state = .opened ∧
    (∀ d a, threeSlots.Slot d a → free a ∨ Owns threeSlots m s a) ∧
    ∃ m' s' ret sent free', s.close threeSlots.manager sending m = some (m', s', ret, sent) ∧ threeSlots.Free true m' free' ∧
      (∃ a, Owns threeSlots m s a ∧ ¬ free' a) ∧ threeSlots.manager.checkBufferReturned m' = false := by
  obtain ⟨m, free, hfree, ⟨h36, hfirst, hused⟩, ⟨h60, hsecond, hused'⟩, hall⟩ := oneByte_start
  have hrun : Run threeSlots true true m _ := run_first hfree h36 hfirst fun _ => hused
  have howned : ∀ a, Owns threeSlots m { Stream.empty 1 with recvBuf := firstBuf } a → a = 36 := by
    rintro a (ha | ha | ⟨A, data, harrived, ha⟩)
    · exact List.mem_singleton.mp ha
    · cases ha
    · cases harrived
      cases ha
  have hfilled : Run threeSlots true true m { Stream.empty 1 with recvBuf := firstBuf, pendingData := [.chain 60] } := by
    refine hrun.fill hfree (fun a ha => howned a ha ▸ h36) (Arrived.chain hsecond.chain .nil) (List.nodup_singleton 60)
      (fun a ha => ⟨List.mem_singleton.mp ha ▸ h60, fun hown => ?_⟩) (fun _ a ha => List.mem_singleton.mp ha ▸ hused') rfl
    have h := howned a hown
    rw [List.mem_singleton.mp ha] at h
    cases h
  have hread : call threeSlots.manager m { Stream.empty 1 with recvBuf := firstBuf, pendingData := [.chain 60] } .read =
      some (m, { Stream.empty 1 with recvBuf := secondBuf }) := by
    rw [call, Stream.read, Stream.reading, if_pos (by decide), readMore, hsecond.moved hfree rfl]
    rfl
  have hrun := hfilled.call (c := .read) trivial hread
  have hown : Owns threeSlots m { Stream.empty 1 with recvBuf := secondBuf } 36 := .inl (List.mem_cons_of_mem _ List.mem_cons_self)
  obtain ⟨m', s', ret, sent, free', hclose, hf', -, hiff⟩ := close_frees hrun hfree sending
  have hleft : ∃ a, Owns threeSlots m { Stream.empty 1 with recvBuf := secondBuf } a ∧ ¬ free' a := by
    by_contra hnone
    push Not at hnone
    rcases hiff.mp hnone with ⟨-, hpinned⟩ | hnot
    · cases hpinned
    · exact hnot 36 hown
  refine ⟨m, _, free, hrun, hfree, rfl, ?_, m', s', ret, sent, free', hclose, hf', hleft, ?_⟩
  · intro d a hd
    rcases hall d a hd with ha | rfl | rfl
    · exact .inl ha
    · exact .inr hown
    · exact .inr (.inl List.mem_cons_self)
  · rw [← Bool.not_eq_true, checkBufferReturned_iff hf']
    obtain ⟨a, ha, hnot⟩ := hleft
    obtain ⟨-, d, hd⟩ := owns_of_run hrun hfree ha
    exact fun hreturned => hnot (hreturned d a hd)

end Stream

end Shmipc
