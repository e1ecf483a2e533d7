import Shmipc.FlushSends

namespace Shmipc

open ByteMemory LinkedBuffer

variable {P : Pool} {e : Bool} {m m' : Mem} {free free' : ℕ → Prop} {b b' recv send : LinkedBuffer} {items items' : List Pending}
  {A B : List ℕ} {data : List UInt8} {a off fuel : ℕ}

theorem recycleBuffers_chain (hf : P.Free e m free) (hc : Chain P m off A) (hnd : A.Nodup) (hown : ∀ a ∈ A, ¬ free a)
    (hfuel : A.length ≤ fuel) :
    ∃ m' free', P.manager.recycleBuffers fuel m (slotView m off) = some m' ∧ P.Free e m' free' ∧
      Exchange P m free A m' free' [] := by
  induction A generalizing m free off fuel with
  | nil => cases hc
  | cons a A ih =>
    obtain ⟨fuel, rfl⟩ : ∃ k, fuel = k + 1 := ⟨fuel - 1, by rw [List.length_cons] at hfuel; omega⟩
    obtain rfl : off = a := by cases hc <;> rfl
    obtain ⟨hna, hnd⟩ := List.nodup_cons.mp hnd
    obtain ⟨free₁, hf₁, hex⟩ := recycle_slotView hf (hc.readable List.mem_cons_self) (hown off List.mem_cons_self)
    have hshm : (slotView m off).isFromShm = true := rfl
    have hheader : (slotView m off).bufferHeader = some off := rfl
    rw [BufferManager.recycleBuffers, if_pos hshm, hheader, Option.bind_some]
    have hall : ∀ x ∈ off :: A, ∃ d, P.Slot d x := by
      intro x hx
      obtain ⟨d, hd, -⟩ := hc.readable hx
      exact ⟨d, hd⟩
    cases hc with
    | last _ hn =>
      rw [hn, if_neg Bool.false_ne_true]
      exact ⟨_, free₁, rfl, hf₁, hex⟩
    | cons _ hn hrest =>
      have hA : ∀ x ∈ A, ¬ free x ∧ x ∉ [off] := by
        intro x hx
        refine ⟨hown x (List.mem_cons_of_mem off hx), fun he => hna ?_⟩
        rwa [← List.mem_singleton.mp he]
      have hslots : ∀ x ∈ A, ∃ d, P.Slot d x := fun x hx => hall x (List.mem_cons_of_mem off hx)
      obtain ⟨hown₁, hsame⟩ := hex.frame.others hA
      have hrest₁ := hrest.congr hsame
      obtain ⟨m', free', hwalk, hf', hex'⟩ :=
        ih hf₁ hrest₁ hnd (fun x hx => (hown₁ x hx).1) (Nat.le_of_succ_le_succ hfuel)
      obtain ⟨y, hy⟩ : ∃ y, BufferHeader.nextBufferOffset m off = y := ⟨_, rfl⟩
      rw [hy] at hwalk hrest₁
      have hread : P.manager.readBufferSlice (P.manager.recycleBuffer m (slotView m off)) y =
          .ok (slotView (P.manager.recycleBuffer m (slotView m off)) y) := by
        have hy' : y ∈ A := by cases hrest₁ <;> exact List.mem_cons_self
        obtain ⟨d, hd⟩ := hslots y hy'
        exact readBufferSlice_slot hf₁ hd
      rw [hn, if_pos rfl, hy]
      simp only [hread]
      exact ⟨m', free', hwalk, hf', (hex.more hA hslots).trans hall hex'⟩

namespace Stream

theorem cleanAll_arrived (hf : P.Free e m free) (ha : Arrived P m items A data) (hnd : A.Nodup) (hown : ∀ a ∈ A, ¬ free a)
    (hfuel : P.manager.memSize ≤ fuel) :
    ∃ m' free', cleanAll P.manager fuel items m = some m' ∧ P.Free e m' free' ∧ Exchange P m free A m' free' [] := by
  induction items generalizing m free A data with
  | nil =>
    cases ha
    exact ⟨m, free, rfl, hf, .refl _ _ _ _⟩
  | cons item items ih =>
    have hslots : ∀ a ∈ A, ∃ d, P.Slot d a := fun a hx => ha.slots hx
    cases ha with
    | fallback _ hrest => exact ih hf hrest hnd hown
    | @chain off data _ A B hc hrest =>
      obtain ⟨hndA, hndB, hdisj⟩ := List.nodup_append.mp hnd
      have hlen : A.length ≤ fuel := by
        apply (slots_length hndA fun a ha => ?_).trans hfuel
        obtain ⟨d, hd, -⟩ := hc.readable ha
        exact ⟨d, hd⟩
      obtain ⟨m₁, free₁, hwalk, hf₁, hex⟩ :=
        recycleBuffers_chain hf hc hndA (fun a ha => hown a (List.mem_append_left _ ha)) hlen
      have hB : ∀ a ∈ B, ¬ free a ∧ a ∉ A :=
        fun a ha => ⟨hown a (List.mem_append_right _ ha), fun hx => hdisj a hx a ha rfl⟩
      obtain ⟨hown₁, hsame⟩ := hex.frame.others hB
      obtain ⟨m', free', hclean, hf', hex'⟩ := ih hf₁ (hrest.congr hf hsame) hndB fun a ha => (hown₁ a ha).1
      have hoff : off ∈ A := by cases hc <;> exact List.mem_cons_self
      obtain ⟨d, hd, -⟩ := hc.readable hoff
      refine ⟨m', free', ?_, hf', (hex.more hB fun a ha => hrest.slots ha).trans hslots hex'⟩
      rw [cleanAll, readBufferSlice_slot hf hd, cleanChain, hwalk]
      exact hclean

/-- The two buffers of a stream and its messages, each slot in one place. In a `strict` run no slot was reset for reuse, and the
send buffer was not read. -/
structure Sound (P : Pool) (e strict : Bool) (m : Mem) (free : ℕ → Prop) (recv send : LinkedBuffer) (items : List Pending)
    (A : List ℕ) : Prop where
  recvOpen : Open P e m free recv
  sendOpen : Open P e m free send
  apart : ∀ a ∈ recv.held, a ∉ send.held
  arrived : ∃ data, Arrived P m items A data
  distinct : A.Nodup
  owned : ∀ a ∈ A, ¬ free a ∧ a ∉ recv.held ∧ a ∉ send.held
  used : strict = true → ∀ a ∈ recv.held ++ send.held ++ A, BufferHeader.isInUsed m a = true
  plain : strict = true → send.pinnedList = []

namespace Sound

variable {strict : Bool}

theorem slots (h : Sound P e strict m free recv send items A) : ∀ a ∈ recv.held ++ send.held ++ A, ∃ d, P.Slot d a := by
  obtain ⟨data, ha⟩ := h.arrived
  intro a hx
  rcases List.mem_append.mp hx with hx | hx
  · rcases List.mem_append.mp hx with hx | hx
    · exact h.recvOpen.slots a hx
    · exact h.sendOpen.slots a hx
  · exact ha.slots hx

-- the slots of `C` are used as before
theorem used_untouched {C : List ℕ} (hslots : ∀ a ∈ C, ∃ d, P.Slot d a) (hsame : Untouched P m m' C)
    (hused : ∀ a ∈ C, BufferHeader.isInUsed m a = true) : ∀ a ∈ C, BufferHeader.isInUsed m' a = true := by
  intro a ha
  obtain ⟨d, hd⟩ := hslots a ha
  rw [BufferHeader.isInUsed_congr ((hsame d a hd ha).mono le_rfl (by omega))]
  exact hused a ha

theorem receive {A' : List ℕ} (h : Sound P e strict m free recv send items A) (hb : Open P e m' free' b')
    (hframe : SlotFrame P m free (recv.held ++ A) m' free' (b'.held ++ A')) (ha' : ∃ data, Arrived P m' items' A' data)
    (hnd : A'.Nodup) (hown : ∀ a ∈ A', ¬ free' a ∧ a ∉ b'.held)
    (hused : strict = true → (∀ a ∈ recv.held ++ A, BufferHeader.isInUsed m a = true) →
      ∀ a ∈ b'.held ++ A', BufferHeader.isInUsed m' a = true) : Sound P e strict m' free' b' send items' A' := by
  have hC : ∀ a ∈ send.held, ¬ free a ∧ a ∉ recv.held ++ A := by
    intro a ha
    refine ⟨h.sendOpen.holds.owned a ha, fun hx => ?_⟩
    rcases List.mem_append.mp hx with hx | hx
    · exact h.apart a hx ha
    · exact (h.owned a hx).2.2 ha
  obtain ⟨hout, hsame⟩ := hframe.others hC
  have hsend : ∀ a ∈ b'.held ++ A', a ∉ send.held := fun a ha hx => (hout a hx).2 ha
  refine ⟨hb, h.sendOpen.others hb.holds.pool fun a ha => (hout a ha).1, fun a ha => hsend a (List.mem_append_left _ ha), ha', hnd,
    fun a ha => ⟨(hown a ha).1, (hown a ha).2, hsend a (List.mem_append_right _ ha)⟩, fun hs => ?_, h.plain⟩
  have hall := h.used hs
  have hrecv := hused hs fun a ha => hall a (by
    rcases List.mem_append.mp ha with ha | ha
    · exact List.mem_append_left _ (List.mem_append_left _ ha)
    · exact List.mem_append_right _ ha)
  have hsend' := used_untouched h.sendOpen.slots hsame fun a ha => hall a (List.mem_append_left _ (List.mem_append_right _ ha))
  intro a ha
  rcases List.mem_append.mp ha with ha | ha
  · rcases List.mem_append.mp ha with ha | ha
    · exact hrecv a (List.mem_append_left _ ha)
    · exact hsend' a ha
  · exact hrecv a (List.mem_append_right _ ha)

theorem onRecv (h : Sound P e strict m free recv send items A) (hb : Open P e m' free' b')
    (hframe : SlotFrame P m free recv.held m' free' b'.held)
    (hused : strict = true → (∀ a ∈ recv.held, BufferHeader.isInUsed m a = true) →
      ∀ a ∈ b'.held, BufferHeader.isInUsed m' a = true) : Sound P e strict m' free' b' send items A := by
  have hA : ∀ a ∈ A, ¬ free a ∧ a ∉ recv.held := fun a ha => ⟨(h.owned a ha).1, (h.owned a ha).2.1⟩
  obtain ⟨hout, hsame⟩ := hframe.others hA
  obtain ⟨data, ha⟩ := h.arrived
  refine h.receive hb (hframe.more A) ⟨data, ha.congr h.recvOpen.holds.pool hsame⟩ h.distinct hout ?_
  intro hs hall a hx
  rcases List.mem_append.mp hx with hx | hx
  · exact hused hs (fun x hx => hall x (List.mem_append_left _ hx)) a hx
  · exact used_untouched (fun x hx => ha.slots hx) hsame (fun x hx => hall x (List.mem_append_right _ hx)) a hx

theorem onSend (h : Sound P e strict m free recv send items A) (hb : Open P e m' free' b')
    (hframe : SlotFrame P m free send.held m' free' b'.held)
    (hused : strict = true → (∀ a ∈ send.held, BufferHeader.isInUsed m a = true) →
      ∀ a ∈ b'.held, BufferHeader.isInUsed m' a = true)
    (hplain : strict = true → b'.pinnedList = []) : Sound P e strict m' free' recv b' items A := by
  have hC : ∀ a ∈ recv.held ++ A, ¬ free a ∧ a ∉ send.held := by
    intro a ha
    rcases List.mem_append.mp ha with ha | ha
    · exact ⟨h.recvOpen.holds.owned a ha, h.apart a ha⟩
    · exact ⟨(h.owned a ha).1, (h.owned a ha).2.2⟩
  obtain ⟨hout, hsame⟩ := hframe.others hC
  obtain ⟨data, ha⟩ := h.arrived
  have hslots : ∀ a ∈ recv.held ++ A, ∃ d, P.Slot d a := by
    intro a hx
    rcases List.mem_append.mp hx with hx | hx
    · exact h.recvOpen.slots a hx
    · exact ha.slots hx
  refine ⟨h.recvOpen.others hb.holds.pool fun a ha => (hout a (List.mem_append_left _ ha)).1, hb,
    fun a ha => (hout a (List.mem_append_left _ ha)).2,
    ⟨data, ha.congr h.recvOpen.holds.pool (hsame.mono fun a ha => List.mem_append_right _ ha)⟩, h.distinct, ?_, fun hs => ?_, hplain⟩
  · intro a ha
    obtain ⟨hf, hs⟩ := hout a (List.mem_append_right _ ha)
    exact ⟨hf, (h.owned a ha).2.1, hs⟩
  have hall := h.used hs
  have hrest := used_untouched hslots hsame fun a ha => hall a (by
    rcases List.mem_append.mp ha with ha | ha
    · exact List.mem_append_left _ (List.mem_append_left _ ha)
    · exact List.mem_append_right _ ha)
  have hsend := hused hs fun a ha => hall a (List.mem_append_left _ (List.mem_append_right _ ha))
  intro a ha
  rcases List.mem_append.mp ha with ha | ha
  · rcases List.mem_append.mp ha with ha | ha
    · exact hrest a (List.mem_append_left _ ha)
    · exact hsend a ha
  · exact hrest a (List.mem_append_right _ ha)

theorem others (h : Sound P e strict m free recv send items A) (hf : P.Free e m' free')
    (hown : ∀ a ∈ recv.held ++ send.held ++ A, ¬ free' a) (hsame : Untouched P m m' (recv.held ++ send.held ++ A)) :
    Sound P e strict m' free' recv send items A := by
  obtain ⟨data, ha⟩ := h.arrived
  refine ⟨h.recvOpen.others hf fun a ha => hown a (List.mem_append_left _ (List.mem_append_left _ ha)),
    h.sendOpen.others hf fun a ha => hown a (List.mem_append_left _ (List.mem_append_right _ ha)), h.apart,
    ⟨data, ha.congr h.recvOpen.holds.pool (hsame.mono fun a ha => List.mem_append_right _ ha)⟩, h.distinct, ?_,
    fun hs => used_untouched h.slots hsame (h.used hs), h.plain⟩
  intro a ha
  exact ⟨hown a (List.mem_append_right _ ha), (h.owned a ha).2⟩

theorem start (hf : P.Free e m free) : Sound P e strict m free .empty .empty [] [] :=
  ⟨Reserving.open_start hf, Reserving.open_start hf, List.forall_mem_nil _, ⟨[], .nil⟩, List.nodup_nil, List.forall_mem_nil _,
    fun _ => List.forall_mem_nil _, fun _ => rfl⟩

theorem deliver {item : Pending} (h : Sound P e strict m free recv send items A) (hb : Arrived P m [item] B data) (hnd : B.Nodup)
    (hnew : ∀ a ∈ B, ¬ free a ∧ a ∉ recv.held ++ send.held ++ A)
    (hused : strict = true → ∀ a ∈ B, BufferHeader.isInUsed m a = true) :
    Sound P e strict m free recv send (items ++ [item]) (A ++ B) := by
  obtain ⟨data', ha⟩ := h.arrived
  simp only [List.mem_append, not_or] at hnew
  refine ⟨h.recvOpen, h.sendOpen, h.apart, ⟨_, ha.append hb⟩, h.distinct.append hnd fun a hx hy => (hnew a hy).2.2 hx, ?_,
    fun hs => ?_, h.plain⟩
  · intro a hx
    rcases List.mem_append.mp hx with hx | hx
    · exact h.owned a hx
    · exact ⟨(hnew a hx).1, (hnew a hx).2.1⟩
  · intro a hx
    rw [← List.append_assoc] at hx
    rcases List.mem_append.mp hx with hx | hx
    · exact h.used hs a hx
    · exact hused hs a hx

theorem swap (h : Sound P e false m free recv send items A) : Sound P e false m free send recv items A :=
  ⟨h.sendOpen, h.recvOpen, fun a hs hr => h.apart a hr hs, h.arrived, h.distinct,
    fun a ha => ⟨(h.owned a ha).1, (h.owned a ha).2.2, (h.owned a ha).2.1⟩, nofun, nofun⟩

theorem exchangeRecv (h : Sound P e strict m free recv send items A) (hb : Open P e m' free' b')
    (hex : Exchange P m free recv.held m' free' b'.held) : Sound P e strict m' free' b' send items A :=
  h.onRecv hb hex.frame fun _ => (hex.trade hb.holds.owned).used

theorem exchangeSend (h : Sound P e strict m free recv send items A) (hb : Open P e m' free' b')
    (hex : Exchange P m free send.held m' free' b'.held) (hplain : strict = true → b'.pinnedList = []) :
    Sound P e strict m' free' recv b' items A :=
  h.onSend hb hex.frame (fun _ => (hex.trade hb.holds.owned).used) hplain

theorem moveAll (h : Sound P e strict m free recv send items A) (flag : Bool) :
    ∃ m' free' b' flag', moveAll P.manager P.manager.memSize items m recv flag = some (m', b', flag') ∧
      Sound P e strict m' free' b' send [] [] := by
  obtain ⟨data, ha⟩ := h.arrived
  obtain ⟨m', free', b', flag', hmove, hmoved, -⟩ := moveAll_moves h.recvOpen.toBase h.recvOpen.len ha h.distinct
    (fun a ha => ⟨(h.owned a ha).1, (h.owned a ha).2.1⟩) le_rfl flag
  refine ⟨m', free', b', flag', hmove, h.receive ?_ ?_ ⟨[], .nil⟩ List.nodup_nil (List.forall_mem_nil _) fun _ hall => ?_⟩
  · rcases hmoved.cursor with rfl | hback
    · exact ⟨hmoved.base, hmoved.len, h.recvOpen.ready⟩
    · exact .of_valid ⟨hmoved.base, hback, hmoved.len⟩
  · rw [List.append_nil]
    exact hmoved.trade.toSlotFrame
  · rw [List.append_nil]
    exact hmoved.trade.used hall

theorem cleanAll (h : Sound P e strict m free recv send items A) :
    ∃ m' free', cleanAll P.manager P.manager.memSize items m = some m' ∧ Sound P e strict m' free' recv send [] [] ∧
      Exchange P m free A m' free' [] := by
  obtain ⟨data, ha⟩ := h.arrived
  obtain ⟨m', free', hclean, hf, hex⟩ := cleanAll_arrived h.recvOpen.holds.pool ha h.distinct (fun a ha => (h.owned a ha).1) le_rfl
  have hC : ∀ a ∈ recv.held, ¬ free a ∧ a ∉ A := fun a ha => ⟨h.recvOpen.holds.owned a ha, fun hx => (h.owned a hx).2.1 ha⟩
  obtain ⟨hout, hsame⟩ := hex.frame.others hC
  have ht' : Trade P m free (recv.held ++ A) m' free' (recv.held ++ []) := by
    rw [List.append_nil]
    refine ((hex.more hC h.recvOpen.slots).trade fun a ha => (hout a ha).1).congr (fun a => ?_) fun a => Iff.rfl
    rw [List.mem_append, List.mem_append, or_comm]
  exact ⟨m', free', hclean, h.receive (h.recvOpen.others hf fun a ha => (hout a ha).1) ht'.toSlotFrame ⟨[], .nil⟩ List.nodup_nil
    (List.forall_mem_nil _) fun _ hall => ht'.used hall, hex⟩

theorem recycleRecv (h : Sound P e strict m free recv send items A) :
    ∃ m' free', recv.recycle P.manager m = (m', recv.cleared) ∧ Sound P e strict m' free' recv.cleared send items A ∧
      Exchange P m free recv.held m' free' recv.cleared.held := by
  obtain ⟨m', free', hrec, hvalid, hex⟩ := recycle_spec h.recvOpen.toBase
  exact ⟨m', free', hrec, h.exchangeRecv (.of_valid hvalid) hex, hex⟩

theorem recycleSend (h : Sound P e strict m free recv send items A) :
    ∃ m' free', send.recycle P.manager m = (m', send.cleared) ∧ Sound P e strict m' free' recv send.cleared items A ∧
      Exchange P m free send.held m' free' send.cleared.held := by
  obtain ⟨m', free', hrec, hvalid, hex⟩ := recycle_spec h.sendOpen.toBase
  exact ⟨m', free', hrec, h.exchangeSend (.of_valid hvalid) hex h.plain, hex⟩

-- the slots of the slice list are the peer's from now on
theorem cleanSend (h : Sound P e strict m free recv send items A) : Sound P e strict m free recv send.clean items A := by
  have hsub : ∀ a ∈ send.clean.held, a ∈ send.held := by
    intro a ha
    rw [held, nodes, heldBy_append]
    exact List.mem_append_right _ ha
  exact h.onSend h.sendOpen.clean (.drop m free hsub) (fun _ hall a ha => hall a (hsub a ha)) h.plain

end Sound

variable {bm : BufferManager} {s s' : Stream} {strict : Bool}

theorem reading_cases {α : Type} {size : ℕ} {f : Mem → LinkedBuffer → Mem × LinkedBuffer × Result α} {ret : Option (Result α)}
    (h : reading bm m s size f = some (m', s', ret)) :
    ∃ m₁ s₁, (m₁ = m ∧ s₁ = s ∨ movePendingData bm m s = some (m₁, s₁)) ∧
      (m' = m₁ ∧ s' = s₁ ∨ ∃ b' r, f m₁ s₁.recvBuf = (m', b', r) ∧ s' = { s₁ with recvBuf := b' }) := by
  obtain ⟨⟨m₁, s₁, ret₁⟩, hfirst, h⟩ := Option.map_eq_some_iff.mp h
  refine ⟨m₁, s₁, ?_, ?_⟩
  · split_ifs at hfirst
    · obtain ⟨r, hmove, hfirst⟩ := Option.map_eq_some_iff.mp hfirst
      cases hfirst
      exact .inr hmove
    · cases hfirst
      exact .inl ⟨rfl, rfl⟩
  · rcases ret₁ with - | (err | u)
    · cases h
      exact .inl ⟨rfl, rfl⟩
    · cases h
      exact .inl ⟨rfl, rfl⟩
    · cases h
      exact .inr ⟨_, _, rfl, rfl⟩

abbrev SoundAt (P : Pool) (e strict : Bool) (m : Mem) (s : Stream) : Prop :=
  ∃ free A, Sound P e strict m free s.recvBuf s.sendBuf s.pendingData A

theorem SoundAt.movePendingData (h : SoundAt P e strict m s) (hcall : movePendingData P.manager m s = some (m', s')) :
    SoundAt P e strict m' s' := by
  obtain ⟨free, A, h⟩ := h
  obtain ⟨m₁, free₁, b₁, flag₁, hmove, h₁⟩ := h.moveAll s.inFallbackState
  rw [Stream.movePendingData, hmove] at hcall
  cases hcall
  exact ⟨free₁, [], h₁⟩

theorem SoundAt.reading {α : Type} {size : ℕ} {f : Mem → LinkedBuffer → Mem × LinkedBuffer × Result α} {ret : Option (Result α)}
    (h : SoundAt P e strict m s)
    (hf : ∀ m free b m' b' r, Open P e m free b → f m b = (m', b', r) →
      ∃ free', Open P e m' free' b' ∧ Exchange P m free b.held m' free' b'.held)
    (hcall : reading P.manager m s size f = some (m', s', ret)) : SoundAt P e strict m' s' := by
  obtain ⟨m₁, s₁, hmove, hread⟩ := reading_cases hcall
  have h₁ : SoundAt P e strict m₁ s₁ := by
    rcases hmove with ⟨rfl, rfl⟩ | hmove
    · exact h
    · exact h.movePendingData hmove
  rcases hread with ⟨rfl, rfl⟩ | ⟨b', r, hread, rfl⟩
  · exact h₁
  · obtain ⟨free, A, h₁⟩ := h₁
    obtain ⟨free', hb, hex⟩ := hf m₁ free s₁.recvBuf m' b' r h₁.recvOpen hread
    exact ⟨free', A, h₁.exchangeRecv hb hex⟩

theorem SoundAt.flush {ans : Answers} {ret : Result Unit} {sent : List Sent} (h : SoundAt P e strict m s)
    (hcall : flush P.manager ans m s = some (m', s', ret, sent)) : SoundAt P e strict m' s' := by
  obtain ⟨free, A, hs⟩ := h
  cases flush_outcome hcall with
  | idle _ => exact ⟨free, A, hs⟩
  | closed _ _ =>
    obtain ⟨m₁, free₁, hrec, hs₁, -⟩ := hs.recycleSend
    rw [Stream.recycleSend, hrec]
    exact ⟨free₁, A, hs₁⟩
  | ended _ _ hdone hended =>
    obtain ⟨m₁, free₁, b₁, hdone₁, hb₁, hex⟩ := hs.sendOpen.done
    cases hdone.symm.trans hdone₁
    have hs₁ := hs.exchangeSend hb₁ hex fun hstrict => (done_fields hdone).2.2.trans (hs.plain hstrict)
    obtain ⟨m₂, free₂, hrec, hs₂, -⟩ := hs₁.recycleSend
    cases hended with
    | put _ _ => exact ⟨free₁, A, hs₁.cleanSend⟩
    | sent _ _ =>
      rw [Stream.recycleSend, hrec]
      exact ⟨free₂, A, hs₂⟩
    | dropped _ =>
      rw [Stream.recycleSend, hrec]
      exact ⟨free₂, A, hs₂⟩

theorem Sound.clean (h : Sound P e strict m free s.recvBuf s.sendBuf s.pendingData A) :
    ∃ m' free', clean P.manager m s = some (m', { s with
          recvBuf := s.recvBuf.cleared
          sendBuf := s.sendBuf.cleared
          pendingData := [] }) ∧
      Sound P e strict m' free' s.recvBuf.cleared s.sendBuf.cleared [] [] ∧
      (strict = true → ∀ a, a ∈ s.recvBuf.held ++ s.sendBuf.held ++ A ∨ free a → a ∈ s.recvBuf.cleared.held ∨ free' a) := by
  obtain ⟨m₁, free₁, hclean, hs₁, hex₁⟩ := h.cleanAll
  obtain ⟨m₂, free₂, hrecv, hs₂, hex₂⟩ := hs₁.recycleRecv
  obtain ⟨m₃, free₃, hsend, hs₃, hex₃⟩ := hs₂.recycleSend
  refine ⟨m₃, free₃, ?_, hs₃, fun hstrict a ha => ?_⟩
  · rw [Stream.clean, cleanPendingData, hclean]
    simp only [Option.map_some, Stream.recycleRecv, hrecv, Stream.recycleSend, hsend]
  have hrest : s.sendBuf.cleared.held = [] := congrArg heldBy (h.plain hstrict)
  have hback₁ := (hex₁.trade (List.forall_mem_nil _)).back fun x hx => h.used hstrict x (List.mem_append_right _ hx)
  have hback₂ := (hex₂.trade hs₂.recvOpen.holds.owned).back fun x hx =>
    hs₁.used hstrict x (List.mem_append_left _ (List.mem_append_left _ hx))
  have hback₃ := (hex₃.trade hs₃.sendOpen.holds.owned).back fun x hx =>
    hs₂.used hstrict x (List.mem_append_left _ (List.mem_append_right _ hx))
  have hlast : a ∈ s.sendBuf.held ∨ free₂ a → free₃ a := by
    intro hx
    have hx := hback₃ a hx
    rw [hrest] at hx
    exact hx.resolve_left List.not_mem_nil
  have hfirst : a ∈ A ∨ free a → free₁ a := fun hx => (hback₁ a hx).resolve_left List.not_mem_nil
  rcases ha with ha | ha
  · rcases List.mem_append.mp ha with ha | ha
    · rcases List.mem_append.mp ha with ha | ha
      · exact (hback₂ a (.inl ha)).imp_right fun hx => hlast (.inr hx)
      · exact .inr (hlast (.inl ha))
    · exact (hback₂ a (.inr (hfirst (.inl ha)))).imp_right fun hx => hlast (.inr hx)
  · exact (hback₂ a (.inr (hfirst (.inr ha)))).imp_right fun hx => hlast (.inr hx)

theorem SoundAt.clean (h : SoundAt P e strict m s) : ∃ m' s', clean P.manager m s = some (m', s') ∧ SoundAt P e strict m' s' := by
  obtain ⟨free, A, hs⟩ := h
  obtain ⟨m', free', hclean, hs', -⟩ := hs.clean
  exact ⟨m', _, hclean, free', [], hs'⟩

theorem close_cases {ans : Answers} {ret : Result Unit} {sent : List Sent} (h : close bm ans m s = some (m', s', ret, sent)) :
    m' = m ∧ s' = s ∨ Stream.clean bm m { s with state := .closed } = some (m', s') := by
  rw [close] at h
  by_cases hclosed : s.state = .closed
  · rw [if_pos hclosed] at h
    cases h
    exact .inl ⟨rfl, rfl⟩
  · rw [if_neg hclosed] at h
    obtain ⟨⟨m₁, s₁⟩, hclean, h⟩ := Option.map_eq_some_iff.mp h
    refine .inr ?_
    rw [hclean]
    split_ifs at h
    · cases h
      rfl
    · split at h
      · cases h
        rfl
      · cases h
        rfl
      · cases h
        rfl

theorem SoundAt.close {ans : Answers} {ret : Result Unit} {sent : List Sent} (h : SoundAt P e strict m s)
    (hcall : close P.manager ans m s = some (m', s', ret, sent)) : SoundAt P e strict m' s' := by
  rcases close_cases hcall with ⟨rfl, rfl⟩ | hclean
  · exact h
  · have h₁ : SoundAt P e strict m { s with state := .closed } := h
    obtain ⟨m₁, s₁, hclean₁, h'⟩ := h₁.clean
    cases hclean.symm.trans hclean₁
    exact h'

theorem SoundAt.releaseReadAndReuse (h : SoundAt P e false m s) (hcall : releaseReadAndReuse P.manager m s = (m', s')) :
    SoundAt P e false m' s' := by
  obtain ⟨free, A, hs⟩ := h
  obtain ⟨m₁, free₁, b₁, hrel, hb₁, hret⟩ := hs.recvOpen.releasePreviousReadAndReserve
  have hs₁ := hs.onRecv hb₁ hret.frame nofun
  rw [Stream.releaseReadAndReuse, hrel] at hcall
  simp only at hcall
  split_ifs at hcall
  · cases hcall
    exact ⟨free₁, A, hs₁.swap⟩
  · cases hcall
    exact ⟨free₁, A, hs₁⟩

def Owns (P : Pool) (m : Mem) (s : Stream) (a : ℕ) : Prop :=
  a ∈ s.recvBuf.held ∨ a ∈ s.sendBuf.held ∨ ∃ A data, Arrived P m s.pendingData A data ∧ a ∈ A

theorem Sound.owns_iff (h : Sound P e strict m free s.recvBuf s.sendBuf s.pendingData A) :
    Owns P m s a ↔ a ∈ s.recvBuf.held ++ s.sendBuf.held ++ A := by
  obtain ⟨data, ha⟩ := h.arrived
  rw [List.mem_append, List.mem_append, or_assoc, Owns]
  refine or_congr_right (or_congr_right ⟨?_, fun hx => ⟨A, data, ha, hx⟩⟩)
  rintro ⟨A', data', ha', hx⟩
  rwa [(ha.unique ha').1]

theorem SoundAt.reset (h : SoundAt P e strict m s) : SoundAt P e strict m (s.reset.toOption.getD s) := by
  rw [Stream.reset]
  split_ifs
  · exact h
  · exact h
  · exact h
  · exact h

theorem SoundAt.fill {item : Pending} {data : List UInt8} (h : SoundAt P e strict m s) (hf : P.Free e m free)
    (hown : ∀ a, Owns P m s a → ¬ free a) (hb : Arrived P m [item] B data) (hnd : B.Nodup)
    (hnew : ∀ a ∈ B, ¬ free a ∧ ¬ Owns P m s a) (hused : strict = true → ∀ a ∈ B, BufferHeader.isInUsed m a = true)
    (hcall : fillDataToReadBuffer P.manager m s item = some (m', s')) : SoundAt P e strict m' s' := by
  obtain ⟨free₀, A, hs₀⟩ := h
  have hs := hs₀.others hf (fun a ha => hown a (hs₀.owns_iff.mpr ha)) fun _ _ _ _ => .refl _ _ _
  have hs₁ := hs.deliver hb hnd (fun a ha => ⟨(hnew a ha).1, fun hx => (hnew a ha).2 (hs.owns_iff.mpr hx)⟩) hused
  rw [fillDataToReadBuffer] at hcall
  split_ifs at hcall
  · obtain ⟨m₁, free₁, hclean, hs₂, -⟩ := hs₁.cleanAll
    obtain ⟨m₂, free₂, hrec, hs₃, -⟩ := hs₂.recycleRecv
    rw [cleanPendingData, hclean] at hcall
    simp only [Option.map_some, Stream.recycleRecv, hrec] at hcall
    cases hcall
    exact ⟨free₂, [], hs₃⟩
  · cases hcall
    exact ⟨free, A ++ B, hs₁⟩

/-- A call of the user on a stream, or on one of its buffers as `recv_buf()` and `send_buf()` hand them out. -/
inductive Call
  | read
  | readBytes (size : ℕ)
  | peek (size : ℕ)
  | discard (size : ℕ)
  | writeBytes (bytes : List UInt8)
  | reserve (bytes : List UInt8)
  | flush (ans : Answers)
  | close (ans : Answers)
  | reset
  | releaseReadAndReuse
  | recvBuf (c : Reserving.Call)
  | sendBuf (c : Reserving.Call)

def call (bm : BufferManager) (m : Mem) (s : Stream) : Call → Option (Mem × Stream)
  | .read => (s.read bm m).map fun r => (r.1, r.2.1)
  | .readBytes size => (s.readBytes bm m size).map fun r => (r.1, r.2.1)
  | .peek size => (s.peek bm m size).map fun r => (r.1, r.2.1)
  | .discard size => (s.discard bm m size).map fun r => (r.1, r.2.1)
  | .writeBytes bytes => s.writeBytes bm m bytes
  | .reserve bytes => (reserveFill bytes (s.sendBuf.reserve bm m bytes.length)).map fun r => (r.1, { s with sendBuf := r.2 })
  | .flush ans => (s.flush bm ans m).map fun r => (r.1, r.2.1)
  | .close ans => (s.close bm ans m).map fun r => (r.1, r.2.1)
  | .reset => some (m, s.reset.toOption.getD s)
  | .releaseReadAndReuse => some (s.releaseReadAndReuse bm m)
  | .recvBuf c => (Reserving.call bm m s.recvBuf c).map fun r => (r.1, { s with recvBuf := r.2 })
  | .sendBuf c => (Reserving.call bm m s.sendBuf c).map fun r => (r.1, { s with sendBuf := r.2 })

-- in a strict run slots are not reset for reuse, and the buffers are not used on their own but to release what was read
def Legal (P : Pool) (e strict : Bool) (m : Mem) (s : Stream) : Call → Prop
  | .reserve bytes => Fits P.manager m s.sendBuf bytes.length
  | .releaseReadAndReuse => strict = false
  | .recvBuf c => Reserving.Legal P e m s.recvBuf c ∧ c.Own ∧ (strict = true → c = .releasePreviousRead)
  | .sendBuf c => Reserving.Legal P e m s.sendBuf c ∧ c.Own ∧ strict = false
  | _ => True

inductive Run (P : Pool) (e strict : Bool) : Mem → Stream → Prop
  | start {m : Mem} {free : ℕ → Prop} (id : ℕ) : P.Free e m free → Run P e strict m (.empty id)
  | call {m m' : Mem} {s s' : Stream} {c : Call} : Run P e strict m s → Legal P e strict m s c →
      call P.manager m s c = some (m', s') → Run P e strict m' s'
  | fill {m m' : Mem} {free : ℕ → Prop} {s s' : Stream} {item : Pending} {B : List ℕ} {data : List UInt8} : Run P e strict m s →
      P.Free e m free → (∀ a, Owns P m s a → ¬ free a) → Arrived P m [item] B data → B.Nodup →
      (∀ a ∈ B, ¬ free a ∧ ¬ Owns P m s a) → (strict = true → ∀ a ∈ B, BufferHeader.isInUsed m a = true) →
      s.fillDataToReadBuffer P.manager m item = some (m', s') → Run P e strict m' s'
  | halfClose {m : Mem} {s : Stream} : Run P e strict m s → Run P e strict m s.halfClose
  | others {m m' : Mem} {free' : ℕ → Prop} {s : Stream} : Run P e strict m s → P.Free e m' free' →
      (∀ a, Owns P m s a → ¬ free' a) → (∀ d a, P.Slot d a → Owns P m s a → SameOn m m' a (a + (d + 20))) →
      Run P e strict m' s

theorem SoundAt.call {c : Call} (h : SoundAt P e strict m s) (hlegal : Legal P e strict m s c)
    (hcall : call P.manager m s c = some (m', s')) : SoundAt P e strict m' s' := by
  cases c with
  | read =>
    obtain ⟨⟨m₁, s₁, ret⟩, hread, hcall⟩ := Option.map_eq_some_iff.mp hcall
    cases hcall
    exact h.reading (fun _ _ _ _ _ _ hb hr => hb.readBytes hr) hread
  | readBytes size =>
    obtain ⟨⟨m₁, s₁, ret⟩, hread, hcall⟩ := Option.map_eq_some_iff.mp hcall
    cases hcall
    exact h.reading (fun _ _ _ _ _ _ hb hr => hb.readBytes hr) hread
  | peek size =>
    obtain ⟨⟨m₁, s₁, ret⟩, hread, hcall⟩ := Option.map_eq_some_iff.mp hcall
    cases hcall
    refine h.reading (fun m free b m' b' r hb hr => ?_) hread
    obtain ⟨rfl, hpeek⟩ := Prod.mk.inj hr
    obtain ⟨p, hp⟩ := Open.peek_fst m b size
    rw [← show (LinkedBuffer.peek m b size).1 = b' from congrArg Prod.fst hpeek, hp]
    exact ⟨free, hb.pinned p, .refl _ _ _ _⟩
  | discard size =>
    obtain ⟨⟨m₁, s₁, ret⟩, hread, hcall⟩ := Option.map_eq_some_iff.mp hcall
    cases hcall
    exact h.reading (fun _ _ _ _ _ _ hb hr => hb.discard hr) hread
  | writeBytes bytes =>
    obtain ⟨free, A, hs⟩ := h
    obtain ⟨⟨m₁, b₁⟩, hwrite, hcall⟩ := Option.map_eq_some_iff.mp hcall
    cases hcall
    obtain ⟨free', hb, hw⟩ := hs.sendOpen.writeBytes hwrite
    exact ⟨free', A, hs.exchangeSend hb hw.exchange fun hstrict => hw.pinned.1.trans (hs.plain hstrict)⟩
  | reserve bytes =>
    obtain ⟨free, A, hs⟩ := h
    obtain ⟨⟨m₁, b₁⟩, hfill, hcall⟩ := Option.map_eq_some_iff.mp hcall
    cases hcall
    obtain ⟨free', hb, hw⟩ := hs.sendOpen.reserveFill hlegal hfill
    exact ⟨free', A, hs.exchangeSend hb hw.exchange fun hstrict => hw.pinned.1.trans (hs.plain hstrict)⟩
  | flush ans =>
    obtain ⟨⟨m₁, s₁, ret, sent⟩, hflush, hcall⟩ := Option.map_eq_some_iff.mp hcall
    cases hcall
    exact h.flush hflush
  | close ans =>
    obtain ⟨⟨m₁, s₁, ret, sent⟩, hclose, hcall⟩ := Option.map_eq_some_iff.mp hcall
    cases hcall
    exact h.close hclose
  | reset =>
    cases hcall
    exact h.reset
  | releaseReadAndReuse =>
    have hfalse : strict = false := hlegal
    subst hfalse
    exact h.releaseReadAndReuse (Option.some.inj hcall)
  | recvBuf c =>
    obtain ⟨free, A, hs⟩ := h
    obtain ⟨⟨m₁, b₁⟩, hbuf, hcall⟩ := Option.map_eq_some_iff.mp hcall
    cases hcall
    obtain ⟨hleg, hown, hstrict⟩ := hlegal
    cases strict with
    | false =>
      obtain ⟨free', hb, hframe⟩ := Reserving.frame_call hs.recvOpen hleg hown hbuf
      exact ⟨free', A, hs.onRecv hb hframe nofun⟩
    | true =>
      obtain ⟨free', hb, hex⟩ := Reserving.exchange_call hs.recvOpen hleg (by rw [hstrict rfl]; trivial) hbuf
      exact ⟨free', A, hs.exchangeRecv hb hex⟩
  | sendBuf c =>
    obtain ⟨free, A, hs⟩ := h
    obtain ⟨⟨m₁, b₁⟩, hbuf, hcall⟩ := Option.map_eq_some_iff.mp hcall
    cases hcall
    obtain ⟨hleg, hown, rfl⟩ := hlegal
    obtain ⟨free', hb, hframe⟩ := Reserving.frame_call hs.sendOpen hleg hown hbuf
    exact ⟨free', A, hs.onSend hb hframe nofun nofun⟩

theorem soundAt_of_run (h : Run P e strict m s) : SoundAt P e strict m s := by
  induction h with
  | start id hf => exact ⟨_, [], .start hf⟩
  | call _ hlegal hcall ih => exact ih.call hlegal hcall
  | fill _ hf hown hb hnd hnew hused hfill ih => exact ih.fill hf hown hb hnd hnew hused hfill
  | halfClose _ ih =>
    rw [halfClose]
    split_ifs
    · exact ih
    · exact ih
  | others _ hf hown hsame ih =>
    obtain ⟨free, A, hs⟩ := ih
    exact ⟨_, A, hs.others hf (fun a ha => hown a (hs.owns_iff.mpr ha)) fun d a hd ha => hsame d a hd (hs.owns_iff.mpr ha)⟩

end Stream

end Shmipc
