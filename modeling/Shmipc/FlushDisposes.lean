import Shmipc.PublishedChain

namespace Shmipc

open ByteMemory LinkedBuffer

inductive Written (P : Pool) : Mem → LinkedBuffer → Prop
  | start {m : Mem} {free : ℕ → Prop} : P.Free true m free → Written P m .empty
  | writeBytes {m m' : Mem} {b b' : LinkedBuffer} {bytes : List UInt8} : Written P m b → 1 ≤ bytes.length →
      bytes.length < 4294967296 → writeBytes P.manager m b bytes = some (m', b') → Written P m' b'
  | reserve {m m' : Mem} {b b' : LinkedBuffer} {bytes : List UInt8} : Written P m b → 1 ≤ bytes.length →
      bytes.length < 4294967296 → reserveFill bytes (reserve P.manager m b bytes.length) = some (m', b') → Written P m' b'
  | others {m m' : Mem} {b : LinkedBuffer} {free' : ℕ → Prop} : Written P m b → P.Free true m' free' →
      (∀ a ∈ b.held, ¬ free' a) → Untouched P m m' b.held → Written P m' b

namespace LinkedBuffer

structure Loaded (P : Pool) (m : Mem) (free : ℕ → Prop) (b : LinkedBuffer) : Prop extends Valid P true m free b where
  starts : ∀ x ∈ b.sliceList, AtStart x.slice
  flags : ∀ a ∈ b.held, BufferHeader.isInUsed m a = true ∧ BufferHeader.hasNext m a = false
  pinned : b.pinnedList = []

variable {P : Pool} {m m' : Mem} {free free' : ℕ → Prop} {b b' : LinkedBuffer} {bytes : List UInt8}

namespace Loaded

theorem start (h : P.Free true m free) : Loaded P m free .empty := ⟨.empty h, nofun, nofun, rfl⟩

theorem puts (h : Loaded P m free b) {r : Option (Mem × LinkedBuffer)} (hputs : Puts P true m free b bytes r)
    (hr : r = some (m', b')) : ∃ free', Loaded P m' free' b' := by
  obtain ⟨m₁, free', b₁, hr₁, hwrote, hback, hlen⟩ := hputs
  cases hr₁.symm.trans hr
  have hsize := congrArg List.length hwrote.unread
  rw [List.length_append, unreadOf_length (fun x hx => hwrote.base.mem_slice hx), unreadOf_length (fun x hx => h.mem_slice hx),
    ← h.len] at hsize
  refine ⟨free', ⟨hwrote.base, hback, hlen.trans hsize.symm⟩, hwrote.starts h.starts, ?_, hwrote.pinned.1.trans h.pinned⟩
  intro a ha
  by_cases hold : a ∈ b.held
  · obtain ⟨-, hsame⟩ := hwrote.kept a hold
    rw [BufferHeader.isInUsed_congr hsame, BufferHeader.hasNext_congr hsame]
    exact h.flags a hold
  · exact hwrote.flags a ha hold

theorem others (h : Loaded P m free b) (hf : P.Free true m' free') (hown : ∀ a ∈ b.held, ¬ free' a)
    (hsame : Untouched P m m' b.held) : Loaded P m' free' b := by
  refine ⟨h.toValid.others hf hown, h.starts, ?_, h.pinned⟩
  intro a ha
  obtain ⟨d, hd⟩ := h.slots a ha
  have hheader := (hsame d a hd ha).mono le_rfl (show a + 20 ≤ _ by omega)
  rw [BufferHeader.isInUsed_congr hheader, BufferHeader.hasNext_congr hheader]
  exact h.flags a ha

theorem of_written (h : Written P m b) : ∃ free, Loaded P m free b := by
  induction h with
  | start hf => exact ⟨_, start hf⟩
  | writeBytes _ _ hlt hcall ih =>
    obtain ⟨free, hl⟩ := ih
    exact hl.puts (writeBytes_puts hl.toValid hlt) hcall
  | reserve _ hpos hlt hcall ih =>
    obtain ⟨free, hl⟩ := ih
    exact hl.puts (reserve_puts hl.toValid (List.length_pos_iff.mp hpos) hlt) hcall
  | others _ hf hown hsame ih =>
    obtain ⟨free, hl⟩ := ih
    exact ⟨_, hl.others hf hown hsame⟩

theorem done (h : Loaded P m free b) (hpos : b.len ≠ 0) :
    ∃ m', done P.manager m b = some (m', b) ∧ Base P true m' free b ∧ (∀ a ∈ b.held, BufferHeader.isInUsed m' a = true) ∧
      (b.isFromShm = true → Chain P m' b.rootBufOffset b.held) := by
  obtain ⟨m', hdone, hup⟩ := done_updates h.toValid
  refine ⟨m', hdone, hup.base, ?_, ?_⟩
  · intro a ha
    rcases hup.exchange.used a ha (h.flags a ha).1 with ⟨-, hused⟩ | hfree
    · exact hused
    · exact absurd hfree (h.holds.owned a ha)
  · intro hshm
    have hne : b.sliceList ≠ [] := by
      intro hnil
      rw [h.len, hnil] at hpos
      exact hpos rfl
    obtain ⟨m₁, hdone₁, -, hchain, -⟩ := h.toValid.done_chain hshm hne (fun x hx => (h.starts x hx).1) fun a ha => (h.flags a ha).2
    cases hdone.symm.trans hdone₁
    rwa [held, nodes, h.pinned, List.append_nil]

end Loaded

theorem recycle_back (h : Base P true m free b) (hpinned : b.pinnedList = [])
    (hused : ∀ a ∈ b.held, BufferHeader.isInUsed m a = true) :
    ∃ m' free', recycle P.manager m b = (m', b.clean) ∧ P.Free true m' free' ∧ ∀ a ∈ b.held, free' a := by
  obtain ⟨m', free', hrec, hvalid, hex⟩ := recycle_spec h
  refine ⟨m', free', hrec, hvalid.holds.pool, ?_⟩
  intro a ha
  rcases hex.used a ha (hused a ha) with ⟨hnone, -⟩ | hfree
  · rw [hpinned] at hnone
    cases hnone
  · exact hfree

end LinkedBuffer

def Sent.Names (P : Pool) (m : Mem) (a : ℕ) : Sent → Prop
  | .element e => ∃ A, Chain P m e.offsetInShmBuf A ∧ a ∈ A
  | .frame _ => False

namespace Stream

variable {P : Pool} {m m' : Mem} {free free' : ℕ → Prop} {s : Stream} {ans : Answers} {status : ℕ} {A : List ℕ}

inductive Disposed (P : Pool) (A : List ℕ) (b : LinkedBuffer) : Mem × Stream × Result Unit × List Sent → Prop
  | handed {m : Mem} {s : Stream} {ret : Result Unit} {e : QueueElement} {free : ℕ → Prop} : P.Free true m free →
      s.sendBuf = b.clean → Chain P m e.offsetInShmBuf A → (∀ a ∈ A, ¬ free a) → Disposed P A b (m, s, ret, [.element e])
  | returned {m : Mem} {s : Stream} {ret : Result Unit} {sent : List Sent} {free : ℕ → Prop} : P.Free true m free →
      s.sendBuf = b.clean → (∀ a ∈ A, free a) → (∀ x ∈ sent, ∃ f, x = .frame f) → Disposed P A b (m, s, ret, sent)

def Returns (P : Pool) (m : Mem) (s : Stream) (A : List ℕ) : Prop :=
  ∃ m' free', recycleSend P.manager m s = (m', s.cleanSend) ∧ P.Free true m' free' ∧ ∀ a ∈ A, free' a

structure Linked (P : Pool) (m : Mem) (free : ℕ → Prop) (s : Stream) (A : List ℕ) : Prop where
  pool : P.Free true m free
  owned : ∀ a ∈ A, ¬ free a
  chain : Chain P m s.sendBuf.rootBufOffset A

theorem Linked.put (h : Linked P m free s A) (status : ℕ) (ret : Result Unit) :
    Disposed P A s.sendBuf (m, s.cleanSend, ret, [.element (s.element status)]) :=
  .handed h.pool rfl h.chain h.owned

theorem flushRetry_disposes (hret : Returns P m s A) (hlink : Linked P m free s A) (left retry : ℕ) :
    Disposed P A s.sendBuf (flushRetry P.manager ans status left retry m s) := by
  obtain ⟨m', free', hrec, hfree, hback⟩ := hret
  induction left generalizing retry with
  | zero =>
    simp only [flushRetry, hrec]
    exact .returned hfree rfl hback nofun
  | succ left ih =>
    simp only [flushRetry, hrec]
    split_ifs
    · exact .returned hfree rfl hback nofun
    · cases ans.put (retry + 1) with
      | ok _ => exact hlink.put status _
      | error err =>
        simp only
        split_ifs
        · exact ih (retry + 1)
        · exact .returned hfree rfl hback nofun

theorem flushRing_disposes (hret : Returns P m s A) (hlink : Linked P m free s A) :
    Disposed P A s.sendBuf (flushRing P.manager ans m s status) := by
  rw [flushRing]
  cases ans.put 0 with
  | ok _ => exact hlink.put status _
  | error err =>
    simp only
    split_ifs
    · exact flushRetry_disposes hret hlink 10 0
    · obtain ⟨m', free', hrec, hfree, hback⟩ := hret
      simp only [hrec]
      exact .returned hfree rfl hback nofun

theorem writeFallback_disposes (hret : Returns P m s A) {ret : Result Unit} {sent : List Sent} {s' : Stream}
    (h : writeFallback P.manager ans m s status = (m', s', ret, sent)) : Disposed P A s.sendBuf (m', s'.cleanSend, ret, sent) := by
  obtain ⟨m₁, free', hrec, hfree, hback⟩ := hret
  simp only [writeFallback, hrec] at h
  split_ifs at h
  · cases h
    exact .returned hfree rfl hback nofun
  · cases hsend : ans.waitForSend with
    | ok _ =>
      simp only [hsend] at h
      cases h
      refine .returned hfree rfl hback ?_
      intro x hx
      exact ⟨_, List.mem_singleton.mp hx⟩
    | error err =>
      simp only [hsend] at h
      cases h
      exact .returned hfree rfl hback nofun

theorem flushDone_disposes (hret : ∀ s' : Stream, s'.sendBuf = s.sendBuf → Returns P m s' A)
    (hlink : s.sendBuf.isFromShm = true → Linked P m free s A) :
    Disposed P A s.sendBuf (flushDone P.manager ans m s status) := by
  rw [flushDone]
  by_cases hshm : s.sendBuf.isFromShm = true
  · rw [if_pos hshm]
    split_ifs
    · rcases hwrite : writeFallback P.manager ans m s status with ⟨m', s', ret, sent⟩
      exact writeFallback_disposes (hret s rfl) hwrite
    · exact flushRing_disposes (hret s rfl) (hlink hshm)
  · rw [if_neg hshm, if_pos rfl]
    rcases hwrite : writeFallback P.manager ans m { s with inFallbackState := true } status with ⟨m', s', ret, sent⟩
    have hdisp := writeFallback_disposes (hret { s with inFallbackState := true } rfl) hwrite
    simpa only [hwrite] using hdisp

theorem flush_disposed (h : Loaded P m free s.sendBuf) (hne : s.sendBuf.len ≠ 0) (ans : Answers) :
    ∃ r, flush P.manager ans m s = some r ∧ Disposed P s.sendBuf.held s.sendBuf r := by
  have hreturns : ∀ {m : Mem} (s' : Stream), s'.sendBuf = s.sendBuf → Base P true m free s.sendBuf →
      (∀ a ∈ s.sendBuf.held, BufferHeader.isInUsed m a = true) → Returns P m s' s.sendBuf.held := by
    intro m s' hs hbase hused
    obtain ⟨m', free', hrec, hfree, hback⟩ := recycle_back hbase h.pinned hused
    refine ⟨m', free', ?_, hfree, hback⟩
    rw [recycleSend, hs, hrec]
    simp only [cleanSend, hs]
  rw [flush, if_neg hne]
  by_cases hopened : s.state ≠ .opened
  · rw [if_pos hopened]
    obtain ⟨m', free', hrec, hfree, hback⟩ := hreturns s rfl h.toBase fun a ha => (h.flags a ha).1
    simp only [hrec]
    exact ⟨_, rfl, .returned hfree rfl hback nofun⟩
  · rw [if_neg hopened]
    obtain ⟨m', hdone, hbase, hused, hchain⟩ := h.done hne
    rw [hdone]
    refine ⟨_, rfl, ?_⟩
    apply flushDone_disposes
    · intro s' hs
      exact hreturns s' hs hbase hused
    · intro hshm
      exact ⟨hbase.holds.pool, hbase.holds.owned, hchain hshm⟩

def NamedOnce (P : Pool) (m : Mem) (sent : List Sent) (a : ℕ) : Prop := ∃! i : ℕ, ∃ x, sent[i]? = some x ∧ x.Names P m a

theorem not_named {sent : List Sent} (h : ∀ x ∈ sent, ∃ f, x = .frame f) (a : ℕ) : ¬ NamedOnce P m sent a := by
  rintro ⟨i, ⟨x, hx, hname⟩, -⟩
  obtain ⟨f, rfl⟩ := h x (List.mem_of_getElem? hx)
  exact hname

theorem flush_disposes (h : Written P m s.sendBuf) (hne : s.sendBuf.len ≠ 0) (ans : Answers) :
    ∃ m' s' ret sent free', flush P.manager ans m s = some (m', s', ret, sent) ∧ P.Free true m' free' ∧
      s'.sendBuf.sliceList = [] ∧ s'.sendBuf.len = 0 ∧ s'.sendBuf.isFromShm = true ∧
      ∀ a ∈ s.sendBuf.held, Xor (NamedOnce P m' sent a) (free' a) := by
  obtain ⟨free, hloaded⟩ := Loaded.of_written h
  obtain ⟨r, hflush, hdisp⟩ := flush_disposed hloaded hne ans
  rw [hflush]
  cases hdisp with
  | @handed m' s' ret e free' hfree hclean hchain hown =>
    refine ⟨m', s', ret, _, free', rfl, hfree, by rw [hclean]; rfl, by rw [hclean]; rfl, by rw [hclean]; rfl, ?_⟩
    intro a ha
    refine .inl ⟨⟨0, ⟨_, rfl, _, hchain, ha⟩, ?_⟩, hown a ha⟩
    rintro i ⟨x, hx, -⟩
    have hlt := (List.getElem?_eq_some_iff.mp hx).1
    simpa using hlt
  | @returned m' s' ret sent free' hfree hclean hback hframes =>
    refine ⟨m', s', ret, sent, free', rfl, hfree, by rw [hclean]; rfl, by rw [hclean]; rfl, by rw [hclean]; rfl, ?_⟩
    intro a ha
    exact .inr ⟨hback a ha, not_named hframes a⟩

theorem flush_disposes_small : ∃ m s m' s' ret sent, ∃ free' : ℕ → Prop, s.sendBuf.len = 5 ∧
    flush Built.threeSlots.manager ⟨3, false, fun _ => .error (.ofKind .queueFull), fun _ => false, .ok ()⟩ m s =
      some (m', s', ret, sent) ∧
    s'.sendBuf.sliceList = [] ∧ ∀ a ∈ s.sendBuf.held, Xor (NamedOnce Built.threeSlots m' sent a) (free' a) := by
  have hfree := Built.threeMem_free
  have hstart : Written Built.threeSlots Built.threeMem .empty := .start hfree
  obtain ⟨m', -, b', hcall, -, -, hlen⟩ := writeBytes_puts (Loaded.start hfree).toValid (show [1, 2, 3, 4, 5].length < 4294967296 by decide)
  have hwritten := hstart.writeBytes (by decide) (by decide) hcall
  have hfive : b'.len = 5 := hlen
  obtain ⟨m₁, s₁, ret, sent, free₁, hflush, -, hnil, -, -, hslots⟩ := flush_disposes (s := { Stream.empty 1 with sendBuf := b' })
    hwritten (by rw [hfive]; decide) ⟨3, false, fun _ => .error (.ofKind .queueFull), fun _ => false, .ok ()⟩
  exact ⟨m', _, m₁, s₁, ret, sent, free₁, hfive, hflush, hnil, hslots⟩

end Stream

end Shmipc
