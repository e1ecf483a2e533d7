import Shmipc.Library.Transition
import Shmipc.StreamChain
import Shmipc.ManagerLayout

namespace Shmipc

open ByteMemory Transition

namespace BufferManager

variable {I : Mem → Prop} {ls : List BufferList} {m : Mem}

theorem allocLoop_rule {l : BufferList} (hpop : ∀ m, I m → I (l.pop m).1) (hm : I m) (rounds : ℕ) (remain : ℤ) :
    I (allocLoop l rounds m remain).1 := by
  induction rounds generalizing m remain with
  | zero => exact hm
  | succ rounds ih =>
    rw [allocLoop]
    split_ifs
    · have hnext := hpop m hm
      revert hnext
      rcases l.pop m with ⟨m₁, err | buf⟩
      · exact fun hnext => hnext
      · exact fun hnext => ih hnext _
    · exact hm

theorem allocLists_rule (hpop : ∀ l ∈ ls, ∀ m, I m → I (l.pop m).1) (hm : I m) (remain : ℤ) :
    I (allocLists ls m remain).1 := by
  induction ls generalizing m remain with
  | nil => exact hm
  | cons l ls ih =>
    rw [allocLists]
    split_ifs
    · exact ih (fun l' hl' => hpop l' (List.mem_cons_of_mem _ hl'))
        (allocLoop_rule (hpop l List.mem_cons_self) hm _ _) _
    · exact hm

theorem allocShmBuffers_rule {bm : BufferManager} (hpop : ∀ l ∈ bm.lists, ∀ m, I m → I (l.pop m).1) (hm : I m) (size : ℕ) :
    I (bm.allocShmBuffers m size).1 :=
  allocLists_rule (fun l hl => hpop l (List.mem_reverse.mp hl)) hm _

theorem allocShmBuffer_rule {bm : BufferManager} (hpop : ∀ l ∈ bm.lists, ∀ m, I m → I (l.pop m).1) (hm : I m) (size : ℕ) :
    I (bm.allocShmBuffer m size).1 := by
  rw [allocShmBuffer]
  split_ifs
  · split
    · next l hl => exact hpop l (List.mem_of_find?_eq_some hl) m hm
    · exact hm
  · exact hm

end BufferManager

namespace Pool

variable {P : Pool} {e : Bool} {m m' m'' : Mem} {F : SizeClass → List ℕ} {free : ℕ → Prop} {j k : SizeClass} {a c : ℕ}

structure Keeps (P : Pool) (m m' : Mem) : Prop where
  header : SameOn m m' 0 8
  caps : ∀ k ∈ P.classes, k.list.capLoad m' = k.list.capLoad m

theorem Keeps.refl (P : Pool) (m : Mem) : P.Keeps m m := ⟨.refl _ _ _, fun _ _ => rfl⟩

theorem Keeps.trans (h : P.Keeps m m') (h' : P.Keeps m' m'') : P.Keeps m m'' :=
  ⟨h.header.trans h'.header, fun k hk => (h'.caps k hk).trans (h.caps k hk)⟩

section Behind

variable (hbehind : ∀ k ∈ P.classes, 8 ≤ k.list.offsetInShm)
include hbehind

theorem Slot.behind (hs : P.Slot c a) : 8 ≤ a := by
  obtain ⟨k, hk, -, hle, -⟩ := slot_bounds hs
  have := hbehind k hk
  omega

theorem Touches.keeps {A : List ℕ} (hk : k ∈ P.classes) (hA : ∀ a ∈ A, ∃ c, P.Slot c a) (ht : Touches k A m m')
    (hcap : k.list.capLoad m' = k.list.capLoad m) : P.Keeps m m' where
  header := by
    refine ht 0 8 (.inr (hbehind k hk)) fun a ha => ?_
    obtain ⟨c, hc⟩ := hA a ha
    exact .inr (hc.behind hbehind)
  caps j hj := by
    by_cases hjk : j = k
    · rw [hjk]
      exact hcap
    · exact (j.list.words_congr (Touches.header hk hA ht hj hjk)).2.1

theorem Free.keeps_pop (h : P.Free e m free) (hk : k ∈ P.classes) : P.Keeps m (k.list.pop m).1 := by
  obtain ⟨F, hF, -⟩ := h
  rcases BufferList.pop_cases (arena k) (hF.slot k hk) (hF.chain k hk) with he | ⟨a, b, L, hL, he⟩
  · rw [he]
    exact .refl P m
  · have ha := hF.slot k hk a (by rw [hL]; exact List.mem_cons_self)
    rw [he]
    refine Touches.keeps hbehind hk ?_ (touches_popped k m a _) ?_
    · intro x hx
      rw [List.mem_singleton.mp hx]
      exact ⟨_, ha.1⟩
    · exact (k.list.popped_words _ ha.2 (BufferHeader.nextBufferOffset_lt _ _)).1

theorem Free.keeps_recycleBuffer {s : BufferSlice} (h : P.Free e m free) (hs : P.Refers s a)
    (hu : BufferHeader.isInUsed m a = true) : P.Keeps m (P.manager.recycleBuffer m s) := by
  obtain ⟨F, hF, -⟩ := h
  obtain ⟨k, hk, -, hslot, hle, -, heq⟩ := hF.recycleBuffer_eq hs hu
  have htail := hF.slot k hk _ (List.mem_of_getLast? (hF.chain k hk).tail)
  have hlt := hslot.lt
  rw [heq]
  refine Touches.keeps hbehind hk ?_ (touches_pushed k m a _ _) ?_
  · intro x hx
    simp only [List.mem_cons, List.not_mem_nil, or_false] at hx
    rcases hx with rfl | rfl
    · exact ⟨_, hslot⟩
    · exact ⟨_, htail.1⟩
  · exact (k.list.pushed_words _ hle htail.2 (by omega)).1

theorem Slot.keeps (hs : P.Slot c a) (hout : ∀ lo hi, a + (c + 20) ≤ lo ∨ hi ≤ a → SameOn m m' lo hi) : P.Keeps m m' where
  header := hout 0 8 (.inr (hs.behind hbehind))
  caps k hk := by
    have hoff := hs.off_header hk
    exact (k.list.words_congr (hout _ _ (by omega))).2.1

end Behind

theorem Free.congr_free {free' : ℕ → Prop} (h : P.Free e m free) (hiff : ∀ a, free' a ↔ free a) : P.Free e m free' := by
  obtain ⟨F, hF, hfree⟩ := h
  exact ⟨F, hF, fun a => (hiff a).trans (hfree a)⟩

end Pool

namespace ManagerRun

structure State where
  mem : Mem
  held : List BufferSlice

inductive Op
  | allocShmBuffer (size : ℕ)
  | allocShmBuffers (size : ℕ)
  /-- The holder has written up to `writeIndex` and publishes the slice, linked to the held slice `next`. -/
  | update (i writeIndex : ℕ) (next : Option ℕ)
  | recycleBuffer (i : ℕ)
  | recycleBuffers (i : ℕ)
deriving DecidableEq

def chainFrom (m : Mem) : ℕ → ℕ → Option (List ℕ)
  | 0, _ => none
  | fuel + 1, a =>
    if BufferHeader.hasNext m a then (chainFrom m fuel (BufferHeader.nextBufferOffset m a)).map (a :: ·) else some [a]

/-- A chain is given back only when it is built of held slots. -/
def step (bm : BufferManager) (s : State) : Op → Option State
  | .allocShmBuffer size =>
    match bm.allocShmBuffer s.mem size with
    | (m, .ok buf) => some ⟨m, buf :: s.held⟩
    | (m, .error _) => some ⟨m, s.held⟩
  | .allocShmBuffers size =>
    let (m, _, slices) := bm.allocShmBuffers s.mem size
    some ⟨m, slices ++ s.held⟩
  | .update i writeIndex next => s.held[i]?.map fun x =>
    let x := { x with writeIndex := writeIndex }
    ⟨x.update s.mem (next.bind fun j => s.held[j]?.map BufferSlice.offsetInShm), s.held⟩
  | .recycleBuffer i => s.held[i]?.map fun x => ⟨bm.recycleBuffer s.mem x, s.held.eraseIdx i⟩
  | .recycleBuffers i => s.held[i]?.bind fun x => x.bufferHeader.bind fun a =>
    (chainFrom s.mem s.held.length a).bind fun chain =>
      if chain.Nodup ∧ ∀ b ∈ chain, b ∈ Pool.slots s.held then
        (bm.recycleBuffers s.held.length s.mem x).map fun m =>
          ⟨m, s.held.filter fun y => ∀ b ∈ chain, y.bufferHeader ≠ some b⟩
      else none

def system (bm : BufferManager) (m : Mem) : System State Op where
  initial s := s = ⟨m, []⟩
  step := step bm

def rest (P : Pool) (held : List BufferSlice) (a : ℕ) : Prop := (∃ c, P.Slot c a) ∧ a ∉ Pool.slots held

structure Inv (P : Pool) (e : Bool) (m₀ : Mem) (m : Mem) (held : List BufferSlice) : Prop where
  pool : P.Free e m (rest P held)
  refers : ∀ x ∈ held, ∃ a, P.Refers x a ∧ BufferHeader.isInUsed m a = true
  distinct : (Pool.slots held).Nodup
  keeps : P.Keeps m₀ m

variable {P : Pool} {e : Bool} {m₀ m m' : Mem} {held held' : List BufferSlice} {x : BufferSlice} {a c : ℕ}

theorem mem_slots (hx : x ∈ held) (ha : x.bufferHeader = some a) : a ∈ Pool.slots held :=
  List.mem_filterMap.mpr ⟨x, hx, ha⟩

theorem not_rest (ha : a ∈ Pool.slots held) : ¬rest P held a := fun hr => hr.2 ha

theorem Inv.slot (h : Inv P e m₀ m held) (ha : a ∈ Pool.slots held) :
    ∃ x ∈ held, P.Refers x a ∧ BufferHeader.isInUsed m a = true := by
  obtain ⟨x, hx, hxa⟩ := List.mem_filterMap.mp ha
  obtain ⟨b, hb, hu⟩ := h.refers x hx
  rw [hb.header] at hxa
  cases hxa
  exact ⟨x, hx, hb, hu⟩

theorem Inv.takes {ss : List BufferSlice} {free' : ℕ → Prop} (h : Inv P e m₀ m held) (ht : P.Takes e m (rest P held) ss m' free')
    (hk : P.Keeps m m') : Inv P e m₀ m' (ss ++ held) := by
  have hslots : Pool.slots (ss ++ held) = Pool.slots ss ++ Pool.slots held := List.filterMap_append
  constructor
  · apply ht.state.congr_free
    intro a
    rw [ht.free_iff, rest, rest, hslots, List.mem_append]
    tauto
  · intro x hx
    rcases List.mem_append.mp hx with hx | hx
    · obtain ⟨c, a, rfl, hs, -, hu, -⟩ := ht.mem hx
      exact ⟨a, ⟨rfl, rfl, rfl, hs⟩, hu⟩
    · obtain ⟨a, ha, hu⟩ := h.refers x hx
      refine ⟨a, ha, ?_⟩
      have hsame := ht.frame ha.slot (not_rest (mem_slots hx ha.header))
      rw [BufferHeader.isInUsed_congr (hsame.mono le_rfl (by omega))]
      exact hu
  · rw [hslots]
    refine ht.nodup.append h.distinct fun a ha hb => ?_
    obtain ⟨s, hs, hsa⟩ := List.mem_filterMap.mp ha
    obtain ⟨c, b, rfl, -, hf, -⟩ := ht.mem hs
    cases hsa
    exact hf.2 hb
  · exact h.keeps.trans hk

theorem Inv.gives (h : Inv P e m₀ m held) (hg : P.Gave e m (rest P held) a m') (hs : P.Slot c a) (hk : P.Keeps m m')
    (hheld : held'.Sublist held) (hslots : ∀ b, b ∈ Pool.slots held' ↔ b ∈ Pool.slots held ∧ b ≠ a) :
    Inv P e m₀ m' held' := by
  constructor
  · apply hg.state.congr_free
    intro b
    rw [rest, rest, hslots]
    constructor
    · rintro ⟨hb, hnot⟩
      by_cases hba : b = a
      · exact .inr hba
      · exact .inl ⟨hb, fun hin => hnot ⟨hin, hba⟩⟩
    · rintro (⟨hb, hnot⟩ | rfl)
      · exact ⟨hb, fun hin => hnot hin.1⟩
      · exact ⟨⟨c, hs⟩, fun hin => hin.2 rfl⟩
  · intro y hy
    obtain ⟨b, hb, hu⟩ := h.refers y (hheld.subset hy)
    refine ⟨b, hb, ?_⟩
    have hin := (hslots b).mp (mem_slots hy hb.header)
    have hsame := hg.frame _ b hb.slot (not_rest hin.1) hin.2
    rw [BufferHeader.isInUsed_congr (hsame.mono le_rfl (by omega))]
    exact hu
  · exact (hheld.filterMap _).nodup h.distinct
  · exact h.keeps.trans hk

theorem chainFrom_congr {fuel : ℕ} {chain : List ℕ} (h : chainFrom m fuel a = some chain)
    (hsame : ∀ b ∈ chain, SameOn m m' b (b + 20)) : chainFrom m' fuel a = some chain := by
  induction fuel generalizing a chain with
  | zero => cases h
  | succ fuel ih =>
    rw [chainFrom] at h ⊢
    split_ifs at h with hnext
    · obtain ⟨tail, htail, rfl⟩ := Option.map_eq_some_iff.mp h
      have ha := hsame a List.mem_cons_self
      rw [BufferHeader.hasNext_congr ha, if_pos hnext, BufferHeader.nextBufferOffset_congr ha,
        ih htail fun b hb => hsame b (List.mem_cons_of_mem _ hb), Option.map_some]
    · cases h
      rw [BufferHeader.hasNext_congr (hsame a List.mem_cons_self), if_neg hnext]

theorem mem_chainFrom {fuel : ℕ} {chain : List ℕ} (h : chainFrom m fuel a = some chain) : a ∈ chain := by
  cases fuel with
  | zero => cases h
  | succ fuel =>
    rw [chainFrom] at h
    split_ifs at h
    · obtain ⟨tail, -, rfl⟩ := Option.map_eq_some_iff.mp h
      exact List.mem_cons_self
    · cases h
      exact List.mem_cons_self

def without (chain : List ℕ) (held : List BufferSlice) : List BufferSlice :=
  held.filter fun y => ∀ b ∈ chain, y.bufferHeader ≠ some b

theorem slots_without {b : ℕ} : b ∈ Pool.slots (without [a] held) ↔ b ∈ Pool.slots held ∧ b ≠ a := by
  simp only [Pool.slots, without, List.mem_filterMap, List.mem_filter, List.mem_singleton, forall_eq, decide_eq_true_eq]
  constructor
  · rintro ⟨y, ⟨hy, hne⟩, hyb⟩
    refine ⟨⟨y, hy, hyb⟩, ?_⟩
    rintro rfl
    exact hne hyb
  · rintro ⟨⟨y, hy, hyb⟩, hne⟩
    refine ⟨y, ⟨hy, ?_⟩, hyb⟩
    rw [hyb]
    exact fun he => hne (Option.some.inj he)

theorem without_cons (a : ℕ) (chain : List ℕ) : without chain (without [a] held) = without (a :: chain) held := by
  rw [without, without, without, List.filter_filter]
  congr 1
  funext y
  rw [Bool.eq_iff_iff]
  simp [and_comm]

theorem slots_eraseIdx {i b : ℕ} (hnodup : (Pool.slots held).Nodup) (hx : held[i]? = some x) (ha : x.bufferHeader = some a) :
    b ∈ Pool.slots (held.eraseIdx i) ↔ b ∈ Pool.slots held ∧ b ≠ a := by
  obtain ⟨hi, rfl⟩ := List.getElem?_eq_some_iff.mp hx
  have hsplit : Pool.slots held = Pool.slots (held.take i) ++ a :: Pool.slots (held.drop (i + 1)) := by
    conv_lhs => rw [← List.take_append_drop i held, List.drop_eq_getElem_cons hi]
    rw [Pool.slots, List.filterMap_append, List.filterMap_cons_some ha]
    rfl
  rw [hsplit] at hnodup ⊢
  rw [List.eraseIdx_eq_take_drop_succ, Pool.slots, List.filterMap_append]
  change b ∈ Pool.slots (held.take i) ++ Pool.slots (held.drop (i + 1)) ↔ _
  have hnot := (List.nodup_middle.mp hnodup).notMem
  rw [List.mem_append, List.mem_append, List.mem_cons]
  rw [List.mem_append] at hnot
  constructor
  · intro hb
    refine ⟨by tauto, ?_⟩
    rintro rfl
    exact hnot hb
  · rintro ⟨hb, hne⟩
    tauto

section Behind

variable (hbehind : ∀ k ∈ P.classes, 8 ≤ k.list.offsetInShm)
include hbehind

theorem keeps_alloc (h : P.Free e m (rest P held)) (size : ℕ) :
    P.Keeps m (P.manager.allocShmBuffer m size).1 ∧ P.Keeps m (P.manager.allocShmBuffers m size).1 := by
  have hpop : ∀ l ∈ P.manager.lists, ∀ m₁, (∃ free, P.Free e m₁ free) ∧ P.Keeps m m₁ →
      (∃ free, P.Free e (l.pop m₁).1 free) ∧ P.Keeps m (l.pop m₁).1 := by
    rintro l hl m₁ ⟨⟨free, hfree⟩, hk₁⟩
    rw [P.lists] at hl
    obtain ⟨k, hk, rfl⟩ := List.mem_map.mp hl
    refine ⟨?_, hk₁.trans (hfree.keeps_pop hbehind hk)⟩
    rcases hfree.pop hk with he | ⟨a, m', he, ht⟩
    · rw [he]
      exact ⟨free, hfree⟩
    · rw [he]
      exact ⟨_, ht.state⟩
  have hm : (∃ free, P.Free e m free) ∧ P.Keeps m m := ⟨⟨_, h⟩, .refl P m⟩
  exact ⟨(BufferManager.allocShmBuffer_rule hpop hm size).2, (BufferManager.allocShmBuffers_rule hpop hm size).2⟩

theorem Inv.recycle (h : Inv P e m₀ m held) (ha : P.Refers x a) (hin : a ∈ Pool.slots held)
    (hheld : held'.Sublist held) (hslots : ∀ b, b ∈ Pool.slots held' ↔ b ∈ Pool.slots held ∧ b ≠ a) :
    Inv P e m₀ (P.manager.recycleBuffer m x) held' ∧
      ∀ d b, P.Slot d b → b ∈ Pool.slots held' → SameOn m (P.manager.recycleBuffer m x) b (b + (d + 20)) := by
  obtain ⟨-, -, -, hu⟩ := h.slot hin
  rcases h.pool.recycleBuffer ha (not_rest hin) with ⟨hno, -⟩ | ⟨-, hgave⟩
  · rw [hu] at hno
    cases hno
  · refine ⟨h.gives hgave ha.slot (h.pool.keeps_recycleBuffer hbehind ha hu) hheld hslots, fun d b hd hb => ?_⟩
    have hb' := (hslots b).mp hb
    exact hgave.frame d b hd (not_rest hb'.1) hb'.2

theorem Inv.recycleBuffers {fuel : ℕ} {chain : List ℕ} (h : Inv P e m₀ m held) (hx : P.Refers x a)
    (hchain : chainFrom m fuel a = some chain) (hnodup : chain.Nodup) (hin : ∀ b ∈ chain, b ∈ Pool.slots held) :
    ∃ m', P.manager.recycleBuffers fuel m x = some m' ∧ Inv P e m₀ m' (without chain held) := by
  induction fuel generalizing m held x a chain with
  | zero => cases hchain
  | succ fuel ih =>
    have ha := hin a (mem_chainFrom hchain)
    have hsub : (without [a] held).Sublist held := List.filter_sublist
    obtain ⟨hinv, hsame⟩ := h.recycle hbehind hx ha hsub fun b => slots_without
    rw [chainFrom] at hchain
    rw [BufferManager.recycleBuffers, if_pos hx.shm, hx.header, Option.bind_some]
    split_ifs at hchain with hnext
    · obtain ⟨tail, htail, rfl⟩ := Option.map_eq_some_iff.mp hchain
      rw [List.nodup_cons] at hnodup
      have hin' : ∀ b ∈ tail, b ∈ Pool.slots (without [a] held) := by
        intro b hb
        refine slots_without.mpr ⟨hin b (List.mem_cons_of_mem _ hb), ?_⟩
        rintro rfl
        exact hnodup.1 hb
      have hslot := fun b hb => hinv.slot (hin' b hb)
      -- the rest of the chain is as it was
      have htail' : chainFrom (P.manager.recycleBuffer m x) fuel (BufferHeader.nextBufferOffset m a) = some tail := by
        apply chainFrom_congr htail
        intro b hb
        obtain ⟨y, -, hy, -⟩ := hslot b hb
        exact (hsame _ b hy.slot (hin' b hb)).mono le_rfl (by omega)
      obtain ⟨y, -, hy, -⟩ := hslot _ (mem_chainFrom htail)
      have hread := readBufferSlice_slot hinv.pool hy.slot
      have hview : P.Refers (slotView (P.manager.recycleBuffer m x) (BufferHeader.nextBufferOffset m a))
          (BufferHeader.nextBufferOffset m a) := by
        refine ⟨rfl, rfl, rfl, ?_⟩
        rw [slotView, hinv.pool.caps hy.slot]
        exact hy.slot
      obtain ⟨m', hm', hinv'⟩ := ih hinv hview htail' hnodup.2 hin'
      refine ⟨m', ?_, without_cons a tail ▸ hinv'⟩
      rw [if_pos hnext]
      simp only [hread]
      exact hm'
    · cases hchain
      exact ⟨_, if_neg hnext, hinv⟩

theorem Inv.update (h : Inv P e m₀ m held) (hx : x ∈ held) (ha : P.Refers x a) (writeIndex : ℕ) (next : Option ℕ) :
    Inv P e m₀ ({ x with writeIndex := writeIndex }.update m next) held := by
  set x' := { x with writeIndex := writeIndex }
  have hheader : x'.bufferHeader = some a := ha.header
  have hout : ∀ lo hi, a + (x.cap + 20) ≤ lo ∨ hi ≤ a → SameOn m (x'.update m next) lo hi := by
    intro lo hi hlo
    apply SliceOk.sameOn_update
    intro b hb
    cases hheader.symm.trans hb
    omega
  have hfields : BufferHeader.cap (x'.update m next) a = BufferHeader.cap m a ∧
      BufferHeader.isInUsed (x'.update m next) a = BufferHeader.isInUsed m a := by
    cases next <;> simp [BufferSlice.update, hheader]
  have hin := mem_slots hx ha.header
  refine ⟨h.pool.write ha.slot (not_rest hin) hout hfields.1, fun y hy => ?_, h.distinct,
    h.keeps.trans (ha.slot.keeps hbehind hout)⟩
  obtain ⟨b, hb, hu⟩ := h.refers y hy
  refine ⟨b, hb, ?_⟩
  by_cases hba : b = a
  · rw [hba] at hu ⊢
    rw [hfields.2, hu]
  · have hapart := ha.slot.apart hb.slot (Ne.symm hba)
    rw [BufferHeader.isInUsed_congr (hout b (b + 20) (by omega)), hu]

theorem Inv.step {s t : State} {op : Op} (h : Inv P e m₀ s.mem s.held) (hstep : step P.manager s op = some t) :
    Inv P e m₀ t.mem t.held := by
  cases op with
  | allocShmBuffer size =>
    have hk := (keeps_alloc hbehind h.pool size).1
    rw [ManagerRun.step] at hstep
    rcases h.pool.allocShmBuffer size with ⟨err, he⟩ | ⟨c, a, m', he, -, ht⟩
    · rw [he] at hstep
      cases hstep
      exact h
    · rw [he] at hstep hk
      cases hstep
      exact h.takes (.cons ht (.nil ht.state)) hk
  | allocShmBuffers size =>
    have hk := (keeps_alloc hbehind h.pool size).2
    rw [ManagerRun.step] at hstep
    rcases he : P.manager.allocShmBuffers s.mem size with ⟨m', n, ss⟩
    obtain ⟨free', ht, -⟩ := h.pool.allocShmBuffers he
    rw [he] at hstep hk
    cases hstep
    exact h.takes ht hk
  | update i writeIndex next =>
    obtain ⟨x, hx, rfl⟩ := Option.map_eq_some_iff.mp hstep
    have hin := List.mem_of_getElem? hx
    obtain ⟨a, ha, -⟩ := h.refers x hin
    exact h.update hbehind hin ha writeIndex _
  | recycleBuffer i =>
    obtain ⟨x, hx, rfl⟩ := Option.map_eq_some_iff.mp hstep
    have hin := List.mem_of_getElem? hx
    obtain ⟨a, ha, -⟩ := h.refers x hin
    exact (h.recycle hbehind ha (mem_slots hin ha.header) (List.eraseIdx_sublist _ _)
      fun b => slots_eraseIdx h.distinct hx ha.header).1
  | recycleBuffers i =>
    obtain ⟨x, hx, hstep⟩ := Option.bind_eq_some_iff.mp hstep
    have hin := List.mem_of_getElem? hx
    obtain ⟨a, ha, -⟩ := h.refers x hin
    rw [ha.header, Option.bind_some] at hstep
    obtain ⟨chain, hchain, hstep⟩ := Option.bind_eq_some_iff.mp hstep
    split_ifs at hstep with hheld
    obtain ⟨m', hm', hinv⟩ := h.recycleBuffers hbehind ha hchain hheld.1 hheld.2
    rw [hm', Option.map_some] at hstep
    cases hstep
    exact hinv

theorem Inv.run {s : State} (h : Inv P e m₀ m []) (hrun : (system P.manager m).Run s) : Inv P e m₀ s.mem s.held := by
  refine hrun.invariant (I := fun s => Inv P e m₀ s.mem s.held) ?_ fun _ _ _ hinv _ hstep => hinv.step hbehind hstep
  rintro s rfl
  exact h

end Behind

end ManagerRun

end Shmipc
