import Mathlib.Logic.Relation
import Shmipc.PublishedChain
import Shmipc.FallbackFrame

namespace Shmipc

open ByteMemory

theorem sum_le_of_apart {α : Type} {l : List α} {N : ℕ} (lo len : α → ℕ) (hfit : ∀ x ∈ l, lo x + len x ≤ N)
    (hapart : l.Pairwise fun x y => lo x + len x ≤ lo y ∨ lo y + len y ≤ lo x) : (l.map len).sum ≤ N := by
  have hnodup : (l.flatMap fun x => List.range' (lo x) (len x)).Nodup := by
    rw [List.nodup_flatMap]
    refine ⟨fun x _ => List.nodup_range', hapart.imp ?_⟩
    intro x y hxy i hi hi'
    rw [List.mem_range'_1] at hi hi'
    omega
  have hsub : (l.flatMap fun x => List.range' (lo x) (len x)) ⊆ List.range N := by
    intro i hi
    obtain ⟨x, hx, hi⟩ := List.mem_flatMap.mp hi
    have hle := hfit x hx
    rw [List.mem_range'_1] at hi
    rw [List.mem_range]
    omega
  have hle := (List.subperm_of_subset hnodup hsub).length_le
  simpa only [List.length_flatMap, List.length_range', List.length_range] using hle

namespace LinkedBuffer

variable {P : Pool} {e : Bool} {m m' : Mem} {free free' : ℕ → Prop} {b b' c : LinkedBuffer} {n : Node}
  {rest ns : List Node} {bytes : List UInt8} {size k : ℕ} {bm : BufferManager}

theorem heldBy_shared (hok : ∀ x ∈ ns, SliceOk P x.slice) (hshm : ∀ x ∈ ns, x.slice.isFromShm = true) :
    heldBy ns = ns.map fun x => x.slice.offsetInShm := by
  induction ns with
  | nil => rfl
  | cons x ns ih =>
    obtain ⟨a, ha⟩ := (hok x List.mem_cons_self).of_isFromShm (hshm x List.mem_cons_self)
    rw [heldBy_cons, ha.header, List.map_cons, ha.offset, ih (fun y hy => hok y (List.mem_cons_of_mem x hy))
      fun y hy => hshm y (List.mem_cons_of_mem x hy)]
    rfl

theorem sizeOf_le_caps (hok : ∀ x ∈ ns, SliceOk P x.slice) :
    sizeOf ns + 20 * ns.length ≤ (ns.map fun x => x.slice.cap + 20).sum := by
  induction ns with
  | nil => exact le_rfl
  | cons x ns ih =>
    have hx := (hok x List.mem_cons_self).size_le
    have hns := ih fun y hy => hok y (List.mem_cons_of_mem x hy)
    rw [sizeOf_cons, List.map_cons, List.sum_cons, List.length_cons]
    omega

theorem Base.shared_lt (h : Base P e m free b) (hshm : b.isFromShm = true) :
    sizeOf b.sliceList + 20 * b.sliceList.length < 4294967296 := by
  have hrefers : ∀ x ∈ b.sliceList, P.Slot x.slice.cap x.slice.offsetInShm := by
    intro x hx
    obtain ⟨a, ha⟩ := (h.mem_slice hx).of_isFromShm (h.shm hshm x hx)
    rw [ha.offset]
    exact ha.slot
  have hdist : (b.sliceList.map fun x => x.slice.offsetInShm).Nodup := by
    rw [← heldBy_shared (fun x hx => h.mem_slice hx) (h.shm hshm)]
    have hall := h.holds.distinct
    rw [nodes, heldBy_append] at hall
    exact (List.nodup_append.mp hall).1
  have hroom : (b.sliceList.map fun x => x.slice.cap + 20).sum ≤ P.manager.memSize := by
    apply sum_le_of_apart (fun x : Node => x.slice.offsetInShm) fun x => x.slice.cap + 20
    · intro x hx
      exact (hrefers x hx).fits
    · rw [List.Nodup, List.pairwise_map] at hdist
      apply hdist.imp_of_mem
      intro x y hx hy hxy
      exact (hrefers x hx).apart (hrefers y hy) hxy
  exact ((sizeOf_le_caps fun x hx => h.mem_slice hx).trans hroom).trans_lt P.small

section Reading

inductive ReadStep (bm : BufferManager) : Mem × LinkedBuffer → Mem × LinkedBuffer → Prop
  | advance {m : Mem} {b : LinkedBuffer} {n : Node} {rest : List Node} (k : ℕ) : b.sliceList = n :: rest →
      k ≤ n.slice.size → ReadStep bm (m, b)
        (m, { b with sliceList := ⟨n.id, { n.slice with readIndex := n.slice.readIndex + k }⟩ :: rest })
  | next (m : Mem) (b : LinkedBuffer) : ReadStep bm (m, b) (readNextSlice bm m b)
  | rest {m : Mem} {b c : LinkedBuffer} : c.sliceList = b.sliceList → c.pinnedList = b.pinnedList → c.nextId = b.nextId →
      c.isFromShm = b.isFromShm → ReadStep bm (m, b) (m, c)

abbrev Reads (bm : BufferManager) : Mem × LinkedBuffer → Mem × LinkedBuffer → Prop := Relation.ReflTransGen (ReadStep bm)

theorem readNextSlice_sliceList (bm : BufferManager) (m : Mem) (hs : b.sliceList = n :: rest) :
    (readNextSlice bm m b).2.sliceList = rest := by
  rcases readNextSlice_cases bm m hs with hnext | hnext
  all_goals rw [hnext]

-- a round of the two loops below
theorem reads_next {m₁ : Mem} {b₁ : LinkedBuffer} (hs : b.sliceList = n :: ns) (hk : k ≤ n.slice.size)
    (hnext : readNextSlice bm m { b with
      sliceList := ⟨n.id, { n.slice with readIndex := n.slice.readIndex + k }⟩ :: ns } = (m₁, b₁)) :
    Reads bm (m, b) (m₁, b₁) ∧ b₁.sliceList = ns := by
  constructor
  · apply Relation.ReflTransGen.head (.advance k hs hk)
    rw [← hnext]
    exact .single (.next _ _)
  · rw [← show (readNextSlice bm m _).2 = b₁ from congrArg Prod.snd hnext]
    exact readNextSlice_sliceList bm m rfl

theorem readLoop_reads {data : List UInt8} (hs : b.sliceList = ns) (h : readLoop bm ns m b size = (m', b', data)) :
    Reads bm (m, b) (m', b') := by
  induction ns generalizing m b size data with
  | nil =>
    cases h
    exact .single (.rest hs.symm rfl rfl rfl)
  | cons n ns ih =>
    rcases readLoop_cases h with ⟨-, rfl, rfl⟩ | ⟨-, hle, rfl, rfl⟩ | ⟨-, m₁, b₁, more, hnext, hloop⟩
    · exact .single (.rest hs.symm rfl rfl rfl)
    · exact .single (.advance size hs hle)
    · obtain ⟨hreads, hs₁⟩ := reads_next hs le_rfl hnext
      exact hreads.trans (ih hs₁ hloop)

theorem discardLoop_reads {skipped : ℕ} (hs : b.sliceList = ns) (h : discardLoop bm ns m b size = (m', b', skipped)) :
    Reads bm (m, b) (m', b') := by
  induction ns generalizing m b size skipped with
  | nil =>
    cases h
    exact .single (.rest hs.symm rfl rfl rfl)
  | cons n ns ih =>
    rcases discardLoop_cases h with ⟨hle, rfl, rfl⟩ | ⟨-, m₁, b₁, more, hnext, hloop⟩
    · exact .single (.advance size hs hle)
    · obtain ⟨hreads, hs₁⟩ := reads_next hs le_rfl hnext
      exact hreads.trans (ih hs₁ hloop)

theorem skipEmptyFront_reads (bm : BufferManager) (m : Mem) (b : LinkedBuffer) : Reads bm (m, b) (skipEmptyFront bm m b) := by
  rw [skipEmptyFront]
  split
  · exact .refl
  · split_ifs
    · exact .single (.next m b)
    · exact .refl

theorem readFront_reads (bm : BufferManager) (m : Mem) (b : LinkedBuffer) (size : ℕ) :
    Reads bm (m, b) ((readFront bm m b size).1, (readFront bm m b size).2.1) := by
  rw [readFront]
  split
  · rename_i n ns hs
    split_ifs with hfit
    · apply Relation.ReflTransGen.head (.advance _ hs (min_le_right size n.slice.size))
      exact .single (.rest rfl rfl rfl rfl)
    · apply Relation.ReflTransGen.head (.rest (c := { b with len := b.len - size }) rfl rfl rfl rfl)
      exact readLoop_reads rfl rfl
  · exact .single (.rest rfl rfl rfl rfl)

theorem readBytes_reads (bm : BufferManager) (m : Mem) (b : LinkedBuffer) (size : ℕ) :
    Reads bm (m, b) ((readBytes bm m b size).1, (readBytes bm m b size).2.1) := by
  rw [readBytes]
  split_ifs
  · exact .refl
  · exact .refl
  · exact (skipEmptyFront_reads bm m b).trans (readFront_reads bm _ _ size)

theorem discard_reads (bm : BufferManager) (m : Mem) (b : LinkedBuffer) (size : ℕ) :
    Reads bm (m, b) ((discard bm m b size).1, (discard bm m b size).2.1) := by
  rw [discard]
  split_ifs
  · exact .refl
  · exact (discardLoop_reads rfl rfl).tail (.rest rfl rfl rfl rfl)

theorem Reads.isFromShm {p q : Mem × LinkedBuffer} (h : Reads bm p q) : q.2.isFromShm = p.2.isFromShm := by
  induction h with
  | refl => rfl
  | tail _ hstep ih =>
    rw [← ih]
    cases hstep with
    | advance => rfl
    | next m b =>
      cases hs : b.sliceList with
      | nil => simp only [readNextSlice, hs]
      | cons n rest => rcases readNextSlice_cases bm m hs with hnext | hnext <;> rw [hnext]
    | rest _ _ _ hi => exact hi

structure Trimmed (m : Mem) (b : LinkedBuffer) : Prop where
  starts : ∀ x ∈ b.sliceList, x.slice.start = 0
  tail : ∀ x ∈ b.sliceList.tail, x.slice.readIndex = 0
  unlinked : ∀ a ∈ b.held, BufferHeader.hasNext m a = false

namespace Trimmed

theorem congr (h : Trimmed m b) (hs : c.sliceList = b.sliceList) (hp : c.pinnedList = b.pinnedList) : Trimmed m c := by
  have hheld : c.held = b.held := by rw [held, held, nodes, nodes, hs, hp]
  exact ⟨hs ▸ h.starts, hs ▸ h.tail, hheld ▸ h.unlinked⟩

theorem untouched (h : Trimmed m b) (hslots : ∀ a ∈ b.held, ∃ d, P.Slot d a) (hsame : Untouched P m m' b.held) :
    Trimmed m' b := by
  refine ⟨h.starts, h.tail, fun a ha => ?_⟩
  obtain ⟨d, hd⟩ := hslots a ha
  rw [BufferHeader.hasNext_congr ((hsame d a hd ha).mono le_rfl (by omega))]
  exact h.unlinked a ha

theorem pop (h : Trimmed m b) (hs : b.sliceList = n :: rest) (hc : c.sliceList = rest) (hheld : ∀ a ∈ c.held, a ∈ b.held) :
    Trimmed m c := by
  have htail := h.tail
  have hstarts := h.starts
  rw [hs] at htail hstarts
  refine ⟨?_, ?_, fun a ha => h.unlinked a (hheld a ha)⟩
  · rw [hc]
    exact fun x hx => hstarts x (List.mem_cons_of_mem n hx)
  · rw [hc]
    exact fun x hx => htail x (List.mem_of_mem_tail hx)

theorem wrote (h : Trimmed m b) (hw : Wrote P e m free b bytes m' free' b') : Trimmed m' b' := by
  obtain ⟨new, hnew, hblank⟩ := hw.places
  have hstarts : ∀ p ∈ b'.places, p.2.1 = 0 := by
    intro p hp
    rw [hnew] at hp
    rcases List.mem_append.mp hp with hp | hp
    · obtain ⟨x, hx, rfl⟩ := List.mem_map.mp hp
      exact h.starts x hx
    · rw [hblank p hp]
  have htail : ∀ p ∈ b'.places.tail, p.2.2 = 0 := by
    intro p hp
    rw [hnew] at hp
    have hmem : p ∈ b.places.tail ∨ p ∈ new := by
      cases hb : b.places with
      | nil =>
        rw [hb] at hp
        exact .inr (List.mem_of_mem_tail hp)
      | cons q ps =>
        rw [hb] at hp
        exact List.mem_append.mp hp
    rcases hmem with hp | hp
    · rw [places, ← List.map_tail] at hp
      obtain ⟨x, hx, rfl⟩ := List.mem_map.mp hp
      exact h.tail x hx
    · rw [hblank p hp]
  constructor
  · intro x hx
    exact hstarts (placeOf x) (List.mem_map_of_mem hx)
  · intro x hx
    apply htail (placeOf x)
    rw [places, ← List.map_tail]
    exact List.mem_map_of_mem hx
  · intro a ha
    by_cases hold : a ∈ b.held
    · rw [BufferHeader.hasNext_congr (hw.kept a hold).2]
      exact h.unlinked a hold
    · exact (hw.flags a ha hold).2

end Trimmed

theorem ReadStep.trimmed {p q : Mem × LinkedBuffer} (h : ReadStep P.manager p q)
    (hb : (∃ free, Base P e p.1 free p.2) ∧ Trimmed p.1 p.2) : (∃ free, Base P e q.1 free q.2) ∧ Trimmed q.1 q.2 := by
  obtain ⟨⟨free, hbase⟩, ht⟩ := hb
  cases h with
  | @advance m b n rest k hs hk =>
    have hstarts := ht.starts
    have htail := ht.tail
    have hok := hbase.mem_slice (n := n) (by simp [hs])
    obtain ⟨hbase', hheld⟩ := hbase.replace (show b.sliceList = [] ++ n :: rest from hs) (.refl _ _)
      (hok.consume (m := m) hk).1 rfl rfl
    rw [hs] at hstarts htail
    refine ⟨⟨free, hbase'⟩, ?_, htail, ?_⟩
    · intro x hx
      rcases List.mem_cons.mp hx with rfl | hx
      · exact hstarts n List.mem_cons_self
      · exact hstarts x (List.mem_cons_of_mem n hx)
    · intro a ha
      exact ht.unlinked a (hheld ▸ ha)
  | next m b =>
    cases hs : b.sliceList with
    | nil =>
      simp only [readNextSlice, hs]
      exact ⟨⟨free, hbase.congr hs.symm rfl rfl rfl⟩, ht.congr hs.symm rfl⟩
    | cons n rest =>
      rcases readNextSlice_cases P.manager m hs with hnext | hnext
      · obtain ⟨hbase', hheld⟩ := hbase.pinFront hs false
        rw [hnext]
        exact ⟨⟨free, hbase'⟩, ht.pop hs rfl fun a ha => (hheld a).mp ha⟩
      · obtain ⟨free', hbase', -, hsame, -⟩ := hbase.popFront hs
        rw [hnext]
        refine ⟨⟨free', hbase'.congr rfl rfl rfl rfl⟩, ?_⟩
        have hpop : Trimmed m { b with sliceList := rest } := by
          apply ht.pop hs rfl
          intro a ha
          rw [held, nodes, hs, List.cons_append, heldBy_cons]
          exact List.mem_append_right _ ha
        exact (hpop.untouched hbase'.slots hsame).congr rfl rfl
  | rest hs hp hn hi => exact ⟨⟨free, hbase.congr hs hp hn hi⟩, ht.congr hs hp⟩

theorem Reads.trimmed {p q : Mem × LinkedBuffer} (h : Reads P.manager p q) (hb : Base P e p.1 free p.2)
    (ht : Trimmed p.1 p.2) : Trimmed q.1 q.2 := by
  have hq : (∃ free, Base P e q.1 free q.2) ∧ Trimmed q.1 q.2 := by
    induction h with
    | refl => exact ⟨⟨free, hb⟩, ht⟩
    | tail _ hstep ih => exact hstep.trimmed ih
  exact hq.2

end Reading

theorem reserve_puts_fits (h : Valid P e m free b) (hfits : Fits P.manager m b bytes.length) :
    Puts P e m free b bytes (reserveFill bytes (reserve P.manager m b bytes.length)) := by
  by_cases hne : bytes = []
  · subst hne
    have hlast : ∀ (x : Node) init y after, [x] = init ++ y :: after → after = [] := by
      intro x init y after hcut
      cases init with
      | nil => exact (List.cons.inj hcut).2.symm
      | cons z init => simp at hcut
    rcases List.eq_nil_or_concat' b.sliceList with hnil | ⟨pre, n, hsplit⟩
    · have hwrite : b.write = none := by rw [h.cursor, LinkedBuffer.back, hnil]; rfl
      rcases alloc_zero h.toBase with ⟨-, m', free', x, shm, halloc, hs⟩ | ⟨hgives, -⟩
      · have hwrote : Wrote P e m free b [] m' free' { b.grow [x] shm with write := some x.id } :=
          (hs.wrote h.toBase).congr rfl rfl rfl rfl rfl
        have hopen : openWrite P.manager m b ([] : List UInt8).length =
            (m', { b.grow [x] shm with write := some x.id }) := by
          rw [openWrite, if_pos hwrite, List.length_nil, u32, Nat.zero_mod, halloc, setWrite]
          simp [front, grow, hnil]
        have hsplit : (b.grow [x] shm).sliceList = [] ++ x :: [] := by rw [grow, hnil]
        exact Puts.after h.toBase hwrote rfl
          (reserve_of_open hopen hwrote.base hsplit rfl (fun init y after hcut _ => hlast x init y after hcut) hfits.1)
      · rcases hfits.2 with hpos | hw | hs | hg
        · exact absurd hpos (lt_irrefl 0)
        · exact absurd hwrite hw
        · exact absurd hnil hs
        · rw [hgives] at hg
          cases hg
    · have hwrite : b.write = some n.id := by rw [h.cursor, LinkedBuffer.back, hsplit, List.getLast?_concat, Option.map_some]
      have hopen : openWrite P.manager m b ([] : List UInt8).length = (m, b) := by
        rw [openWrite, if_neg (by rw [hwrite]; exact Option.some_ne_none _)]
      exact reserve_of_open hopen h.toBase hsplit hwrite (fun init y after hcut _ => hlast n init y after hcut) hfits.1
  · exact reserve_puts h hne hfits.1

structure Partly (P : Pool) (e : Bool) (m : Mem) (free : ℕ → Prop) (b : LinkedBuffer) : Prop extends Open P e m free b,
    Trimmed m b where
  back : b.isFromShm = true → b.write = b.back

namespace Partly

theorem valid (h : Partly P e m free b) (hshm : b.isFromShm = true) : Valid P e m free b :=
  ⟨h.toBase, h.back hshm, h.len⟩

theorem start (h : P.Free e m free) : Partly P e m free .empty :=
  ⟨Reserving.open_start h, ⟨nofun, nofun, nofun⟩, fun _ => rfl⟩

theorem of_wrote (h : Partly P e m free b) (hw : Wrote P e m free b bytes m' free' b')
    (hlen : b'.len = b.len + bytes.length) (hready : Ready b') (hgrows : Grows b b') {r : Option (Mem × LinkedBuffer)}
    (hputs : Valid P e m free b → bytes.length < 4294967296 → Puts P e m free b bytes r) (hr : r = some (m', b')) :
    Partly P e m' free' b' := by
  have hopen := h.toOpen.of_wrote hw hlen hready
  refine ⟨hopen, h.toTrimmed.wrote hw, fun hshm => ?_⟩
  have hroom := hopen.toBase.shared_lt hshm
  rw [← hopen.len, hlen] at hroom
  obtain ⟨m₁, free₁, b₁, hr₁, -, hback, -⟩ := hputs (h.valid (hgrows.shared hshm)) (by omega)
  cases hr₁.symm.trans hr
  exact hback

theorem writeBytes (h : Partly P e m free b) (hcall : writeBytes P.manager m b bytes = some (m', b')) :
    ∃ free', Partly P e m' free' b' ∧ Wrote P e m free b bytes m' free' b' := by
  obtain ⟨free', hwrote, hlen, hready⟩ := writeBytes_ready h.toBase h.ready hcall
  exact ⟨free', h.of_wrote hwrote hlen hready (.writeBytes hcall) writeBytes_puts hcall, hwrote⟩

theorem reserve (h : Partly P e m free b) (hfits : Fits P.manager m b bytes.length)
    (hcall : reserveFill bytes (reserve P.manager m b bytes.length) = some (m', b')) :
    ∃ free', Partly P e m' free' b' ∧ Wrote P e m free b bytes m' free' b' := by
  obtain ⟨m₁, b₁, id, pos, hr, -, -, m₂, free₂, b₂, hfill, hwrote, hlen, hcursor⟩ := h.toOpen.reserve hfits
  have hcall' : fill m₁ b₁ bytes (id, pos) = some (m', b') := by rwa [hr] at hcall
  cases hfill.symm.trans hcall'
  exact ⟨free₂, h.of_wrote hwrote hlen (.inr hcursor) ((Grows.reserve hr).trans (.fill hfill))
    (fun hv _ => reserve_puts_fits hv hfits) hcall, hwrote⟩

theorem of_reads (h : Partly P e m free b) (hreads : Reads P.manager (m, b) (m', b')) (hpos : 0 < b.len)
    (hd : Drained P e m free b size m' free' b') (hlen : b'.len = b.len - size) : Partly P e m' free' b' := by
  refine ⟨h.toOpen.of_drained hd hlen (h.cursor_of_len hpos), hreads.trimmed h.toBase h.toTrimmed, fun hshm => ?_⟩
  rw [hd.write, hd.back]
  exact h.back (hreads.isFromShm ▸ hshm)

theorem readBytes (h : Partly P e m free b) (size : ℕ) :
    ∃ free', Partly P e (readBytes P.manager m b size).1 free' (readBytes P.manager m b size).2.1 := by
  have hreads := readBytes_reads P.manager m b size
  by_cases hz : size = 0
  · rw [LinkedBuffer.readBytes, if_pos hz]
    exact ⟨free, h⟩
  by_cases hle : size ≤ b.len
  · obtain ⟨m', free', b', buf, hread, hd, hlen, -⟩ := readBytes_drained h.toBase h.len (Nat.pos_of_ne_zero hz) hle
    rw [hread] at hreads ⊢
    exact ⟨free', h.of_reads hreads (by omega) hd hlen⟩
  · rw [(calls_fail m (Nat.lt_of_not_le hle) P.manager).1]
    exact ⟨free, h⟩

theorem discard (h : Partly P e m free b) (size : ℕ) :
    ∃ free', Partly P e (discard P.manager m b size).1 free' (discard P.manager m b size).2.1 := by
  have hreads := discard_reads P.manager m b size
  by_cases hz : size = 0
  · rw [hz, Open.discard_zero]
    exact ⟨free, h⟩
  by_cases hle : size ≤ b.len
  · obtain ⟨m', free', b', hdisc, hd, hlen⟩ := discard_drained h.toBase h.len hle
    rw [hdisc] at hreads ⊢
    exact ⟨free', h.of_reads hreads (by omega) hd hlen⟩
  · rw [(calls_fail m (Nat.lt_of_not_le hle) P.manager).2.2]
    exact ⟨free, h⟩

theorem pinned (h : Partly P e m free b) (p : Bool) : Partly P e m free { b with currentPinned := p } :=
  ⟨h.toOpen.pinned p, h.toTrimmed.congr rfl rfl, h.back⟩

theorem others (h : Partly P e m free b) (hf : P.Free e m' free') (hown : ∀ a ∈ b.held, ¬ free' a)
    (hsame : Untouched P m m' b.held) : Partly P e m' free' b :=
  ⟨h.toOpen.others hf hown, h.toTrimmed.untouched h.slots hsame, h.back⟩

end Partly

inductive Used (P : Pool) (e : Bool) : Mem → LinkedBuffer → Prop
  | start {m : Mem} {free : ℕ → Prop} : P.Free e m free → Used P e m .empty
  | writeBytes {m m' : Mem} {b b' : LinkedBuffer} {bytes : List UInt8} : Used P e m b →
      writeBytes P.manager m b bytes = some (m', b') → Used P e m' b'
  | reserve {m m' : Mem} {b b' : LinkedBuffer} {bytes : List UInt8} : Used P e m b → Fits P.manager m b bytes.length →
      reserveFill bytes (reserve P.manager m b bytes.length) = some (m', b') → Used P e m' b'
  | readBytes {m m' : Mem} {b b' : LinkedBuffer} {size : ℕ} {r : Result Buf} : Used P e m b →
      readBytes P.manager m b size = (m', b', r) → Used P e m' b'
  | peek {m : Mem} {b b' : LinkedBuffer} {size : ℕ} {r : Result Buf} : Used P e m b → peek m b size = (b', r) → Used P e m b'
  | discard {m m' : Mem} {b b' : LinkedBuffer} {size : ℕ} {r : Result ℕ} : Used P e m b →
      discard P.manager m b size = (m', b', r) → Used P e m' b'
  | others {m m' : Mem} {b : LinkedBuffer} {free' : ℕ → Prop} : Used P e m b → P.Free e m' free' →
      (∀ a ∈ b.held, ¬ free' a) → Untouched P m m' b.held → Used P e m' b

theorem Partly.of_used (h : Used P e m b) : ∃ free, Partly P e m free b := by
  induction h with
  | start hf => exact ⟨_, .start hf⟩
  | writeBytes _ hcall ih =>
    obtain ⟨free, hp⟩ := ih
    obtain ⟨free', hp', -⟩ := hp.writeBytes hcall
    exact ⟨free', hp'⟩
  | reserve _ hfits hcall ih =>
    obtain ⟨free, hp⟩ := ih
    obtain ⟨free', hp', -⟩ := hp.reserve hfits hcall
    exact ⟨free', hp'⟩
  | @readBytes _ _ _ _ size _ _ hcall ih =>
    obtain ⟨free, hp⟩ := ih
    have hread := hp.readBytes size
    rwa [hcall] at hread
  | @peek m b _ size _ _ hcall ih =>
    obtain ⟨free, hp⟩ := ih
    obtain ⟨p, hpeek⟩ := Open.peek_fst m b size
    rw [hcall] at hpeek
    cases hpeek
    exact ⟨free, hp.pinned p⟩
  | @discard _ _ _ _ size _ _ hcall ih =>
    obtain ⟨free, hp⟩ := ih
    have hdisc := hp.discard size
    rwa [hcall] at hdisc
  | others _ hf hown hsame ih =>
    obtain ⟨free, hp⟩ := ih
    exact ⟨_, hp.others hf hown hsame⟩

def Intact (m : Mem) (b : LinkedBuffer) : Prop :=
  ∀ n, b.sliceList.head? = some n → n.slice.data.load m 0 n.slice.size = n.slice.unread m

theorem sentOf_cons (m : Mem) (n : Node) (ns : List Node) :
    sentOf m (n :: ns) = n.slice.data.load m 0 n.slice.size ++ sentOf m ns := List.flatMap_cons

theorem sentOf_unread (h : ∀ x ∈ ns, x.slice.readIndex = 0) (m : Mem) : sentOf m ns = unreadOf m ns := by
  apply List.flatMap_congr
  intro x hx
  rw [BufferSlice.unread, h x hx]

theorem Trimmed.sentOf_iff (h : Trimmed m b) : sentOf m b.sliceList = unreadOf m b.sliceList ↔ Intact m b := by
  have htail := h.tail
  rw [Intact]
  cases hs : b.sliceList with
  | nil => simp [sentOf, unreadOf]
  | cons n ns =>
    rw [hs, List.tail_cons] at htail
    rw [sentOf_cons, unreadOf_cons, sentOf_unread htail, List.append_left_inj]
    simp only [List.head?_cons, Option.some.injEq, forall_eq']

theorem sentOf_congr (hok : ∀ x ∈ ns, SliceOk P x.slice) (hdata : ∀ x ∈ ns, ∀ a, x.slice.bufferHeader = some a →
    SameOn m m' (a + 20) (a + (x.slice.cap + 20))) : sentOf m' ns = sentOf m ns := by
  apply List.flatMap_congr
  intro x hx
  have hle := (hok x hx).size_le
  exact (hok x hx).load_of_data (by omega) (hdata x hx)

theorem chainBytes_heldBy (hok : ∀ x ∈ ns, SliceOk P x.slice) (hshm : ∀ x ∈ ns, x.slice.isFromShm = true)
    (hfields : ∀ x ∈ ns, ∀ a, x.slice.bufferHeader = some a → BufferHeader.size m a = x.slice.size ∧ BufferHeader.start m a = 0) :
    chainBytes m (heldBy ns) = sentOf m ns := by
  induction ns with
  | nil => rfl
  | cons x ns ih =>
    have hx := hok x List.mem_cons_self
    obtain ⟨a, ha⟩ := hx.of_isFromShm (hshm x List.mem_cons_self)
    obtain ⟨hsize, hstart⟩ := hfields x List.mem_cons_self a ha.header
    have hlt := ha.slot.lt
    have hle := hx.size_le
    have hview : (slotView m a).unread m = x.slice.data.load m 0 x.slice.size := by
      have hwrite : (slotView m a).writeIndex = x.slice.size := by
        change u32 (BufferHeader.start m a + BufferHeader.size m a) = _
        rw [hstart, hsize, Nat.zero_add, u32_of_lt (by omega)]
      have hread : (slotView m a).readIndex = 0 := hstart
      rw [BufferSlice.unread, BufferSlice.size, hwrite, hread, usub_of_le (Nat.zero_le _), Nat.sub_zero, (hx.refers ha.header).2]
      rfl
    rw [heldBy_cons, ha.header, Option.toList_some, List.singleton_append, sentOf_cons, ← hview,
      ← ih (fun y hy => hok y (List.mem_cons_of_mem x hy)) (fun y hy => hshm y (List.mem_cons_of_mem x hy))
        fun y hy => hfields y (List.mem_cons_of_mem x hy)]
    exact List.flatMap_cons

theorem Partly.done (h : Partly P e m free b) (hpos : b.len ≠ 0) :
    ∃ m₁, done P.manager m b = some (m₁, b) ∧ Open P e m₁ free b ∧ sentOf m₁ b.sliceList = sentOf m b.sliceList ∧
      (b.isFromShm = true → Chain P m₁ b.rootBufOffset (heldBy b.sliceList) ∧
        chainBytes m₁ (heldBy b.sliceList) = sentOf m₁ b.sliceList) := by
  cases hshm : b.isFromShm with
  | false =>
    refine ⟨m, ?_, h.toOpen, rfl, nofun⟩
    rw [LinkedBuffer.done, if_neg (by rw [hshm]; exact Bool.false_ne_true)]
  | true =>
    have hne : b.sliceList ≠ [] := by
      intro hnil
      rw [h.len, hnil] at hpos
      exact hpos rfl
    obtain ⟨m₁, hdone, hup, hchain, hfields, hsame⟩ := (h.valid hshm).done_chain hshm hne h.starts h.unlinked
    refine ⟨m₁, hdone, ⟨hup.base, h.len, h.ready⟩, ?_, fun _ => ⟨hchain, ?_⟩⟩
    · apply sentOf_congr fun x hx => h.mem_slice hx
      intro x hx a ha
      apply hsame
      -- the headers lie in front of the bytes of their slots
      intro a' ha'
      have hslot := ((h.mem_slice hx).refers ha).1.slot
      obtain ⟨y, hy, hya⟩ := List.mem_filterMap.mp ha'
      have hslot' := ((h.mem_slice hy).refers hya).1.slot
      by_cases heq : a' = a
      · exact .inl (by omega)
      · have := hslot'.apart hslot heq
        omega
    · exact chainBytes_heldBy (fun x hx => h.mem_slice hx) (h.shm hshm) hfields

end LinkedBuffer

namespace Stream

open LinkedBuffer

variable {P : Pool} {e : Bool} {m m₁ : Mem} {free : ℕ → Prop} {b : LinkedBuffer}

def Carries (P : Pool) (e : Bool) (m : Mem) (b : LinkedBuffer) (data : List UInt8) : Prop :=
  ∀ m' free recv fuel, Untouched P m m' (heldBy b.sliceList) → Valid P e m' free recv →
    (∀ a ∈ heldBy b.sliceList, ¬ free a ∧ a ∉ recv.held) → b.sliceList.length ≤ fuel →
    ∃ m'' recv', moveChain P.manager fuel m' recv b.rootBufOffset = some (m'', recv') ∧
      unreadOf m'' recv'.sliceList = unreadOf m' recv.sliceList ++ data

def Frames (P : Pool) (m : Mem) (b : LinkedBuffer) (data : List UInt8) : Prop :=
  ∀ ans s status, s.sendBuf = b → ans.waitForSend = .ok () →
    (writeFallback P.manager ans m s status).2.2 = (.ok (), [.frame (.fallbackData ans.version s.id status data)]) ∧
    fallbackBytes ans.version m s status =
      Header.encode (16 + data.length) ans.version .fallbackData ++ storeBe32 s.id ++ storeBe32 status ++ data

def SendsUnread (P : Pool) (e : Bool) (m : Mem) (b : LinkedBuffer) : Prop :=
  b.len ≠ 0 → ∃ m₁, b.done P.manager m = some (m₁, b) ∧
    (b.isFromShm = true → Carries P e m₁ b (unreadOf m b.sliceList)) ∧
    (b.len ≤ 4294967295 - 16 → Frames P m₁ b (unreadOf m b.sliceList))

theorem carries_of_chain (hopen : Open P e m free b) (hchain : Chain P m b.rootBufOffset (heldBy b.sliceList)) :
    Carries P e m b (chainBytes m (heldBy b.sliceList)) := by
  intro m' free' recv fuel hsame hv hown hfuel
  have hdist := hopen.holds.distinct
  rw [nodes, heldBy_append] at hdist
  have hlen : (heldBy b.sliceList).length ≤ fuel := (List.length_filterMap_le _ _).trans hfuel
  obtain ⟨m'', free'', recv', hmove, hmoved, -⟩ :=
    moveChain_moves hv.toBase hv.len (hchain.congr hsame) (List.nodup_append.mp hdist).1 hown hlen
  refine ⟨m'', recv', hmove, ?_⟩
  rw [hmoved.unread, chainBytes_congr hopen.holds.pool (fun a ha => hchain.readable ha) hsame]

theorem frames_sent (hopen : Open P e m free b) (hlen : b.len ≤ 4294967295 - 16) : Frames P m b (sentOf m b.sliceList) := by
  rintro ans s status rfl hsend
  have hpayload := hopen.fallbackPayload
  have hsize := hopen.fallbackPayload_length
  constructor
  · rw [writeFallback_sent ans hlen hsend, fallbackFrame, hpayload]
  · have hfield : u32 (u32 s.sendBuf.len + 16) = 16 + s.sendBuf.len := by
      rw [u32_of_lt (show s.sendBuf.len < 4294967296 by omega), u32_of_lt (by omega), Nat.add_comm]
    rw [fallbackBytes, hfield, hpayload, ← hpayload, hsize]

theorem Frames.unique {data data' : List UInt8} (h : Frames P m b data) (h' : Frames P m b data') : data = data' := by
  have hsent := (h sending { Stream.empty 1 with sendBuf := b } 0 rfl rfl).1.symm.trans (h' sending _ 0 rfl rfl).1
  simpa using hsent

theorem sendsUnread_of_partly (h : Partly P e m free b) :
    SendsUnread P e m b ↔ (b.len ≤ 4294967295 - 16 → Intact m b) := by
  rw [← h.toTrimmed.sentOf_iff]
  constructor
  · intro hsends hlen
    by_cases hzero : b.len = 0
    · have hnil : (sentOf m b.sliceList).length = 0 := by rw [sentOf_length (fun x hx => h.mem_slice hx), ← h.len, hzero]
      have hnil' : (unreadOf m b.sliceList).length = 0 := by rw [unreadOf_length (fun x hx => h.mem_slice hx), ← h.len, hzero]
      rw [List.eq_nil_of_length_eq_zero hnil, List.eq_nil_of_length_eq_zero hnil']
    · obtain ⟨m₁, hdone, -, hframes⟩ := hsends hzero
      obtain ⟨m₂, hdone₂, hopen, hsent, -⟩ := h.done hzero
      cases hdone.symm.trans hdone₂
      rw [← hsent]
      exact (frames_sent hopen hlen).unique (hframes hlen)
  · intro hintact hpos
    obtain ⟨m₁, hdone, hopen, hsent, hchain⟩ := h.done hpos
    refine ⟨m₁, hdone, fun hshm => ?_, fun hlen => ?_⟩
    · obtain ⟨hlinks, hbytes⟩ := hchain hshm
      have hroom := h.toBase.shared_lt hshm
      have hne : 0 < b.sliceList.length := by
        rw [List.length_pos_iff]
        intro hnil
        rw [h.len, hnil] at hpos
        exact hpos rfl
      rw [← h.len] at hroom
      rw [← hintact (by omega), ← hsent, ← hbytes]
      exact carries_of_chain hopen hlinks
    · rw [← hintact hlen, ← hsent]
      exact frames_sent hopen hlen

/-- Both ways start at the front of the storage, so bytes that were read are sent again in place of the last ones. -/
theorem sendsUnread_iff (h : Used P e m b) : SendsUnread P e m b ↔ (b.len ≤ 4294967295 - 16 → Intact m b) := by
  obtain ⟨free, hpartly⟩ := Partly.of_used h
  exact sendsUnread_of_partly hpartly

open Built (threeSlots threeMem threeMem_free)

-- three bytes in the first of three slots
theorem three_written : ∃ m, LinkedBuffer.writeBytes threeSlots.manager threeMem .empty [1, 2, 3] =
      some (m, ⟨[⟨0, { freshSlice 4 36 with writeIndex := 3 }⟩], some 0, [], false, true, 3, 1⟩) ∧ loadBytes m 56 3 = [1, 2, 3] := by
  have hcall : (LinkedBuffer.writeBytes threeSlots.manager threeMem .empty [1, 2, 3]).map (fun r => (r.2, loadBytes r.1 56 3)) =
      some (⟨[⟨0, { freshSlice 4 36 with writeIndex := 3 }⟩], some 0, [], false, true, 3, 1⟩, [1, 2, 3]) := by
    decide +kernel
  obtain ⟨⟨m, b⟩, hwrite, hcall⟩ := Option.map_eq_some_iff.mp hcall
  obtain ⟨rfl, hbytes⟩ := Prod.mk.inj hcall
  exact ⟨m, hwrite, hbytes⟩

-- the four bytes of the first slot were read, the two of the second were not
theorem sendsUnread_read_off : ∃ m b, Used threeSlots true m b ∧ b.held = [36, 60] ∧ b.len = 2 ∧
    unreadOf m b.sliceList = [5, 6] ∧ SendsUnread threeSlots true m b := by
  have hcalls : (LinkedBuffer.writeBytes threeSlots.manager threeMem .empty [1, 2, 3, 4, 5, 6]).map
      (fun r => ((LinkedBuffer.readBytes threeSlots.manager r.1 r.2 4).2.1,
        loadBytes (LinkedBuffer.readBytes threeSlots.manager r.1 r.2 4).1 80 2)) =
      some (⟨[⟨0, { freshSlice 4 36 with readIndex := 4, writeIndex := 4 }⟩, ⟨1, { freshSlice 4 60 with writeIndex := 2 }⟩],
        some 1, [], true, true, 2, 2⟩, [5, 6]) := by
    decide +kernel
  obtain ⟨⟨m, b⟩, hwrite, hcalls⟩ := Option.map_eq_some_iff.mp hcalls
  rcases hread : LinkedBuffer.readBytes threeSlots.manager m b 4 with ⟨m', b', r⟩
  rw [hread] at hcalls
  obtain ⟨rfl, hbytes⟩ := Prod.mk.inj hcalls
  have hused := ((Used.start threeMem_free).writeBytes hwrite).readBytes hread
  refine ⟨m', _, hused, rfl, rfl, (List.append_nil _).trans hbytes, (sendsUnread_iff hused).mpr fun _ n hn => ?_⟩
  cases hn
  rfl

theorem sends_read_byte : ∃ m b, Used threeSlots true m b ∧ unreadOf m b.sliceList = [2, 3] ∧
    fallbackPayload m b.write b.sliceList = [1, 2] ∧ ¬ SendsUnread threeSlots true m b := by
  obtain ⟨m₂, hwrite, hbytes⟩ := three_written
  have hread : LinkedBuffer.readBytes threeSlots.manager m₂
      ⟨[⟨0, { freshSlice 4 36 with writeIndex := 3 }⟩], some 0, [], false, true, 3, 1⟩ 1 =
    (m₂, ⟨[⟨0, { freshSlice 4 36 with readIndex := 1, writeIndex := 3 }⟩], some 0, [], true, true, 2, 1⟩,
      .ok (.shm 0 (.shm 56) 0 1)) := rfl
  have hused := ((Used.start threeMem_free).writeBytes hwrite).readBytes hread
  have htwo : loadBytes m₂ 56 2 = [1, 2] := by rw [← loadBytes_take m₂ 56 (show 2 ≤ 3 by decide), hbytes]; rfl
  have hlast : loadBytes m₂ 57 2 = [2, 3] := by rw [← loadBytes_drop m₂ 56 (show 1 ≤ 3 by decide), hbytes]; rfl
  obtain ⟨free, hpartly⟩ := Partly.of_used hused
  refine ⟨_, _, hused, ?_, ?_, ?_⟩
  · exact (List.append_nil _).trans hlast
  · exact (List.append_nil _).trans htwo
  · rw [sendsUnread_of_partly hpartly]
    intro hintact
    have hsame : loadBytes m₂ 56 2 = loadBytes m₂ 57 2 := hintact (by decide) _ rfl
    rw [htwo, hlast] at hsame
    exact absurd hsame (by decide)

end Stream

end Shmipc
