import Shmipc.LinkedBufferRead

namespace Shmipc

open ByteMemory

def Node.key (n : Node) : ℕ × Storage := (n.id, n.slice.data)

def Buf.shown : Buf → Option (ℕ × Storage)
  | .shm id data _ _ => some (id, data)
  | .exm _ => none

namespace LinkedBuffer

def keys (ns : List Node) : List (ℕ × Storage) := ns.map Node.key

def Backs (b : LinkedBuffer) (v : Buf) : Prop := ∀ k, v.shown = some k → k ∈ keys b.nodes

inductive ReadCall
  | readBytes (size : ℕ)
  | peek (size : ℕ)
  | discard (size : ℕ)

namespace ReadCall

def run (bm : BufferManager) (m : Mem) (b : LinkedBuffer) : ReadCall → Mem × LinkedBuffer × Option Buf
  | .readBytes size =>
    let (m, b, r) := LinkedBuffer.readBytes bm m b size
    (m, b, r.toOption)
  | .peek size =>
    let (b, r) := LinkedBuffer.peek m b size
    (m, b, r.toOption)
  | .discard size =>
    let (m, b, _) := LinkedBuffer.discard bm m b size
    (m, b, none)

def Passes (b : LinkedBuffer) (n : Node) : ReadCall → Prop
  | .readBytes size | .discard size => n.slice.size < size ∧ size ≤ b.len
  | .peek _ => False

end ReadCall

def Strands (b : LinkedBuffer) (views : List Buf) (c : ReadCall) : Prop :=
  ∃ n rest, b.sliceList = n :: rest ∧ n.slice.isFromShm = false ∧ (∃ v ∈ views, v.shown = some n.key) ∧ c.Passes b n

inductive Reading (bm : BufferManager) : Mem → LinkedBuffer → List Buf → Prop
  | start (m : Mem) {b : LinkedBuffer} : (b.nodes.map Node.id).Nodup → Reading bm m b []
  | call {m m' : Mem} {b b' : LinkedBuffer} {views : List Buf} {c : ReadCall} {v : Option Buf} : Reading bm m b views →
      ¬ Strands b views c → c.run bm m b = (m', b', v) → Reading bm m' b' (views ++ v.toList)
  | release {m m' : Mem} {b b' : LinkedBuffer} {views : List Buf} : Reading bm m b views →
      releasePreviousRead bm m b = (m', b') → Reading bm m' b' []
  | reserve {m m' : Mem} {b b' : LinkedBuffer} {views : List Buf} : Reading bm m b views →
      releasePreviousReadAndReserve bm m b = (m', b') → Reading bm m' b' []

variable {bm : BufferManager} {m m' : Mem} {b b' b₁ : LinkedBuffer} {views : List Buf} {c : ReadCall} {n : Node}
  {ns rest : List Node} {size : ℕ}

structure Stays (b b' : LinkedBuffer) : Prop where
  slices : keys b'.sliceList = keys b.sliceList
  pinned : b'.pinnedList = b.pinnedList
  currentPinned : b.currentPinned = true → b'.currentPinned = true

structure Passed (b : LinkedBuffer) (n : Node) (rest : List Node) (b' : LinkedBuffer) : Prop where
  slices : keys b'.sliceList <:+ keys rest
  pinned : keys b'.pinnedList =
    if n.slice.isFromShm = true ∧ b.currentPinned = true then keys b.pinnedList ++ [n.key] else keys b.pinnedList

theorem readNextSlice_passed (hs : b.sliceList = n :: rest) (h : readNextSlice bm m b = (m', b')) :
    Passed b n rest b' ∧ b'.sliceList = rest ∧ b'.currentPinned = false := by
  rw [readNextSlice, hs] at h
  simp only at h
  split_ifs at h with hshm hpin
  · cases h
    refine ⟨⟨List.suffix_refl _, ?_⟩, rfl, rfl⟩
    rw [if_pos ⟨hshm, hpin⟩, keys, List.map_append]
    rfl
  · cases h
    exact ⟨⟨List.suffix_refl _, by rw [if_neg fun h => hpin h.2]⟩, rfl, rfl⟩
  · cases h
    exact ⟨⟨List.suffix_refl _, by rw [if_neg fun h => hshm h.1]⟩, rfl, rfl⟩

structure Unpinned (b : LinkedBuffer) (ns : List Node) (b' : LinkedBuffer) : Prop where
  slices : keys b'.sliceList <:+ keys ns
  pinned : keys b'.pinnedList = keys b.pinnedList

theorem Unpinned.next (hpin : b.currentPinned = false) (hs : b.sliceList = n :: rest)
    (hnext : readNextSlice bm m b = (m', b₁)) (h : b₁.currentPinned = false → Unpinned b₁ rest b') :
    Unpinned b (n :: rest) b' := by
  obtain ⟨hpassed, -, hpin₁⟩ := readNextSlice_passed hs hnext
  obtain ⟨hslices, hpinned⟩ := h hpin₁
  refine ⟨hslices.trans (List.suffix_cons _ _), hpinned.trans (hpassed.pinned.trans (if_neg ?_))⟩
  rintro ⟨-, hcur⟩
  rw [hpin] at hcur
  cases hcur

theorem readLoop_unpinned {data : List UInt8} (hpin : b.currentPinned = false)
    (h : readLoop bm ns m b size = (m', b', data)) : Unpinned b ns b' := by
  induction ns generalizing m b size data with
  | nil =>
    cases h
    exact ⟨List.suffix_refl _, rfl⟩
  | cons n ns ih =>
    rcases readLoop_cases h with ⟨-, rfl, rfl⟩ | ⟨-, -, rfl, rfl⟩ | ⟨-, m₁, b₁, more, hnext, hloop⟩
    · exact ⟨List.suffix_refl _, rfl⟩
    · exact ⟨List.suffix_refl _, rfl⟩
    · obtain ⟨hslices, hpinned⟩ := Unpinned.next (by exact hpin) rfl hnext fun hpin₁ => ih hpin₁ hloop
      exact ⟨hslices, hpinned⟩

theorem discardLoop_unpinned {k : ℕ} (hpin : b.currentPinned = false) (h : discardLoop bm ns m b size = (m', b', k)) :
    Unpinned b ns b' := by
  induction ns generalizing m b size k with
  | nil =>
    cases h
    exact ⟨List.suffix_refl _, rfl⟩
  | cons n ns ih =>
    rcases discardLoop_cases h with ⟨-, rfl, rfl⟩ | ⟨-, m₁, b₁, more, hnext, hloop⟩
    · exact ⟨List.suffix_refl _, rfl⟩
    · obtain ⟨hslices, hpinned⟩ := Unpinned.next (by exact hpin) rfl hnext fun hpin₁ => ih hpin₁ hloop
      exact ⟨hslices, hpinned⟩

structure Moves (c : ReadCall) (b b' : LinkedBuffer) (v : Option Buf) : Prop where
  slices : ((∀ n rest, b.sliceList = n :: rest → ¬ c.Passes b n) ∧ Stays b b') ∨
    ∃ n rest, b.sliceList = n :: rest ∧ c.Passes b n ∧ Passed b n rest b'
  shown : ∀ w ∈ v, ∀ k, w.shown = some k → b'.currentPinned = true ∧ ∃ n rest, b'.sliceList = n :: rest ∧ n.key = k

theorem readFront_shown {r : Result Buf} (h : readFront bm m b size = (m', b', r)) :
    ∀ w ∈ r.toOption, ∀ k, w.shown = some k → b'.currentPinned = true ∧ ∃ n rest, b'.sliceList = n :: rest ∧ n.key = k := by
  rw [readFront] at h
  split at h
  · split_ifs at h
    · cases h
      rintro w ⟨⟩ k ⟨⟩
      exact ⟨rfl, _, _, rfl, rfl⟩
    · cases h
      rintro w ⟨⟩ k ⟨⟩
  · cases h
    rintro w ⟨⟩ k ⟨⟩

theorem readFront_unpinned {r : Result Buf} (hpin : b.currentPinned = false) (h : readFront bm m b size = (m', b', r)) :
    Unpinned b b.sliceList b' := by
  rw [readFront] at h
  split at h
  · rename_i n rest hs
    split_ifs at h
    · cases h
      rw [hs]
      exact ⟨List.suffix_refl _, rfl⟩
    · generalize hloop : readLoop bm b.sliceList m _ _ = x at h
      obtain ⟨m₁, b₁, bytes⟩ := x
      cases h
      obtain ⟨hslices, hpinned⟩ := readLoop_unpinned (by exact hpin) hloop
      exact ⟨hslices, hpinned⟩
  · rename_i hs
    cases h
    exact ⟨List.suffix_refl _, rfl⟩

theorem readBytes_moves {r : Result Buf} (h : LinkedBuffer.readBytes bm m b size = (m', b', r)) :
    Moves (.readBytes size) b b' r.toOption := by
  rw [LinkedBuffer.readBytes] at h
  split_ifs at h with hzero hlen
  · cases h
    refine ⟨.inl ⟨fun n rest _ hpass => ?_, rfl, rfl, id⟩, ?_⟩
    · have hlt := hpass.1
      omega
    · rintro w ⟨⟩ k ⟨⟩
  · cases h
    refine ⟨.inl ⟨fun n rest _ hpass => ?_, rfl, rfl, id⟩, by rintro _ ⟨⟩⟩
    have hle := hpass.2
    omega
  generalize hskip : skipEmptyFront bm m b = x at h
  obtain ⟨m₁, b₁⟩ := x
  simp only at h
  refine ⟨?_, readFront_shown h⟩
  rw [skipEmptyFront] at hskip
  split at hskip
  · rename_i hs
    cases hskip
    rw [readFront, hs] at h
    cases h
    refine .inl ⟨fun n rest hs' => ?_, by rw [hs], rfl, id⟩
    rw [hs] at hs'
    cases hs'
  · rename_i n rest hs
    by_cases hpass : n.slice.size < size
    · refine .inr ⟨n, rest, hs, ⟨hpass, not_lt.mp hlen⟩, ?_⟩
      split_ifs at hskip with hempty
      · obtain ⟨hpassed, hs₁, hpin₁⟩ := readNextSlice_passed hs hskip
        obtain ⟨hslices, hpinned⟩ := readFront_unpinned hpin₁ h
        exact ⟨hs₁ ▸ hslices, hpinned.trans hpassed.pinned⟩
      · cases hskip
        rw [readFront, hs] at h
        simp only [not_le.mpr hpass, if_false] at h
        generalize hloop : readLoop bm _ m _ _ = x at h
        obtain ⟨m₂, b₂, bytes⟩ := x
        cases h
        rcases readLoop_cases hloop with ⟨hzero', -⟩ | ⟨-, hle, -⟩ | ⟨-, m₃, b₃, more, hnext, hrest⟩
        · exact absurd hzero' hzero
        · omega
        · obtain ⟨hpassed, -, hpin₃⟩ := readNextSlice_passed (by rfl) hnext
          obtain ⟨hslices, hpinned⟩ := readLoop_unpinned hpin₃ hrest
          exact ⟨hslices, hpinned.trans hpassed.pinned⟩
    · refine .inl ⟨fun x xs hs' hx => ?_, ?_⟩
      · rw [hs] at hs'
        cases hs'
        exact hpass hx.1
      · rw [if_neg (by omega)] at hskip
        cases hskip
        rw [readFront, hs] at h
        simp only [not_lt.mp hpass, if_true] at h
        cases h
        refine ⟨?_, rfl, fun _ => rfl⟩
        rw [hs]
        rfl

theorem peek_moves {r : Result Buf} (h : LinkedBuffer.peek m b size = (b', r)) : Moves (.peek size) b b' r.toOption := by
  have hnever : ∀ n rest, b.sliceList = n :: rest → ¬ ReadCall.Passes b n (.peek size) := fun _ _ _ hpass => hpass
  rw [LinkedBuffer.peek] at h
  split_ifs at h
  · cases h
    refine ⟨.inl ⟨hnever, rfl, rfl, id⟩, ?_⟩
    rintro w ⟨⟩ k ⟨⟩
  · cases h
    exact ⟨.inl ⟨hnever, rfl, rfl, id⟩, by rintro _ ⟨⟩⟩
  · split at h
    · rename_i n rest hs
      simp only at h
      split_ifs at h
      · cases h
        refine ⟨.inl ⟨hnever, rfl, rfl, fun _ => rfl⟩, ?_⟩
        rintro w ⟨⟩ k ⟨⟩
        exact ⟨rfl, n, rest, hs, rfl⟩
      · cases h
        refine ⟨.inl ⟨hnever, rfl, rfl, id⟩, ?_⟩
        rintro w ⟨⟩ k ⟨⟩
    · cases h
      refine ⟨.inl ⟨hnever, rfl, rfl, id⟩, ?_⟩
      rintro w ⟨⟩ k ⟨⟩

theorem discard_moves {r : Result ℕ} (h : LinkedBuffer.discard bm m b size = (m', b', r)) : Moves (.discard size) b b' none := by
  refine ⟨?_, by rintro _ ⟨⟩⟩
  rw [LinkedBuffer.discard] at h
  split_ifs at h with hlen
  · cases h
    refine .inl ⟨fun n rest _ hpass => ?_, rfl, rfl, id⟩
    have hle := hpass.2
    omega
  · generalize hloop : discardLoop bm b.sliceList m b size = x at h
    obtain ⟨m₁, b₁, k⟩ := x
    cases h
    cases hs : b.sliceList with
    | nil =>
      rw [hs] at hloop
      cases hloop
      exact .inl ⟨by rintro _ _ ⟨⟩, by rw [hs], rfl, id⟩
    | cons n rest =>
      rw [hs] at hloop
      rcases discardLoop_cases hloop with ⟨hle, rfl, rfl⟩ | ⟨hlt, m₂, b₂, more, hnext, hrest⟩
      · refine .inl ⟨?_, by rw [hs]; rfl, rfl, id⟩
        rintro x xs ⟨⟩ hpass
        exact absurd hpass.1 (not_lt.mpr hle)
      · obtain ⟨hpassed, -, hpin₂⟩ := readNextSlice_passed (by rfl) hnext
        obtain ⟨hslices, hpinned⟩ := discardLoop_unpinned hpin₂ hrest
        exact .inr ⟨n, rest, rfl, ⟨hlt, not_lt.mp hlen⟩, hslices, hpinned.trans hpassed.pinned⟩

theorem run_moves {v : Option Buf} (h : c.run bm m b = (m', b', v)) : Moves c b b' v := by
  cases c with
  | readBytes size =>
    cases h
    exact readBytes_moves rfl
  | peek size =>
    cases h
    exact peek_moves rfl
  | discard size =>
    cases h
    exact discard_moves rfl

theorem ids_eq (ns : List Node) : ns.map Node.id = (keys ns).map Prod.fst := by
  rw [keys, List.map_map]
  rfl

theorem keys_nodes (b : LinkedBuffer) : keys b.nodes = keys b.sliceList ++ keys b.pinnedList := List.map_append

theorem Stays.distinct (h : Stays b b') (hd : (b.nodes.map Node.id).Nodup) : (b'.nodes.map Node.id).Nodup := by
  rw [ids_eq, keys_nodes] at hd ⊢
  rwa [h.slices, h.pinned]

theorem Passed.distinct (h : Passed b n rest b') (hs : b.sliceList = n :: rest) (hd : (b.nodes.map Node.id).Nodup) :
    (b'.nodes.map Node.id).Nodup := by
  rw [ids_eq, keys_nodes] at hd ⊢
  rw [hs] at hd
  have hsub : (keys b'.sliceList ++ keys b.pinnedList).Sublist (keys rest ++ keys b.pinnedList) :=
    h.slices.sublist.append (List.Sublist.refl _)
  rw [h.pinned]
  split_ifs
  · have hperm : (keys b'.sliceList ++ (keys b.pinnedList ++ [n.key])).Perm (n.key :: (keys b'.sliceList ++ keys b.pinnedList)) := by
      rw [← List.append_assoc]
      exact List.perm_append_singleton _ _
    rw [(hperm.map Prod.fst).nodup_iff]
    exact hd.sublist ((hsub.cons_cons n.key).map Prod.fst)
  · exact hd.sublist ((hsub.trans (List.sublist_cons_self n.key _)).map Prod.fst)

/-- Results show pinned slices, and the slice at the front while it is to be pinned. -/
structure Live (b : LinkedBuffer) (views : List Buf) : Prop where
  distinct : (b.nodes.map Node.id).Nodup
  pinned : ∀ v ∈ views, ∀ k, v.shown = some k →
    k ∈ keys b.pinnedList ∨ b.currentPinned = true ∧ ∃ n rest, b.sliceList = n :: rest ∧ n.key = k

namespace Live

theorem backs (h : Live b views) : ∀ v ∈ views, Backs b v := by
  intro v hv k hk
  rw [keys_nodes]
  rcases h.pinned v hv k hk with hmem | ⟨-, n, rest, hs, rfl⟩
  · exact List.mem_append_right _ hmem
  · rw [hs]
    exact List.mem_append_left _ List.mem_cons_self

theorem call {v : Option Buf} (h : Live b views) (hmoves : Moves c b b' v) (hok : ¬ Strands b views c) :
    Live b' (views ++ v.toList) := by
  refine ⟨?_, ?_⟩
  · rcases hmoves.slices with ⟨-, hstays⟩ | ⟨n, rest, hs, -, hpassed⟩
    · exact hstays.distinct h.distinct
    · exact hpassed.distinct hs h.distinct
  · intro w hw k hk
    rcases List.mem_append.mp hw with hw | hw
    · rcases hmoves.slices with ⟨-, hstays⟩ | ⟨n, rest, hs, hpass, hpassed⟩
      · rcases h.pinned w hw k hk with hmem | ⟨hpin, n, rest, hs, rfl⟩
        · exact .inl (hstays.pinned ▸ hmem)
        · have hslices := hstays.slices
          rw [hs] at hslices
          obtain ⟨n', rest', hs', hkey, -⟩ := List.map_eq_cons_iff.mp hslices
          exact .inr ⟨hstays.currentPinned hpin, n', rest', hs', hkey⟩
      · left
        rw [hpassed.pinned]
        rcases h.pinned w hw k hk with hmem | ⟨hpin, n', rest', hs', rfl⟩
        · split_ifs
          · exact List.mem_append_left _ hmem
          · exact hmem
        · rw [hs] at hs'
          cases hs'
          have hshm : n.slice.isFromShm = true := by
            rw [← Bool.not_eq_false]
            exact fun hheap => hok ⟨n, rest, hs, hheap, ⟨w, hw, hk⟩, hpass⟩
          rw [if_pos ⟨hshm, hpin⟩]
          exact List.mem_append_right _ (List.mem_singleton_self _)
    · exact .inr (hmoves.shown w (Option.mem_toList.mp hw) k hk)

end Live

theorem stranded {v : Option Buf} (h : (b.nodes.map Node.id).Nodup) (hmoves : Moves c b b' v) (hbad : Strands b views c) :
    ∃ w ∈ views, ¬ Backs b' w := by
  obtain ⟨n, rest, hs, hheap, ⟨w, hw, hk⟩, hpass⟩ := hbad
  refine ⟨w, hw, fun hbacks => ?_⟩
  rcases hmoves.slices with ⟨hnot, -⟩ | ⟨n', rest', hs', -, hpassed⟩
  · exact hnot n rest hs hpass
  · rw [hs] at hs'
    cases hs'
    have hpinned := hpassed.pinned
    rw [if_neg fun hshm => by rw [hheap] at hshm; exact absurd hshm.1 nofun] at hpinned
    have hmem := hbacks n.key hk
    rw [keys_nodes, hpinned] at hmem
    rw [nodes, hs, List.cons_append, List.map_cons, List.nodup_cons] at h
    apply h.1
    rw [ids_eq, keys, List.map_append]
    refine List.mem_map.mpr ⟨n.key, ?_, rfl⟩
    rcases List.mem_append.mp hmem with hmem | hmem
    · exact List.mem_append_left _ (hpassed.slices.subset hmem)
    · exact List.mem_append_right _ hmem

section Release

theorem cleanPinnedList_ids (bm : BufferManager) (m : Mem) (b : LinkedBuffer) :
    ((cleanPinnedList bm m b).2.nodes.map Node.id).Sublist (b.nodes.map Node.id) := by
  rw [cleanPinnedList]
  split_ifs
  · exact List.Sublist.refl _
  · apply List.Sublist.map
    rw [nodes, nodes, List.append_nil]
    exact List.sublist_append_left _ _

theorem releaseFront_ids (bm : BufferManager) (m : Mem) (b : LinkedBuffer) :
    ((releaseFront bm m b).2.nodes.map Node.id).Sublist (b.nodes.map Node.id) := by
  rw [releaseFront]
  split
  · exact List.Sublist.refl _
  · rename_i n rest hs
    split_ifs
    · apply List.Sublist.map
      rw [nodes, nodes, hs]
      exact List.sublist_cons_self _ _
    · exact List.Sublist.refl _

theorem reserveFront_ids (m : Mem) (b : LinkedBuffer) :
    ((reserveFront m b).2.nodes.map Node.id).Sublist (b.nodes.map Node.id) := by
  rw [reserveFront]
  split
  · rename_i n hs
    split_ifs
    · rw [nodes, nodes, hs]
      exact List.Sublist.refl _
    · apply List.Sublist.map
      rw [nodes, nodes, hs]
      exact List.sublist_cons_self _ _
    · exact List.Sublist.refl _
  · exact List.Sublist.refl _

end Release

theorem live_of_reading (h : Reading bm m b views) : Live b views := by
  induction h with
  | start m hd => exact ⟨hd, nofun⟩
  | call _ hok hrun ih => exact ih.call (run_moves hrun) hok
  | @release m m' b b' _ _ hrun ih =>
    have hb : (releaseFront bm (cleanPinnedList bm m b).1 (cleanPinnedList bm m b).2).2 = b' := congrArg Prod.snd hrun
    rw [← hb]
    exact ⟨ih.distinct.sublist ((releaseFront_ids _ _ _).trans (cleanPinnedList_ids _ _ _)), nofun⟩
  | @reserve m m' b b' _ _ hrun ih =>
    have hb : (reserveFront (cleanPinnedList bm m b).1 (cleanPinnedList bm m b).2).2 = b' := congrArg Prod.snd hrun
    rw [← hb]
    exact ⟨ih.distinct.sublist ((reserveFront_ids _ _).trans (cleanPinnedList_ids _ _ _)), nofun⟩

theorem views_valid_iff (h : Reading bm m b views) : (∀ v ∈ views, Backs b v) ∧
    ∀ c m' b' v, ReadCall.run bm m b c = (m', b', v) →
      ((∀ w ∈ views ++ v.toList, Backs b' w) ↔ ¬ Strands b views c) := by
  have hlive := live_of_reading h
  refine ⟨hlive.backs, fun c m' b' v hrun => ⟨fun hall hbad => ?_, fun hok => ?_⟩⟩
  · obtain ⟨w, hw, hnot⟩ := stranded hlive.distinct (run_moves hrun) hbad
    exact hnot (hall w (List.mem_append_left _ hw))
  · exact (hlive.call (run_moves hrun) hok).backs

-- two messages of one byte that came over the socket
def twoHeap : LinkedBuffer := ⟨[⟨0, { BufferSlice.fromHeap [7] with writeIndex := 1 }⟩,
  ⟨1, { BufferSlice.fromHeap [8] with writeIndex := 1 }⟩], some 1, [], false, false, 2, 2⟩

def afterFirst : LinkedBuffer := ⟨[⟨0, { BufferSlice.fromHeap [7] with readIndex := 1, writeIndex := 1 }⟩,
  ⟨1, { BufferSlice.fromHeap [8] with writeIndex := 1 }⟩], some 1, [], true, false, 1, 2⟩

theorem reading_first : Reading ⟨[], 0, 0⟩ ⟨fun _ => 0⟩ afterFirst [.shm 0 (.heap [7]) 0 1] := by
  have hstart : Reading ⟨[], 0, 0⟩ ⟨fun _ => 0⟩ twoHeap [] := .start _ (by decide)
  apply hstart.call (c := .readBytes 1) (v := some (.shm 0 (.heap [7]) 0 1)) _ rfl
  rintro ⟨n, rest, -, -, ⟨v, hv, -⟩, -⟩
  cases hv

theorem views_valid_peek : ∃ m b views, Reading ⟨[], 0, 0⟩ m b views ∧ views ≠ [] ∧
    ∀ m' b' v, ReadCall.run ⟨[], 0, 0⟩ m b (.peek 1) = (m', b', v) → ∀ w ∈ views ++ v.toList, Backs b' w := by
  refine ⟨_, _, _, reading_first, by decide, fun m' b' v hrun => ?_⟩
  apply ((views_valid_iff reading_first).2 (.peek 1) m' b' v hrun).mpr
  rintro ⟨n, rest, -, -, -, hpass⟩
  exact hpass

theorem view_dangles : ∃ m b v m' b' w, Reading ⟨[], 0, 0⟩ m b [v] ∧
    ReadCall.run ⟨[], 0, 0⟩ m b (.readBytes 1) = (m', b', w) ∧ ¬ Backs b' v := by
  refine ⟨_, _, _, _, _, _, reading_first, rfl, fun h => ?_⟩
  have hmem := h (0, .heap [7]) rfl
  revert hmem
  decide

end LinkedBuffer

end Shmipc
