import Shmipc.LinkedBufferRelease

namespace Shmipc

open ByteMemory

namespace LinkedBuffer

def Ready (b : LinkedBuffer) : Prop := (b.write = none ∧ ∀ x ∈ b.sliceList, Blank x.slice) ∨ HasCursor b

def givesFirst (bm : BufferManager) (m : Mem) : Bool := bm.lists.head?.any fun l => l.spare m

variable {P : Pool} {e : Bool} {m m' : Mem} {free free' : ℕ → Prop} {b b' c : LinkedBuffer} {n : Node}
  {pre behind : List Node} {bytes : List UInt8} {size : ℕ}

theorem allocShmBuffer_zero (P : Pool) (m : Mem) : (P.manager.allocShmBuffer m 0).2.isOk = givesFirst P.manager m := by
  rw [BufferManager.allocShmBuffer, if_pos (Nat.zero_le _), givesFirst, P.lists]
  cases hk : P.classes with
  | nil => rfl
  | cons k ks =>
    rw [List.map_cons, List.find?_cons_of_pos (by simp), List.head?_cons, Option.any_some]
    exact BufferList.pop_isOk _ _

theorem grow_nil (b : LinkedBuffer) : b.grow [] true = b := by
  rw [grow, List.append_nil, Bool.and_true]
  rfl

theorem alloc_zero (h : Base P e m free b) :
    (givesFirst P.manager m = true ∧ ∃ m' free' x shm, alloc P.manager m b 0 = (m', b.grow [x] shm) ∧
      Supply P e m free b 1 m' free' [x] shm) ∨
    (givesFirst P.manager m = false ∧ alloc P.manager m b 0 = (m, b)) := by
  have hgives := allocShmBuffer_zero P m
  cases alloc_cases h.holds.pool b 0 with
  | one he _ ht hr =>
    rw [he] at hgives
    exact .inl ⟨hgives.symm, _, _, _, true, hr, Supply.of_took h ht one_pos ht.slot.cap_pos⟩
  | @many _ _ _ _ ss _ he _ ht htight hhs hr =>
    rw [he] at hgives
    refine .inr ⟨hgives.symm, ?_⟩
    rcases List.eq_nil_or_concat' ss with rfl | ⟨init, last, rfl⟩
    · cases ht
      rw [if_neg (Nat.not_lt_zero _)] at hhs
      subst hhs
      rw [hr, List.append_nil]
      exact congrArg (Prod.mk m) (grow_nil b)
    · exact absurd (htight init last rfl) (Nat.not_lt_zero _)

theorem alloc_wrote (h : Base P e m free b) (hsize : size < 4294967296) :
    ∃ m' free' new shm, alloc P.manager m b size = (m', b.grow new shm) ∧
      Wrote P e m free b [] m' free' (b.grow new shm) ∧ (∀ x ∈ new, Blank x.slice) ∧
      (new = [] → size = 0 ∧ givesFirst P.manager m = false) := by
  by_cases hpos : 0 < size
  · obtain ⟨m', free', new, shm, halloc, hs⟩ := alloc_supply h hpos hsize
    refine ⟨m', free', new, shm, halloc, hs.wrote h, hs.blank, fun hnil => ?_⟩
    obtain ⟨x, rest, rfl⟩ := hs.nonempty hpos
    cases hnil
  · obtain rfl : size = 0 := by omega
    rcases alloc_zero h with ⟨-, m', free', x, shm, halloc, hs⟩ | ⟨hgives, halloc⟩
    · exact ⟨m', free', [x], shm, halloc, hs.wrote h, hs.blank, nofun⟩
    · refine ⟨m, free, [], true, ?_, ?_, nofun, fun _ => ⟨rfl, hgives⟩⟩
      · rw [halloc, grow_nil]
      · rw [grow_nil]
        exact .refl h

theorem u32_lt (n : ℕ) : u32 n < 4294967296 := Nat.mod_lt _ (by decide)

theorem CursorAt.grow {new : List Node} {shm : Bool} (h : CursorAt b pre n behind) (hnew : ∀ x ∈ new, Blank x.slice) :
    CursorAt (b.grow new shm) pre n (behind ++ new) where
  split := by rw [LinkedBuffer.grow, h.split, List.append_assoc, List.cons_append]
  write := h.write
  blank x hx := (List.mem_append.mp hx).elim (h.blank x) (hnew x)

theorem Ready.grow {new : List Node} {shm : Bool} (h : Ready b) (hnew : ∀ x ∈ new, Blank x.slice) : Ready (b.grow new shm) := by
  rcases h with ⟨hwrite, hblank⟩ | ⟨pre, n, behind, hc⟩
  · refine .inl ⟨hwrite, fun x hx => ?_⟩
    exact (List.mem_append.mp hx).elim (hblank x) (hnew x)
  · exact .inr ⟨pre, n, behind ++ new, hc.grow hnew⟩

/-- The first lines of `write_bytes` and `reserve`. There is no cursor behind them only if there is no slice at all and
none was to be had. -/
theorem openWrite_ready (h : Base P e m free b) (hready : Ready b) (size : ℕ) :
    ∃ m' free' c, openWrite P.manager m b size = (m', c) ∧ Wrote P e m free b [] m' free' c ∧ c.len = b.len ∧
      (HasCursor c ∨ (c.write = none ∧ u32 size = 0 ∧ b.write = none ∧ b.sliceList = [] ∧ givesFirst P.manager m = false)) := by
  rcases hready with ⟨hwrite, hblank⟩ | hcursor
  · obtain ⟨m', free', new, shm, halloc, hwrote, hnew, hnone⟩ := alloc_wrote h (u32_lt size)
    have hall : ∀ x ∈ (b.grow new shm).sliceList, Blank x.slice :=
      fun x hx => (List.mem_append.mp hx).elim (hblank x) (hnew x)
    refine ⟨m', free', { b.grow new shm with write := (b.grow new shm).front }, ?_, hwrote.congr rfl rfl rfl rfl rfl, rfl, ?_⟩
    · rw [openWrite, if_pos hwrite, halloc]
      rfl
    · cases hs : (b.grow new shm).sliceList with
      | nil =>
        obtain ⟨hnil, hnil'⟩ := List.append_eq_nil_iff.mp hs
        right
        refine ⟨?_, (hnone hnil').1, hwrite, hnil, (hnone hnil').2⟩
        rw [front, hs]
        rfl
      | cons x rest =>
        rw [hs] at hall
        refine .inl ⟨[], x, rest, hs, ?_, fun y hy => hall y (List.mem_cons_of_mem x hy)⟩
        rw [front, hs]
        rfl
  · refine ⟨m, free, b, ?_, .refl h, rfl, .inl hcursor⟩
    obtain ⟨pre, n, behind, hc⟩ := hcursor
    rw [openWrite, if_neg (by simp [hc.write])]

theorem writeRound_cursor (h : Base P e m free b) (hc : CursorAt b pre n behind) (hne : bytes ≠ []) :
    ∃ m' free' b', writeRound P.manager m b bytes = some (min bytes.length n.slice.remain, m', b') ∧
      Wrote P e m free b (bytes.take (min bytes.length n.slice.remain)) m' free' b' ∧ b'.len = b.len ∧
      (HasCursor b' ∨ (b'.write = none ∧ min bytes.length n.slice.remain < bytes.length)) := by
  obtain ⟨m₁, s₁, happ, hwrote⟩ := h.append hc.split hc.blank hne
  generalize hk : min bytes.length n.slice.remain = k at happ hwrote
  generalize hb₁ : ({ b with sliceList := pre ++ ⟨n.id, s₁⟩ :: behind } : LinkedBuffer) = b₁ at hwrote
  have hsplit₁ : b₁.sliceList = pre ++ ⟨n.id, s₁⟩ :: behind := by rw [← hb₁]
  have hlen₁ : b₁.len = b.len := by rw [← hb₁]
  have hwrite₁ : b₁.write = some n.id := by rw [← hb₁]; exact hc.write
  have hround : writeRound P.manager m b bytes = if k < bytes.length then
      some (k, setWrite (fun b => (b.nextOf n.id).head?.map Node.id)
        (if behind = [] then alloc P.manager m₁ b₁ (u32 (bytes.length - k)) else (m₁, b₁)))
      else some (k, m₁, b₁) := by
    rw [writeRound, hc.write, Option.bind_some, nodeAt_split hc.split h, Option.map_some, happ]
    simp only [setSlice_split hc.split h, hb₁]
    rw [nextOf_split (n := ⟨n.id, s₁⟩) hsplit₁ hwrote.base]
    split_ifs <;> rfl
  rw [hround]
  by_cases hmore : k < bytes.length
  · rw [if_pos hmore]
    cases behind with
    | nil =>
      obtain ⟨m', free', new, shm, halloc, hgrown, hblank, -⟩ := alloc_wrote hwrote.base (u32_lt (bytes.length - k))
      have hsplit' : (b₁.grow new shm).sliceList = pre ++ ⟨n.id, s₁⟩ :: new := by
        rw [grow, hsplit₁, List.append_assoc, List.singleton_append]
      have hnext : (b₁.grow new shm).nextOf n.id = new := nextOf_split (n := ⟨n.id, s₁⟩) hsplit' hgrown.base
      have hall := hwrote.trans h hgrown
      rw [List.append_nil] at hall
      refine ⟨m', free', { b₁.grow new shm with write := new.head?.map Node.id }, ?_, hall.congr rfl rfl rfl rfl rfl, hlen₁, ?_⟩
      · rw [if_pos rfl, halloc, setWrite, hnext]
      · cases new with
        | nil => exact .inr ⟨rfl, hmore⟩
        | cons x rest =>
          refine .inl ⟨pre ++ [⟨n.id, s₁⟩], x, rest, ?_, rfl, fun y hy => hblank y (List.mem_cons_of_mem x hy)⟩
          rw [List.append_assoc, List.singleton_append]
          exact hsplit'
    | cons x rest =>
      refine ⟨m₁, free, { b₁ with write := some x.id }, ?_, hwrote.congr rfl rfl rfl rfl rfl, hlen₁, .inl ?_⟩
      · rw [if_neg (by simp), setWrite]
        simp only [nextOf_split (n := ⟨n.id, s₁⟩) hsplit₁ hwrote.base, List.head?_cons, Option.map_some]
      · refine ⟨pre ++ [⟨n.id, s₁⟩], x, rest, ?_, rfl, fun y hy => hc.blank y (List.mem_cons_of_mem x hy)⟩
        rw [List.append_assoc, List.singleton_append]
        exact hsplit₁
  · rw [if_neg hmore]
    exact ⟨m₁, free, b₁, rfl, hwrote, hlen₁, .inl ⟨pre, _, behind, hsplit₁, hwrite₁, hc.blank⟩⟩

theorem writeLoop_cursor {fuel : ℕ} (h : Base P e m free b) (hc : HasCursor b) (hne : bytes ≠ [])
    (hloop : writeLoop P.manager fuel m b bytes = some (m', b')) :
    ∃ free', Wrote P e m free b bytes m' free' b' ∧ b'.len = b.len ∧ HasCursor b' := by
  induction fuel generalizing m free b bytes with
  | zero => cases hloop
  | succ fuel ih =>
    obtain ⟨pre, n, behind, hc⟩ := hc
    obtain ⟨m₁, free₁, b₁, hround, hwrote, hlen, hcursor⟩ := writeRound_cursor h hc hne
    generalize min bytes.length n.slice.remain = k at hround hwrote hcursor
    rw [writeLoop, hround, Option.bind_some] at hloop
    by_cases hmore : k < bytes.length
    · simp only [if_pos hmore] at hloop
      have hne' : bytes.drop k ≠ [] := by
        rw [ne_eq, List.drop_eq_nil_iff]
        omega
      rcases hcursor with hcursor | ⟨hnone, -⟩
      · obtain ⟨free', hwrote', hlen', hcursor'⟩ := ih hwrote.base hcursor hne' hloop
        have hall := hwrote.trans h hwrote'
        rw [List.take_append_drop] at hall
        exact ⟨free', hall, hlen'.trans hlen, hcursor'⟩
      · -- nothing was allocated, and the null cursor is followed
        cases fuel with
        | zero => cases hloop
        | succ fuel =>
          rw [writeLoop, writeRound, hnone] at hloop
          cases hloop
    · simp only [if_neg hmore, Option.some.injEq] at hloop
      cases hloop
      rw [List.take_of_length_le (by omega)] at hwrote
      exact ⟨free₁, hwrote, hlen, hcursor.resolve_right fun hno => hmore hno.2⟩

theorem writeBytes_ready (h : Base P e m free b) (hready : Ready b) (hcall : writeBytes P.manager m b bytes = some (m', b')) :
    ∃ free', Wrote P e m free b bytes m' free' b' ∧ b'.len = b.len + bytes.length ∧ Ready b' := by
  rw [writeBytes] at hcall
  by_cases hne : bytes = []
  · subst hne
    cases hcall
    exact ⟨free, .refl h, rfl, hready⟩
  rw [if_neg (by simpa using hne)] at hcall
  obtain ⟨m₁, free₁, c, hopen, hwrote, hlen, hcursor⟩ := openWrite_ready h hready bytes.length
  rw [hopen] at hcall
  obtain ⟨⟨m₂, b₂⟩, hloop, hr⟩ := Option.map_eq_some_iff.mp hcall
  cases hr
  rcases hcursor with hcursor | ⟨hnone, -⟩
  · obtain ⟨free', hwrote', hlen', pre, n, behind, hc⟩ := writeLoop_cursor hwrote.base hcursor hne hloop
    refine ⟨free', (hwrote.trans h hwrote').congr rfl rfl rfl rfl rfl, ?_, .inr ⟨pre, n, behind, hc.split, hc.write, hc.blank⟩⟩
    simp only [hlen', hlen]
  · rw [writeLoop, writeRound, hnone] at hloop
    cases hloop

def Reserved (P : Pool) (e : Bool) (m : Mem) (free : ℕ → Prop) (b : LinkedBuffer) (bytes : List UInt8)
    (r : Option (Mem × LinkedBuffer × Result (ℕ × ℕ))) : Prop :=
  ∃ m₁ b₁ id pos, r = some (m₁, b₁, .ok (id, pos)) ∧ b₁.len = b.len + bytes.length ∧
    (∃ x ∈ b₁.sliceList, x.id = id ∧ pos + bytes.length ≤ x.slice.cap) ∧
    ∃ m' free' b', fill m₁ b₁ bytes (id, pos) = some (m', b') ∧ Wrote P e m free b bytes m' free' b' ∧
      b'.len = b.len + bytes.length ∧ HasCursor b'

theorem Reserved.after {r : Option (Mem × LinkedBuffer × Result (ℕ × ℕ))} (hb : Base P e m free b)
    (h : Wrote P e m free b [] m' free' c) (hlen : c.len = b.len) (hr : Reserved P e m' free' c bytes r) :
    Reserved P e m free b bytes r := by
  obtain ⟨m₁, b₁, id, pos, hr, hlen₁, hspan, m'', free'', b', hfill, hw, hlen', hcursor⟩ := hr
  rw [hlen] at hlen₁ hlen'
  exact ⟨m₁, b₁, id, pos, hr, hlen₁, hspan, m'', free'', b', hfill, h.trans hb hw, hlen', hcursor⟩

theorem reserveAt_reserved (h : Base P e m free b) (hsplit : b.sliceList = pre ++ n :: behind)
    (hblank : ∀ x ∈ behind, Blank x.slice) (hfit : bytes.length ≤ n.slice.remain) :
    Reserved P e m free b bytes (reserveAt m b n bytes.length) := by
  rcases hd : n.slice.data.store m n.slice.writeIndex bytes with ⟨m', data⟩
  have hwrote := h.extend hsplit hblank hfit hd
  have hok := h.mem_slice (n := n) (by simp [hsplit])
  have hok' := hok.reserve hfit
  have hbase := (h.replace hsplit (.refl _ _) hok' rfl rfl).1
  generalize hn' : ({ n.slice with writeIndex := n.slice.writeIndex + bytes.length } : BufferSlice) = s at hbase hok'
  have hindex : s.writeIndex = n.slice.writeIndex + bytes.length := by rw [← hn']
  have hc : Base P e m free { b with
      sliceList := pre ++ ⟨n.id, s⟩ :: behind
      write := some n.id
      len := b.len + bytes.length } := hbase.congr rfl rfl rfl rfl
  refine ⟨m, { b with
    sliceList := pre ++ ⟨n.id, s⟩ :: behind
    write := some n.id
    len := b.len + bytes.length }, n.id, n.slice.writeIndex, ?_, rfl, ?_, m', free, { b with
      sliceList := pre ++ ⟨n.id, { s with data := data }⟩ :: behind
      write := some n.id
      len := b.len + bytes.length }, ?_, ?_, rfl, pre, ⟨n.id, { s with data := data }⟩, behind, rfl, rfl, hblank⟩
  · rw [reserveAt, BufferSlice.reserve, if_pos hfit]
    simp only [setSlice_split hsplit h, hn']
  · refine ⟨⟨n.id, s⟩, by simp, rfl, ?_⟩
    rw [← hindex]
    exact hok'.write_le
  · simp only [fill, nodeAt_split (n := ⟨n.id, s⟩) rfl hc, setSlice_split (n := ⟨n.id, s⟩) rfl hc, Option.map_some]
    rw [← hn']
    simp only [hd]
  · rw [← hn']
    exact hwrote.congr rfl rfl rfl rfl rfl

theorem reserveNew_reserved (h : Base P e m free b) (hne : bytes ≠ []) (hlen : bytes.length < 4294967296) :
    Reserved P e m free b bytes
      (let (m, b) := reserveNew b bytes.length (P.manager.allocShmBuffer m (u32 bytes.length))
      b.write.bind fun id => (b.nodeAt id).bind fun node => (reserveAt m b node bytes.length).or
        (some (m, { b with len := b.len + bytes.length }, .error (.ofKind .noMoreBuffer)))) := by
  obtain ⟨m', free', x, shm, hnew, hs⟩ := reserveNew_supply h (List.length_pos_iff.mpr hne) hlen
  have hwrote : Wrote P e m free b [] m' free' { b.grow [x] shm with write := some x.id } :=
    (hs.wrote h).congr rfl rfl rfl rfl rfl
  have hsplit : ({ b.grow [x] shm with write := some x.id } : LinkedBuffer).sliceList = b.sliceList ++ x :: [] := rfl
  have hreserved := reserveAt_reserved hwrote.base hsplit nofun hs.fits
  rw [hnew]
  simp only [Option.bind_some, nodeAt_split hsplit hwrote.base]
  refine Reserved.after h hwrote rfl ?_
  obtain ⟨m₁, b₁, id, pos, hr, hrest⟩ := hreserved
  rw [hr, Option.some_or]
  exact ⟨m₁, b₁, id, pos, rfl, hrest⟩

theorem reserve_reserved (hopen : openWrite P.manager m b bytes.length = (m', c)) (h : Base P e m' free' c)
    (hc : CursorAt c pre n behind) (hlen : bytes.length < 4294967296) :
    Reserved P e m' free' c bytes (reserve P.manager m b bytes.length) := by
  have hsome : ∀ (r r' : Option (Mem × LinkedBuffer × Result (ℕ × ℕ))), Reserved P e m' free' c bytes r →
      Reserved P e m' free' c bytes (r.or r') := by
    rintro r r' ⟨m₁, b₁, id, pos, rfl, hrest⟩
    exact ⟨m₁, b₁, id, pos, rfl, hrest⟩
  rw [reserve, hopen]
  simp only [hc.write, Option.bind_some, nodeAt_split hc.split h, nextOf_split hc.split h]
  by_cases hfit : bytes.length ≤ n.slice.remain
  · exact hsome _ _ (reserveAt_reserved h hc.split hc.blank hfit)
  have hne : bytes ≠ [] := by
    rintro rfl
    exact hfit (Nat.zero_le _)
  rw [reserveAt_none hfit, Option.none_or]
  cases behind with
  | nil => exact reserveNew_reserved h hne hlen
  | cons x rest =>
    rw [List.head?_cons, Option.bind_some]
    by_cases hfit' : bytes.length ≤ x.slice.remain
    · have hsplit' : c.sliceList = (pre ++ [n]) ++ x :: rest := by rw [hc.split, List.append_assoc, List.singleton_append]
      exact hsome _ _ (reserveAt_reserved h hsplit' (fun y hy => hc.blank y (List.mem_cons_of_mem x hy)) hfit')
    · rw [reserveAt_none hfit', Option.none_or]
      exact reserveNew_reserved h hne hlen

end LinkedBuffer

end Shmipc
