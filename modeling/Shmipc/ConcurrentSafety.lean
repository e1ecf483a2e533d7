import Shmipc.ConcurrentSteps

namespace Shmipc.ConcurrentList

open ByteMemory Transition

variable {l : BufferList} {n c : ℕ} {s s' : State} {L : List ℕ} {t : ℕ} {m : Mem} {p : Pc}
  {held : List ℕ}

def Pc.quiet : Pc → Bool
  | .idle | .popFetch _ | .popFlag .. | .popNext .. | .popCas .. | .popSize _ | .popReload _ | .popUndo
  | .pushSize | .pushCount => true
  | _ => false

theorem quiet_spec (h : p.quiet = true) : pcSlots p = [] ∧ (∀ a b, ¬ Pending p a b) ∧
    (∀ r o, p ≠ .pushLoad r ∧ p ≠ .pushCas r o) ∧ ∀ a, p ≠ .updateFlag a := by
  cases p <;> simp_all [Pc.quiet, pcSlots, Pending]

theorem Inv.keep_move (hi : Inv l n c s L) (hhead : l.headLoad m = l.headLoad s.mem)
    (htail : l.tailLoad m = l.tailLoad s.mem)
    (hcell : ∀ r, Slot l n c r → r ∉ owned s t →
      flag l m r = flag l s.mem r ∧ next l m r = next l s.mem r)
    (hown : (pcSlots p ++ held).Perm (owned s t)) (hpend : ∀ a b, ¬ Pending (s.pc t) a b)
    (hpend' : ∀ a b, ¬ Pending p a b)
    (hclean : ∀ r, (p = .pushLoad r ∨ ∃ o, p = .pushCas r o) → flag l m r = false)
    (hupd : ∀ a, p = .updateFlag a → a ∈ held) : Inv l n c (move s t m p held) L :=
  hi.keep ⟨hhead, htail, hcell, fun _ h => move_others m p held h⟩ (by rwa [owned_move]) hpend
    (by simpa using hpend') (by simpa using hclean) (by simpa using hupd)

theorem Inv.quiet_move (hi : Inv l n c s L) (hq : (s.pc t).quiet = true) (hq' : p.quiet = true)
    (hm : ∀ lo hi, l.offsetInShm + 36 ≤ lo ∨ hi ≤ l.offsetInShm → SameOn s.mem m lo hi)
    (hhead : l.headLoad m = l.headLoad s.mem) (htail : l.tailLoad m = l.tailLoad s.mem) :
    Inv l n c (move s t m p (s.held t)) L := by
  obtain ⟨h1, h2, -, -⟩ := quiet_spec hq
  obtain ⟨h1', h2', h3', h4'⟩ := quiet_spec hq'
  refine hi.keep_move hhead htail (fun r _ _ => cell_of_word hm r) (by rw [owned, h1, h1']) h2 h2' ?_ ?_
  · rintro r (e | ⟨o, e⟩)
    · exact absurd e (h3' r 0).1
    · exact absurd e (h3' r o).2
  · intro a e
    exact absurd e (h4' a)

theorem Inv.slot_move {q : ℕ} (hi : Inv l n c s L) (hq : q ∈ owned s t)
    (hm : ∀ lo hi, l.bufferRegion + q + 20 ≤ lo ∨ hi ≤ l.bufferRegion + q → SameOn s.mem m lo hi)
    (hown : (pcSlots p ++ held).Perm (owned s t)) (hpend : ∀ a b, ¬ Pending (s.pc t) a b)
    (hpend' : ∀ a b, ¬ Pending p a b)
    (hclean : ∀ r, (p = .pushLoad r ∨ ∃ o, p = .pushCas r o) → flag l m r = false)
    (hupd : ∀ a, p = .updateFlag a → a ∈ held) : Inv l n c (move s t m p held) L := by
  obtain ⟨hhead, htail⟩ := words_of_slot hm
  refine hi.keep_move hhead htail (fun r hr hnr => ?_) hown hpend hpend' hclean hupd
  exact cell_of_slot (hi.mine t q hq).1 hr (fun e => hnr (e ▸ hq)) hm

/-- A compare-exchange of `pop` that is about to succeed finds the link of the head slot as it
has read it. -/
def Fresh (l : BufferList) (s : State) (a : ℕ × Cmd) : Prop :=
  ∀ retry h nx, s.pc a.1 = .popCas retry h nx → l.headLoad s.mem = h →
    flag l s.mem h = true ∧ next l s.mem h = nx

def Pc.link : Pc → Option (ℕ × ℕ)
  | .popCas _ oldHead next => some (oldHead, next)
  | _ => none

theorem fresh_iff {a : ℕ × Cmd} : Fresh l s a ↔
    ∀ q ∈ (s.pc a.1).link, l.headLoad s.mem = q.1 → flag l s.mem q.1 = true ∧ next l s.mem q.1 = q.2 := by
  constructor
  · intro h q hq hhead
    cases hpc : s.pc a.1 with
    | popCas retry oldHead nx =>
      rw [hpc] at hq
      cases hq
      exact h retry oldHead nx hpc hhead
    | _ =>
      rw [hpc] at hq
      cases hq
  · intro h retry oldHead nx hpc hhead
    apply h (oldHead, nx) _ hhead
    rw [hpc]
    rfl

instance (l : BufferList) (s : State) (a : ℕ × Cmd) : Decidable (Fresh l s a) := decidable_of_iff _ fresh_iff.symm

theorem newTail_eq (g : Geometry l n c) {r : ℕ} (h : Slot l n c r) :
    u32sub (offsetOf l r) l.bufferRegionOffsetInShm = r := by
  have := g.arena.near _ h
  unfold u32sub offsetOf u32
  omega

theorem Inv.advance (g : Geometry l n c) (hi : Inv l n c s L) {cmd : Cmd} (hok : Fresh l s (t, cmd))
    (h : advance l s.mem (s.held t) (s.pc t) = some (m, p, held)) :
    ∃ L', Inv l n c (move s t m p held) L' := by
  have hquiet : ∀ q : Pc, (s.pc t).quiet = true → q.quiet = true →
      Inv l n c (move s t s.mem q (s.held t)) L := fun q h1 h2 =>
    hi.quiet_move h1 h2 (fun _ _ _ => .refl _ _ _) rfl rfl
  have hsize : ∀ d, ∀ q : Pc, (s.pc t).quiet = true → q.quiet = true →
      Inv l n c (move s t (l.sizeAdd s.mem d) q (s.held t)) L := fun d q h1 h2 =>
    hi.quiet_move h1 h2 (fun _ _ h => l.sameOn_sizeAdd _ _ h) (l.sizeAdd_words _ _).2.1
      (l.sizeAdd_words _ _).2.2.1
  have hcount : ∀ d, ∀ q : Pc, (s.pc t).quiet = true → q.quiet = true →
      Inv l n c (move s t (l.counterAdd s.mem d) q (s.held t)) L := fun d q h1 h2 =>
    hi.quiet_move h1 h2 (fun _ _ h => l.sameOn_counterAdd _ _ h) (l.counterAdd_words _ _).2.2.1
      (l.counterAdd_words _ _).2.2.2.1
  cases hpc : s.pc t with
  | idle => simp [hpc, ConcurrentList.advance] at h
  | popFetch oldHead =>
    simp only [hpc, ConcurrentList.advance] at h
    split_ifs at h <;> obtain ⟨rfl, rfl, rfl⟩ := h
    · exact ⟨L, hsize _ _ (by rw [hpc]; rfl) rfl⟩
    · exact ⟨L, hsize _ _ (by rw [hpc]; rfl) rfl⟩
  | popFlag retry oldHead =>
    simp only [hpc, ConcurrentList.advance] at h
    split_ifs at h <;> obtain ⟨rfl, rfl, rfl⟩ := h <;> exact ⟨L, hquiet _ (by rw [hpc]; rfl) rfl⟩
  | popNext retry oldHead =>
    simp only [hpc, ConcurrentList.advance] at h
    obtain ⟨rfl, rfl, rfl⟩ := h
    exact ⟨L, hquiet _ (by rw [hpc]; rfl) rfl⟩
  | popCas retry oldHead nx =>
    simp only [hpc, ConcurrentList.advance] at h
    split_ifs at h with hhead <;> obtain ⟨rfl, rfl, rfl⟩ := h
    · obtain ⟨hf, hn⟩ := hok retry oldHead nx hpc hhead
      exact hi.take g hpc hhead hf hn
    · exact ⟨L, hquiet _ (by rw [hpc]; rfl) rfl⟩
  | popSize retry =>
    simp only [hpc, ConcurrentList.advance] at h
    split_ifs at h <;> obtain ⟨rfl, rfl, rfl⟩ := h <;> exact ⟨L, hquiet _ (by rw [hpc]; rfl) rfl⟩
  | popReload retry =>
    simp only [hpc, ConcurrentList.advance] at h
    split_ifs at h <;> obtain ⟨rfl, rfl, rfl⟩ := h <;> exact ⟨L, hquiet _ (by rw [hpc]; rfl) rfl⟩
  | popUndo =>
    simp only [hpc, ConcurrentList.advance] at h
    obtain ⟨rfl, rfl, rfl⟩ := h
    exact ⟨L, hsize _ _ (by rw [hpc]; rfl) rfl⟩
  | popClear slot =>
    simp only [hpc, ConcurrentList.advance] at h
    obtain ⟨rfl, rfl, rfl⟩ := h
    exact ⟨L, hi.slot_move (by simp [owned, hpc, pcSlots])
      (fun _ _ h => BufferHeader.sameOn_clearFlag _ _ h) (by simp [owned, hpc, pcSlots])
      (by simp [hpc, Pending]) (by simp [Pending]) (by simp) (by simp)⟩
  | popUse slot =>
    simp only [hpc, ConcurrentList.advance] at h
    obtain ⟨rfl, rfl, rfl⟩ := h
    exact ⟨L, hi.slot_move (by simp [owned, hpc, pcSlots])
      (fun _ _ h => BufferHeader.sameOn_setInUsed _ _ h) (by simp [owned, hpc, pcSlots])
      (by simp [hpc, Pending]) (by simp [Pending]) (by simp) (by simp)⟩
  | popCount slot =>
    simp only [hpc, ConcurrentList.advance] at h
    obtain ⟨rfl, rfl, rfl⟩ := h
    exact ⟨L, hi.keep_move (l.counterAdd_words _ _).2.2.1 (l.counterAdd_words _ _).2.2.2.1
      (fun r _ _ => cell_of_word (fun _ _ h => l.sameOn_counterAdd _ _ h) r)
      (by simp [owned, hpc, pcSlots]) (by simp [hpc, Pending]) (by simp [Pending]) (by simp) (by simp)⟩
  | pushLoad slot =>
    simp only [hpc, ConcurrentList.advance] at h
    obtain ⟨rfl, rfl, rfl⟩ := h
    have hf := hi.clean t slot (.inl hpc)
    exact ⟨L, hi.keep_move rfl rfl (fun _ _ _ => ⟨rfl, rfl⟩) (by simp [owned, hpc, pcSlots])
      (by simp [hpc, Pending]) (by simp [Pending]) (by simpa using hf) (by simp)⟩
  | pushCas slot oldTail =>
    simp only [hpc, ConcurrentList.advance] at h
    have hslot := (hi.mine t slot (by simp [owned, hpc, pcSlots])).1
    rw [newTail_eq g hslot] at h
    split_ifs at h with htail <;> obtain ⟨rfl, rfl, rfl⟩ := h
    · subst htail
      exact ⟨_, hi.append g hpc⟩
    · have hf := hi.clean t slot (.inr ⟨_, hpc⟩)
      exact ⟨L, hi.keep_move rfl rfl (fun _ _ _ => ⟨rfl, rfl⟩) (by simp [owned, hpc, pcSlots])
        (by simp [hpc, Pending]) (by simp [Pending]) (by simpa using hf) (by simp)⟩
  | pushLink a b =>
    simp only [hpc, ConcurrentList.advance] at h
    obtain ⟨rfl, rfl, rfl⟩ := h
    have hpend : Pending (s.pc t) a b := .inl hpc
    obtain ⟨hab, hf⟩ := hi.pending t a b hpend
    have hlt := g.arena.near _ (hi.slot b hab.mem.2)
    refine ⟨L, hi.link hpend (fun _ _ h => BufferHeader.sameOn_setNext _ _ _ h) ?_ (.inl ⟨rfl, ?_⟩)⟩
    · rw [next, (BufferHeader.setNext_fields _ _ _).2.2.1, Nat.mod_eq_of_lt (by omega)]
    · rwa [flag, (BufferHeader.setNext_fields _ _ _).1]
  | pushFlag a b =>
    simp only [hpc, ConcurrentList.advance] at h
    obtain ⟨rfl, rfl, rfl⟩ := h
    refine ⟨L, hi.link (.inr hpc) (fun _ _ h => BufferHeader.sameOn_setHasNext _ _ h) ?_ (.inr ⟨rfl, ?_⟩)⟩
    · rw [next, (BufferHeader.setHasNext_fields _ _).2.2.1]
      exact hi.stored t a b hpc
    · rw [flag, (BufferHeader.setHasNext_fields _ _).1]
  | pushSize =>
    simp only [hpc, ConcurrentList.advance] at h
    obtain ⟨rfl, rfl, rfl⟩ := h
    exact ⟨L, hsize _ _ (by rw [hpc]; rfl) rfl⟩
  | pushCount =>
    simp only [hpc, ConcurrentList.advance] at h
    obtain ⟨rfl, rfl, rfl⟩ := h
    exact ⟨L, hcount _ _ (by rw [hpc]; rfl) rfl⟩
  | updateFlag slot =>
    simp only [hpc, ConcurrentList.advance] at h
    obtain ⟨rfl, rfl, rfl⟩ := h
    have hheld := hi.updating t slot hpc
    exact ⟨L, hi.slot_move (by simp [owned, hheld])
      (fun _ _ h => BufferHeader.sameOn_setHasNext _ _ h) (by simp [owned, hpc, pcSlots])
      (by simp [hpc, Pending]) (by simp [Pending]) (by simp) (by simp)⟩

theorem owned_idle (h : s.pc t = .idle) : owned s t = s.held t := by simp [owned, h, pcSlots]

theorem Inv.give {slot taker : ℕ} (hi : Inv l n c s L) (hpc : s.pc t = .idle) (hslot : slot ∈ s.held t) :
    Inv l n c ⟨s.mem, s.pc, Function.update (Function.update s.held t ((s.held t).erase slot)) taker
      (slot :: Function.update s.held t ((s.held t).erase slot) taker)⟩ L := by
  generalize hh : Function.update s.held t ((s.held t).erase slot) = h
  have hown : slot ∈ owned s t := by simp [owned, hslot]
  have hnd : (s.held t).Nodup := owned_idle hpc ▸ hi.distinct t
  have hmid : ∀ t', (pcSlots (s.pc t') ++ h t').Nodup ∧
      ∀ r, r ∈ pcSlots (s.pc t') ++ h t' ↔ r ∈ owned s t' ∧ r ≠ slot := by
    intro t'
    by_cases ht : t' = t
    · subst ht
      have hnil : pcSlots (s.pc t') = [] := by rw [hpc]; rfl
      rw [← hh, Function.update_self, owned_idle hpc, hnil, List.nil_append]
      exact ⟨hnd.erase _, fun r => by rw [hnd.mem_erase_iff, and_comm]⟩
    · rw [← hh, Function.update_of_ne ht]
      exact ⟨hi.distinct t', fun r => ⟨fun hr => ⟨hr, fun e => ht (hi.apart t' t r hr (e ▸ hown))⟩,
        fun hr => hr.1⟩⟩
  have hperm : ∀ t', (owned ⟨s.mem, s.pc, Function.update h taker (slot :: h taker)⟩ t').Perm
      (if t' = taker then slot :: (pcSlots (s.pc t') ++ h t') else pcSlots (s.pc t') ++ h t') := by
    intro t'
    by_cases ht : t' = taker
    · subst ht
      simp [owned]
    · simp [owned, ht]
  have hmem : ∀ t' r, r ∈ owned ⟨s.mem, s.pc, Function.update h taker (slot :: h taker)⟩ t' ↔
      (r = slot ∧ t' = taker) ∨ (r ∈ owned s t' ∧ r ≠ slot) := by
    intro t' r
    rw [(hperm t').mem_iff]
    split_ifs with ht
    · rw [List.mem_cons, (hmid t').2 r]
      simp [ht]
    · rw [(hmid t').2 r]
      simp [ht]
  refine ⟨hi.slot, hi.nodup, hi.head, hi.tail, ?_, ?_, ?_, ?_, hi.linked, hi.unlinked, hi.pending,
    hi.stored, hi.once, hi.last, hi.clean, ?_⟩
  · intro t' r hr
    rcases (hmem t' r).mp hr with ⟨rfl, -⟩ | ⟨hr, -⟩
    · exact hi.mine t r hown
    · exact hi.mine t' r hr
  · intro t'
    rw [(hperm t').nodup_iff]
    split_ifs
    · refine List.nodup_cons.mpr ⟨fun h' => ?_, (hmid t').1⟩
      exact (((hmid t').2 slot).mp h').2 rfl
    · exact (hmid t').1
  · intro t₁ t₂ r h₁ h₂
    rcases (hmem t₁ r).mp h₁ with ⟨e₁, e₁'⟩ | ⟨h₁, e₁⟩ <;> rcases (hmem t₂ r).mp h₂ with ⟨e₂, e₂'⟩ | ⟨h₂, e₂⟩
    · rw [e₁', e₂']
    · exact absurd e₁ e₂
    · exact absurd e₂ e₁
    · exact hi.apart t₁ t₂ r h₁ h₂
  · intro r hr
    by_cases hrs : r = slot
    · exact .inr ⟨taker, (hmem taker r).mpr (.inl ⟨hrs, rfl⟩)⟩
    · rcases hi.cover r hr with h' | ⟨t', h'⟩
      · exact .inl h'
      · exact .inr ⟨t', (hmem t' r).mpr (.inr ⟨h', hrs⟩)⟩
  · intro t' a ha
    have hne : t' ≠ t := by
      rintro rfl
      exact absurd ha (by simp [hpc])
    have hkeep : a ∈ h t' := by
      rw [← hh, Function.update_of_ne hne]
      exact hi.updating t' a ha
    by_cases ht : t' = taker
    · subst ht
      simp [hkeep]
    · simpa [Function.update_of_ne ht] using hkeep

theorem Inv.step (g : Geometry l n c) (hi : Inv l n c s L) {a : ℕ × Cmd} (hok : Fresh l s a)
    (h : step l s a = some s') : ∃ L', Inv l n c s' L' := by
  obtain ⟨t, cmd⟩ := a
  cases cmd with
  | go =>
    simp only [ConcurrentList.step, Option.map_eq_some_iff] at h
    obtain ⟨⟨m, p, held⟩, hadv, rfl⟩ := h
    exact hi.advance g hok hadv
  | pop =>
    simp only [ConcurrentList.step, Option.ite_none_right_eq_some, Option.some.injEq] at h
    obtain ⟨hpc, rfl⟩ := h
    have hm := hi.quiet_move (t := t) (p := .popFetch (l.headLoad s.mem)) (by rw [hpc]; rfl) rfl
      (fun _ _ _ => .refl s.mem _ _) rfl rfl
    rw [move, Function.update_eq_self] at hm
    exact ⟨L, hm⟩
  | push slot =>
    simp only [ConcurrentList.step, Option.ite_none_right_eq_some, Option.some.injEq] at h
    obtain ⟨⟨hpc, hslot⟩, rfl⟩ := h
    refine ⟨L, hi.slot_move (q := slot) (by simp [owned, hslot]) (fun _ _ h => BufferList.sameOn_reset h)
      ?_ (by simp [hpc, Pending]) (by simp [Pending]) ?_ (by simp)⟩
    · simpa [owned, hpc, pcSlots] using (List.perm_cons_erase hslot).symm
    · rintro r (e | ⟨o, e⟩)
      · obtain rfl := Pc.pushLoad.inj e
        simp [flag, resetSlot]
      · cases e
  | update slot nx size start =>
    simp only [ConcurrentList.step, Option.ite_none_right_eq_some, Option.some.injEq] at h
    obtain ⟨⟨hpc, hslot, -, -⟩, rfl⟩ := h
    have hm : Inv l n c (move s t (BufferHeader.setNext (BufferHeader.setStart (BufferHeader.setSize
        s.mem (l.bufferRegion + slot) size) (l.bufferRegion + slot) start) (l.bufferRegion + slot)
        (offsetOf l nx)) (.updateFlag slot) (s.held t)) L := hi.slot_move (by simp [owned, hslot])
      (fun _ _ h => ((BufferHeader.sameOn_setSize _ _ _ h).trans
        (BufferHeader.sameOn_setStart _ _ _ h)).trans (BufferHeader.sameOn_setNext _ _ _ h))
      (by simp [owned, hpc, pcSlots]) (by simp [hpc, Pending]) (by simp [Pending]) (by simp)
      (by simpa using hslot)
    rw [move, Function.update_eq_self] at hm
    exact ⟨L, hm⟩
  | give slot taker =>
    simp only [ConcurrentList.step, Option.ite_none_right_eq_some, Option.some.injEq] at h
    obtain ⟨⟨hpc, hslot⟩, rfl⟩ := h
    exact ⟨L, hi.give hpc hslot⟩

inductive FreeReachable (l : BufferList) (m : Mem) : ℕ → Prop
  | head : FreeReachable l m (l.headLoad m)
  | next {r : ℕ} : FreeReachable l m r → flag l m r = true → FreeReachable l m (next l m r)

structure Safe (l : BufferList) (n c : ℕ) (s : State) : Prop where
  single : ∀ t t' r, r ∈ owned s t → r ∈ owned s t' → t = t'
  distinct : ∀ t, (owned s t).Nodup
  notFree : ∀ t r, r ∈ owned s t → ¬ FreeReachable l s.mem r
  settled : (∀ t, s.pc t = .idle) → ∃ L : List ℕ, L.Nodup ∧ L.head? = some (l.headLoad s.mem) ∧
    L.getLast? = some (l.tailLoad s.mem) ∧
    L.IsChain (fun a b => flag l s.mem a = true ∧ next l s.mem a = b) ∧
    flag l s.mem (l.tailLoad s.mem) = false ∧
    ∀ r, Slot l n c r → (∃ t, r ∈ s.held t) ∨ r ∈ L

theorem adjacent_or_last {a : ℕ} (h : a ∈ L) : (∃ b, Adjacent L a b) ∨ L.getLast? = some a := by
  obtain ⟨L₁, L₂, rfl⟩ := List.append_of_mem h
  cases L₂ with
  | nil => exact .inr (by simp)
  | cons b L₂ => exact .inl ⟨b, L₁, L₂, rfl⟩

theorem Inv.mem_of_freeReachable (hi : Inv l n c s L) {r : ℕ} (h : FreeReachable l s.mem r) : r ∈ L := by
  induction h with
  | head => exact List.mem_of_head? hi.head
  | @next r _ hf ih =>
    rcases adjacent_or_last ih with ⟨b, hab⟩ | hlast
    · rw [hi.linked r b hab hf]
      exact hab.mem.2
    · exact absurd hf (by simp [hi.last r hlast])

theorem Inv.safe (hi : Inv l n c s L) : Safe l n c s := by
  refine ⟨hi.apart, hi.distinct, fun t r hr hf => (hi.mine t r hr).2 (hi.mem_of_freeReachable hf),
    fun hidle => ⟨L, hi.nodup, hi.head, hi.tail, ?_, hi.last _ hi.tail, ?_⟩⟩
  · refine (List.isChain_isInfix L).imp fun a b hab => ?_
    obtain ⟨L₁, L₂, he⟩ := hab
    have hadj : Adjacent L a b := ⟨L₁, L₂, by simp [← he]⟩
    cases hf : flag l s.mem a with
    | true => exact ⟨rfl, hi.linked a b hadj hf⟩
    | false =>
      obtain ⟨t, ht⟩ := hi.unlinked a b hadj hf
      exact absurd ht (by simp [hidle t, Pending])
  · intro r hr
    rcases hi.cover r hr with h | ⟨t, h⟩
    · exact .inr h
    · exact .inl ⟨t, owned_idle (hidle t) ▸ h⟩

theorem inv_initial (hfree : FreeList l n c m (l.slots n c)) :
    Inv l n c ⟨m, fun _ => .idle, fun _ => []⟩ ((List.range n).map (· * (c + 20))) := by
  have hmap : l.slots n c = ((List.range n).map (· * (c + 20))).map (l.bufferRegion + ·) := by
    simp [BufferList.slots]
  generalize (List.range n).map (· * (c + 20)) = L at hmap
  have hslot : ∀ r, r ∈ L ↔ Slot l n c r := by
    intro r
    rw [Slot, ← BufferList.mem_slots, hmap]
    simp
  rw [hmap] at hfree
  have hhead := hfree.head
  have htail := hfree.tail
  rw [List.head?_map, Option.map_eq_some_iff] at hhead
  rw [List.getLast?_map, Option.map_eq_some_iff] at htail
  obtain ⟨x, hx, hxe⟩ := hhead
  obtain ⟨y, hy, hye⟩ := htail
  have hlinks : ∀ a b, Adjacent L a b → flag l m a = true ∧ next l m a = b := by
    rintro a b ⟨L₁, L₂, rfl⟩
    have hab := (List.isChain_append_cons_cons.mp ((List.isChain_map _).mp hfree.chain)).2.1
    exact ⟨hab.1, Nat.add_left_cancel hab.2⟩
  refine ⟨fun r hr => (hslot r).mp hr, hfree.nodup.of_map _, ?_, ?_, by simp [owned, pcSlots],
    by simp [owned, pcSlots], by simp [owned, pcSlots], fun r hr => .inl ((hslot r).mpr hr),
    fun a b hab _ => (hlinks a b hab).2, ?_, by simp [Pending], by simp, by simp [Pending], ?_, by simp,
    by simp⟩
  · rw [hx, Nat.add_left_cancel hxe]
  · rw [hy, Nat.add_left_cancel hye]
  · intro a b hab hf
    exact absurd (hlinks a b hab).1 (by simp [hf])
  · intro a ha
    exact hfree.last _ (by rw [List.getLast?_map, ha, Option.map_some])

theorem safe_of_fresh {m' : Mem} {memLen off : ℕ}
    (h : BufferList.create n c m memLen off = .ok (l, m')) (hw : 36 + n * (c + 20) < 18446744073709551616)
    (hs : (system l m').Reachable (Fresh l) s) : Safe l n c s := by
  obtain ⟨g, hfree, -⟩ := BufferList.create_geometry h hw
  obtain ⟨L, hi⟩ : ∃ L, Inv l n c s L := by
    refine hs.invariant (I := fun s => ∃ L, Inv l n c s L) (fun s h0 => ⟨_, h0 ▸ inv_initial hfree⟩) fun s a s' hi hok hstep => ?_
    obtain ⟨L, hi⟩ := hi
    exact hi.step g hok hstep
  exact hi.safe

def contendedSchedule : List (ℕ × Cmd) :=
  let go (t k : ℕ) := List.replicate k (t, Cmd.go)
  let turns (k : ℕ) := (List.replicate k [(0, Cmd.go), (1, Cmd.go)]).flatten
  (0, .pop) :: (1, .pop) :: turns 7 ++ go 1 4 ++ (0, .push 0) :: (1, .push 21) :: turns 6 ++ go 1 2 ++ (0, .pop) :: go 0 7

theorem safe_of_fresh_contended : ∃ s,
    (system ⟨0, 84, 36⟩ (BufferList.created ⟨0, 84, 36⟩ 4 1 ⟨fun _ => 0⟩)).Reachable (Fresh ⟨0, 84, 36⟩) s ∧
    s.held 0 = [42] ∧ s.held 1 = [] ∧ BufferList.headLoad ⟨0, 84, 36⟩ s.mem = 63 ∧
    BufferList.tailLoad ⟨0, 84, 36⟩ s.mem = 21 ∧ Safe ⟨0, 84, 36⟩ 4 1 s := by
  set S := system ⟨0, 84, 36⟩ (BufferList.created ⟨0, 84, 36⟩ 4 1 ⟨fun _ => 0⟩)
  have hrun : ((S.restrict (Fresh ⟨0, 84, 36⟩)).runFrom
      ⟨BufferList.created ⟨0, 84, 36⟩ 4 1 ⟨fun _ => 0⟩, fun _ => .idle, fun _ => []⟩ contendedSchedule).map (fun s =>
      (s.held 0, s.held 1, BufferList.headLoad ⟨0, 84, 36⟩ s.mem, BufferList.tailLoad ⟨0, 84, 36⟩ s.mem)) =
      some ([42], [], 63, 21) := by
    decide +kernel
  obtain ⟨s, hs, he⟩ := Option.map_eq_some_iff.mp hrun
  simp only [Prod.mk.injEq] at he
  obtain ⟨hzero, hone, hhead, htail⟩ := he
  have hfresh : S.Reachable (Fresh ⟨0, 84, 36⟩) s := .of_restrict (.runFrom (fun _ _ _ => trivial) (.initial rfl) hs)
  exact ⟨s, hfresh, hzero, hone, hhead, htail,
    safe_of_fresh (show BufferList.create 4 1 ⟨fun _ => 0⟩ 120 0 = _ from rfl) (by decide) hfresh⟩

/-- Thread 0 reads the link 0 → 21 and stops before its compare-exchange; thread 1 takes 0 and 21,
gives 0 back, takes 42, gives it back and takes 63, so that head is 0 again. -/
def abaSchedule : List (ℕ × Cmd) :=
  let go (t k : ℕ) := List.replicate k (t, Cmd.go)
  (0, .pop) :: go 0 3 ++ (1, .pop) :: go 1 7 ++ (1, .pop) :: go 1 7 ++ (1, .push 0) :: go 1 6 ++
    (1, .pop) :: go 1 7 ++ (1, .push 42) :: go 1 6 ++ (1, .pop) :: go 1 7 ++ go 0 1

theorem aba_head_held :
    BufferList.create 4 1 ⟨fun _ => 0⟩ 120 0 =
      .ok (⟨0, 84, 36⟩, BufferList.created ⟨0, 84, 36⟩ 4 1 ⟨fun _ => 0⟩) ∧
    ∃ s, (system ⟨0, 84, 36⟩ (BufferList.created ⟨0, 84, 36⟩ 4 1 ⟨fun _ => 0⟩)).Run s ∧
      21 ∈ s.held 1 ∧ BufferList.headLoad ⟨0, 84, 36⟩ s.mem = 21 ∧ ¬ Safe ⟨0, 84, 36⟩ 4 1 s := by
  have hrun : ((system ⟨0, 84, 36⟩ (BufferList.created ⟨0, 84, 36⟩ 4 1 ⟨fun _ => 0⟩)).runFrom
      ⟨BufferList.created ⟨0, 84, 36⟩ 4 1 ⟨fun _ => 0⟩, fun _ => .idle, fun _ => []⟩ abaSchedule).map
      (fun s => (s.held 1, BufferList.headLoad ⟨0, 84, 36⟩ s.mem)) = some ([63, 21], 21) := by
    decide +kernel
  obtain ⟨s, hs, he⟩ := Option.map_eq_some_iff.mp hrun
  obtain ⟨hheld, hhead⟩ := Prod.mk.inj he
  have hmem : 21 ∈ s.held 1 := by simp [hheld]
  refine ⟨rfl, s, System.Reachable.runFrom (fun _ _ _ => trivial) (.initial rfl) hs, hmem, hhead,
    fun hsafe => ?_⟩
  exact hsafe.notFree 1 21 (by simp [owned, hmem]) (hhead ▸ .head)

end Shmipc.ConcurrentList
