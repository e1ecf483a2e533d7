import Shmipc.ConcurrentInv

namespace Shmipc.ConcurrentList

open ByteMemory Transition

variable {l : BufferList} {n c : ℕ} {s : State} {L : List ℕ} {t : ℕ} {m m' : Mem}

section Cells

theorem cell_congr {r : ℕ} (h : SameOn m m' (l.bufferRegion + r) (l.bufferRegion + r + 20)) :
    flag l m' r = flag l m r ∧ next l m' r = next l m r :=
  ⟨BufferHeader.hasNext_congr h, BufferHeader.nextBufferOffset_congr h⟩

theorem cell_of_word (h : ∀ lo hi, l.offsetInShm + 36 ≤ lo ∨ hi ≤ l.offsetInShm → SameOn m m' lo hi)
    (r : ℕ) : flag l m' r = flag l m r ∧ next l m' r = next l m r :=
  cell_congr (h _ _ (.inl (by rw [l.bufferRegion_eq]; omega)))

theorem cell_of_slot {q r : ℕ} (hq : Slot l n c q) (hr : Slot l n c r) (hne : r ≠ q)
    (h : ∀ lo hi, l.bufferRegion + q + 20 ≤ lo ∨ hi ≤ l.bufferRegion + q → SameOn m m' lo hi) :
    flag l m' r = flag l m r ∧ next l m' r = next l m r := by
  have hd := IsSlot.disjoint hq hr (fun e => hne (by omega))
  exact cell_congr (h _ _ (by omega))

theorem words_of_slot {q : ℕ}
    (h : ∀ lo hi, l.bufferRegion + q + 20 ≤ lo ∨ hi ≤ l.bufferRegion + q → SameOn m m' lo hi) :
    l.headLoad m' = l.headLoad m ∧ l.tailLoad m' = l.tailLoad m := by
  obtain ⟨-, -, h3, h4, -, -⟩ := l.words_congr (h _ _ (.inr (by rw [l.bufferRegion_eq]; omega)))
  exact ⟨h3, h4⟩

end Cells

section Owed

variable {p : Pc} {held : List ℕ} (hi : Inv l n c s L)
include hi

theorem Inv.clean_move (hp : ∀ r o, p ≠ .pushLoad r ∧ p ≠ .pushCas r o)
    (hcell : ∀ r, Slot l n c r → r ∉ L → flag l m r = flag l s.mem r) (t' r : ℕ)
    (h : (move s t m p held).pc t' = .pushLoad r ∨ ∃ o, (move s t m p held).pc t' = .pushCas r o) :
    flag l m r = false := by
  by_cases ht : t' = t
  · subst ht
    rw [move_pc] at h
    rcases h with h | ⟨o, h⟩
    · exact absurd h (hp r 0).1
    · exact absurd h (hp r o).2
  · rw [(move_others m p held ht).1] at h
    have hr : r ∈ owned s t' := by
      rcases h with h | ⟨o, h⟩ <;> simp [owned, pcSlots, h]
    rw [hcell r (hi.mine t' r hr).1 (hi.mine t' r hr).2]
    exact hi.clean t' r h

theorem Inv.updating_move (hp : ∀ a, p ≠ .updateFlag a) (t' a : ℕ)
    (h : (move s t m p held).pc t' = .updateFlag a) : a ∈ (move s t m p held).held t' := by
  by_cases ht : t' = t
  · subst ht
    exact absurd (by simpa using h) (hp a)
  · rw [(move_others m p held ht).1] at h
    rw [(move_others m p held ht).2]
    exact hi.updating t' a h

theorem Inv.once_move (hp : ∀ a b, ¬ Pending p a b) (t₁ t₂ a b b' : ℕ)
    (h₁ : Pending ((move s t m p held).pc t₁) a b) (h₂ : Pending ((move s t m p held).pc t₂) a b') :
    t₁ = t₂ :=
  hi.once t₁ t₂ a b b' (pending_move m p held hp h₁).2 (pending_move m p held hp h₂).2

theorem Inv.owners_move (t : ℕ) (m : Mem) (p : Pc) (held L' took : List ℕ) (hL : ∀ r, r ∈ L ↔ r ∈ took ∨ r ∈ L')
    (hdisj : ∀ r ∈ took, r ∉ L') (hnd : took.Nodup)
    (hown : (pcSlots p ++ held).Perm (took ++ owned s t)) :
    (∀ t', ∀ r ∈ owned (move s t m p held) t', Slot l n c r ∧ r ∉ L') ∧
    (∀ t', (owned (move s t m p held) t').Nodup) ∧
    (∀ t₁ t₂ r, r ∈ owned (move s t m p held) t₁ → r ∈ owned (move s t m p held) t₂ → t₁ = t₂) ∧
    (∀ r, Slot l n c r → r ∈ L' ∨ ∃ t', r ∈ owned (move s t m p held) t') := by
  have hmem : ∀ t' r, r ∈ owned (move s t m p held) t' ↔ (t' = t ∧ r ∈ took) ∨ r ∈ owned s t' := by
    intro t' r
    by_cases h : t' = t
    · subst h
      rw [owned_move, hown.mem_iff, List.mem_append]
      simp
    · rw [owned_move_of_ne m p held h]
      simp [h]
  refine ⟨?_, ?_, ?_, ?_⟩
  · intro t' r hr
    rcases (hmem t' r).mp hr with ⟨-, h⟩ | h
    · exact ⟨hi.slot r ((hL r).mpr (.inl h)), hdisj r h⟩
    · obtain ⟨h1, h2⟩ := hi.mine t' r h
      exact ⟨h1, fun h' => h2 ((hL r).mpr (.inr h'))⟩
  · intro t'
    by_cases h : t' = t
    · subst h
      rw [owned_move, hown.nodup_iff]
      exact List.nodup_append.mpr ⟨hnd, hi.distinct t', fun a ha b hb he =>
        (hi.mine t' b hb).2 ((hL b).mpr (.inl (he ▸ ha)))⟩
    · rw [owned_move_of_ne m p held h]
      exact hi.distinct t'
  · intro t₁ t₂ r h₁ h₂
    rcases (hmem t₁ r).mp h₁ with ⟨e₁, h₁⟩ | h₁ <;> rcases (hmem t₂ r).mp h₂ with ⟨e₂, h₂⟩ | h₂
    · rw [e₁, e₂]
    · exact absurd ((hL r).mpr (.inl h₁)) (hi.mine t₂ r h₂).2
    · exact absurd ((hL r).mpr (.inl h₂)) (hi.mine t₁ r h₁).2
    · exact hi.apart t₁ t₂ r h₁ h₂
  · intro r hr
    rcases hi.cover r hr with h | ⟨t', h⟩
    · rcases (hL r).mp h with h | h
      · exact .inr ⟨t, (hmem t r).mpr (.inl ⟨rfl, h⟩)⟩
      · exact .inl h
    · exact .inr ⟨t', (hmem t' r).mpr (.inr h)⟩

end Owed

theorem Inv.take {retry h nx : ℕ} (g : Geometry l n c) (hi : Inv l n c s L)
    (hpc : s.pc t = .popCas retry h nx) (hhead : l.headLoad s.mem = h)
    (hf : flag l s.mem h = true) (hn : next l s.mem h = nx) :
    ∃ L', Inv l n c (move s t (l.headStore s.mem nx) (.popClear h) (s.held t)) L' := by
  obtain ⟨b, L', rfl⟩ : ∃ b L', L = h :: b :: L' := by
    have hh := hi.head
    rw [hhead] at hh
    rcases L with _ | ⟨x, _ | ⟨b, L'⟩⟩
    · exact absurd hh (by simp)
    · obtain rfl := Option.some.inj hh
      exact absurd (hi.last x rfl) (by simp [hf])
    · obtain rfl := Option.some.inj hh
      exact ⟨b, L', rfl⟩
  obtain rfl : nx = b := hn ▸ hi.linked h b ⟨[], L', rfl⟩ hf
  have hnodup := List.nodup_cons.mp hi.nodup
  have hcell := cell_of_word (l := l) (fun lo hi h => l.sameOn_headStore s.mem nx h)
  have hpend : ∀ a b, ¬ Pending (.popClear h) a b := by rintro a b (e | e) <;> cases e
  have hlt : nx < 4294967296 := by
    have := g.arena.near _ (hi.slot nx (by simp))
    omega
  obtain ⟨o1, o2, o3, o4⟩ := hi.owners_move t (l.headStore s.mem nx) (.popClear h) (s.held t)
    (nx :: L') [h] (by simp) (by simpa using hnodup.1) (by simp) (by simp [owned, hpc, pcSlots])
  refine ⟨nx :: L', ⟨fun r hr => hi.slot r (List.mem_cons_of_mem _ hr), hnodup.2, ?_, ?_, o1, o2, o3, o4,
    ?_, ?_, ?_, ?_, hi.once_move hpend, ?_, hi.clean_move (by simp) (fun r _ _ => (hcell r).1),
    hi.updating_move (by simp)⟩⟩
  · simp [Nat.mod_eq_of_lt hlt]
  · simpa using hi.tail
  · intro a b hab hfa
    rw [move_mem, (hcell a).1] at hfa
    rw [move_mem, (hcell a).2]
    exact hi.linked a b (adjacent_cons hab) hfa
  · intro a b hab hfa
    rw [move_mem, (hcell a).1] at hfa
    obtain ⟨t', ht'⟩ := hi.unlinked a b (adjacent_cons hab) hfa
    have hne : t' ≠ t := by
      rintro rfl
      rcases ht' with e | e <;> simp [hpc] at e
    exact ⟨t', by rwa [(move_others _ _ _ hne).1]⟩
  · intro t' a b hp
    obtain ⟨hab, hfa⟩ := hi.pending t' a b (pending_move _ _ _ hpend hp).2
    -- the slot taken has its link, so no thread owes it
    have hne : a ≠ h := by
      rintro rfl
      simp [hf] at hfa
    exact ⟨adjacent_of_cons hab hne, by rwa [move_mem, (hcell a).1]⟩
  · intro t' a b hp
    obtain ⟨hne, -⟩ := pending_move _ _ _ hpend (Or.inr hp)
    rw [move_mem, (hcell a).2]
    exact hi.stored t' a b ((move_others _ _ _ hne).1 ▸ hp)
  · intro a ha
    rw [move_mem, (hcell a).1]
    exact hi.last a (by rwa [List.getLast?_cons_cons])

theorem Inv.append {r : ℕ} (g : Geometry l n c) (hi : Inv l n c s L)
    (hpc : s.pc t = .pushCas r (l.tailLoad s.mem)) :
    Inv l n c (move s t (l.tailStore s.mem r) (.pushLink (l.tailLoad s.mem) r) (s.held t)) (L ++ [r]) := by
  have hown : owned s t = r :: s.held t := by simp [owned, hpc, pcSlots]
  obtain ⟨hslot, hnL⟩ := hi.mine t r (by simp [hown])
  have hfr := hi.clean t r (.inr ⟨_, hpc⟩)
  have hcell := cell_of_word (l := l) (fun lo hi h => l.sameOn_tailStore s.mem r h)
  have hlt : r < 4294967296 := by
    have := g.arena.near _ hslot
    omega
  have hdist := List.nodup_cons.mp (hown ▸ hi.distinct t)
  have hmem : ∀ t' x, x ∈ owned (move s t (l.tailStore s.mem r) (.pushLink (l.tailLoad s.mem) r)
      (s.held t)) t' ↔ x ∈ owned s t' ∧ x ≠ r := by
    intro t' x
    by_cases h : t' = t
    · subst h
      rw [owned_move, hown]
      simp only [pcSlots, List.nil_append, List.mem_cons]
      exact ⟨fun hx => ⟨.inr hx, fun e => hdist.1 (e ▸ hx)⟩, fun hx => hx.1.resolve_left hx.2⟩
    · rw [owned_move_of_ne _ _ _ h]
      exact ⟨fun hx => ⟨hx, fun e => h (hi.apart t' t r (e ▸ hx) (by simp [hown]))⟩, fun hx => hx.1⟩
  have hpend : ∀ t' a b, Pending ((move s t (l.tailStore s.mem r) (.pushLink (l.tailLoad s.mem) r)
      (s.held t)).pc t') a b →
      (t' = t ∧ a = l.tailLoad s.mem ∧ b = r) ∨ (t' ≠ t ∧ Pending (s.pc t') a b) := by
    intro t' a b hp
    by_cases h : t' = t
    · subst h
      rw [move_pc] at hp
      rcases hp with e | e
      · injection e with e1 e2
        exact .inl ⟨rfl, e1.symm, e2.symm⟩
      · cases e
    · exact .inr ⟨h, (move_others _ _ _ h).1 ▸ hp⟩
  refine ⟨?_, ?_, ?_, ?_, ?_, ?_, ?_, ?_, ?_, ?_, ?_, ?_, ?_, ?_, hi.clean_move (by simp)
    (fun x _ _ => (hcell x).1), hi.updating_move (by simp)⟩
  · intro x hx
    rcases List.mem_append.mp hx with hx | hx
    · exact hi.slot x hx
    · exact List.mem_singleton.mp hx ▸ hslot
  · exact List.nodup_append.mpr ⟨hi.nodup, List.nodup_singleton r, fun a ha b hb e =>
      hnL (List.mem_singleton.mp hb ▸ e ▸ ha)⟩
  · have hne : L ≠ [] := by
      rintro rfl
      exact absurd hi.head (by simp)
    rw [move_mem, (l.tailStore_words s.mem r).2.2.1, List.head?_append_of_ne_nil _ hne]
    exact hi.head
  · simp [Nat.mod_eq_of_lt hlt]
  · intro t' x hx
    obtain ⟨hx, hne⟩ := (hmem t' x).mp hx
    obtain ⟨h1, h2⟩ := hi.mine t' x hx
    exact ⟨h1, by simp [h2, hne]⟩
  · intro t'
    by_cases h : t' = t
    · subst h
      rw [owned_move]
      exact hdist.2
    · rw [owned_move_of_ne _ _ _ h]
      exact hi.distinct t'
  · intro t₁ t₂ x h₁ h₂
    exact hi.apart t₁ t₂ x ((hmem t₁ x).mp h₁).1 ((hmem t₂ x).mp h₂).1
  · intro x hx
    by_cases hxr : x = r
    · exact .inl (by simp [hxr])
    · rcases hi.cover x hx with h | ⟨t', h⟩
      · exact .inl (by simp [h])
      · exact .inr ⟨t', (hmem t' x).mpr ⟨h, hxr⟩⟩
  · intro a b hab hfa
    rw [move_mem, (hcell a).1] at hfa
    rw [move_mem, (hcell a).2]
    rcases adjacent_concat hab with h | ⟨h, -⟩
    · exact hi.linked a b h hfa
    · exact absurd hfa (by simp [hi.last a h])
  · intro a b hab hfa
    rw [move_mem, (hcell a).1] at hfa
    rcases adjacent_concat hab with h | ⟨h, rfl⟩
    · obtain ⟨t', ht'⟩ := hi.unlinked a b h hfa
      have hne : t' ≠ t := by
        rintro rfl
        rcases ht' with e | e <;> simp [hpc] at e
      exact ⟨t', by rwa [(move_others _ _ _ hne).1]⟩
    · obtain rfl : l.tailLoad s.mem = a := Option.some.inj (hi.tail.symm.trans h)
      exact ⟨t, .inl (by simp)⟩
  · intro t' a b hp
    rw [move_mem, (hcell a).1]
    rcases hpend t' a b hp with ⟨-, rfl, rfl⟩ | ⟨-, hold⟩
    · exact ⟨adjacent_last hi.tail, hi.last _ hi.tail⟩
    · obtain ⟨hab, hfa⟩ := hi.pending t' a b hold
      exact ⟨adjacent_append hab, hfa⟩
  · intro t' a b hp
    have hne : t' ≠ t := by
      rintro rfl
      simp at hp
    rw [move_mem, (hcell a).2]
    exact hi.stored t' a b ((move_others _ _ _ hne).1 ▸ hp)
  · intro t₁ t₂ a b b' h₁ h₂
    -- the old tail had no successor, so no thread owed it a link
    have hfree : ∀ t' b, ¬ Pending (s.pc t') (l.tailLoad s.mem) b := fun t' b h =>
      not_adjacent_last hi.nodup hi.tail (hi.pending t' _ b h).1
    rcases hpend t₁ a b h₁ with ⟨e₁, ha₁, -⟩ | ⟨-, h₁⟩ <;>
      rcases hpend t₂ a b' h₂ with ⟨e₂, ha₂, -⟩ | ⟨-, h₂⟩
    · rw [e₁, e₂]
    · exact absurd (ha₁ ▸ h₂) (hfree t₂ b')
    · exact absurd (ha₂ ▸ h₁) (hfree t₁ b)
    · exact hi.once t₁ t₂ a b b' h₁ h₂
  · intro a ha
    rw [List.getLast?_concat, Option.some.injEq] at ha
    rw [move_mem, (hcell a).1]
    exact ha ▸ hfr

theorem Inv.link {a b : ℕ} {p : Pc} (hi : Inv l n c s L) (hpend : Pending (s.pc t) a b)
    (hmem : ∀ lo hi, l.bufferRegion + a + 20 ≤ lo ∨ hi ≤ l.bufferRegion + a → SameOn s.mem m lo hi)
    (hnext : next l m a = b)
    (hdone : (p = .pushFlag a b ∧ flag l m a = false) ∨ (p = .pushSize ∧ flag l m a = true)) :
    Inv l n c (move s t m p (s.held t)) L := by
  obtain ⟨hab, hfa⟩ := hi.pending t a b hpend
  have haL := hab.mem.1
  have hcell : ∀ r, Slot l n c r → r ≠ a → flag l m r = flag l s.mem r ∧ next l m r = next l s.mem r :=
    fun r hr hne => cell_of_slot (hi.slot a haL) hr hne hmem
  obtain ⟨hhead, htail⟩ := words_of_slot hmem
  have hown : owned s t = s.held t := by rcases hpend with e | e <;> simp [owned, e, pcSlots]
  have hown' : pcSlots p ++ s.held t = s.held t := by rcases hdone with ⟨rfl, -⟩ | ⟨rfl, -⟩ <;> rfl
  obtain ⟨o1, o2, o3, o4⟩ := hi.owners_move t m p (s.held t) L [] (by simp) (by simp) (by simp)
    (by rw [hown', hown, List.nil_append])
  have hothers : ∀ t' x y, t' ≠ t → Pending (s.pc t') x y → x ≠ a := by
    rintro t' x y hne h rfl
    exact hne (hi.once t' t x y b h hpend)
  have hmine : ∀ x y, Pending p x y → p = .pushFlag a b ∧ x = a ∧ y = b := by
    intro x y h
    rcases hdone with ⟨rfl, -⟩ | ⟨rfl, -⟩
    · rcases h with e | e
      · cases e
      · injection e with e1 e2
        exact ⟨rfl, e1.symm, e2.symm⟩
    · rcases h with e | e <;> cases e
  have hsplit : ∀ t' x y, Pending ((move s t m p (s.held t)).pc t') x y →
      (t' = t ∧ p = .pushFlag a b ∧ x = a ∧ y = b) ∨ (t' ≠ t ∧ Pending (s.pc t') x y) := by
    intro t' x y h
    by_cases ht : t' = t
    · subst ht
      exact .inl ⟨rfl, hmine x y (by simpa using h)⟩
    · exact .inr ⟨ht, (move_others _ _ _ ht).1 ▸ h⟩
  refine ⟨hi.slot, hi.nodup, hhead ▸ hi.head, htail ▸ hi.tail, o1, o2, o3, o4, ?_, ?_, ?_, ?_, ?_, ?_,
    hi.clean_move ?_ (fun r hr hrL => (hcell r hr (fun e => hrL (e ▸ haL))).1), hi.updating_move ?_⟩
  · intro x y hxy hfx
    by_cases hxa : x = a
    · subst hxa
      exact hnext.trans (adjacent_unique hi.nodup hab hxy)
    · obtain ⟨c1, c2⟩ := hcell x (hi.slot x hxy.mem.1) hxa
      rw [move_mem, c1] at hfx
      exact c2.trans (hi.linked x y hxy hfx)
  · intro x y hxy hfx
    by_cases hxa : x = a
    · subst hxa
      obtain rfl := adjacent_unique hi.nodup hab hxy
      rcases hdone with ⟨rfl, -⟩ | ⟨-, hf⟩
      · exact ⟨t, .inr (by simp)⟩
      · exact absurd hfx (by simp [hf])
    · rw [move_mem, (hcell x (hi.slot x hxy.mem.1) hxa).1] at hfx
      obtain ⟨t', ht'⟩ := hi.unlinked x y hxy hfx
      have hne : t' ≠ t := by
        rintro rfl
        rcases hpend with e | e <;> rcases ht' with e' | e' <;> simp [e, Ne.symm hxa] at e'
      exact ⟨t', by rwa [(move_others _ _ _ hne).1]⟩
  · intro t' x y h
    rcases hsplit t' x y h with ⟨-, rfl, rfl, rfl⟩ | ⟨hne, hold⟩
    · exact ⟨hab, by simpa using hdone⟩
    · obtain ⟨hxy, hfx⟩ := hi.pending t' x y hold
      exact ⟨hxy, (hcell x (hi.slot x hxy.mem.1) (hothers t' x y hne hold)).1.trans hfx⟩
  · intro t' x y h
    rcases hsplit t' x y (.inr h) with ⟨-, -, rfl, rfl⟩ | ⟨hne, hold⟩
    · exact hnext
    · have hxy := (hi.pending t' x y hold).1
      rw [(move_others _ _ _ hne).1] at h
      exact (hcell x (hi.slot x hxy.mem.1) (hothers t' x y hne hold)).2.trans (hi.stored t' x y h)
  · intro t₁ t₂ x y y' h₁ h₂
    rcases hsplit t₁ x y h₁ with ⟨e₁, -, hx₁, -⟩ | ⟨hne₁, h₁⟩ <;>
      rcases hsplit t₂ x y' h₂ with ⟨e₂, -, hx₂, -⟩ | ⟨hne₂, h₂⟩
    · rw [e₁, e₂]
    · exact absurd hx₁ (hothers t₂ x y' hne₂ h₂)
    · exact absurd hx₂ (hothers t₁ x y hne₁ h₁)
    · exact hi.once t₁ t₂ x y y' h₁ h₂
  · intro x hx
    have hxa : x ≠ a := by
      rintro rfl
      exact not_adjacent_last hi.nodup hx hab
    exact (hcell x (hi.slot x (List.mem_of_getLast? hx)) hxa).1.trans (hi.last x hx)
  · rcases hdone with ⟨rfl, -⟩ | ⟨rfl, -⟩ <;> simp
  · rcases hdone with ⟨rfl, -⟩ | ⟨rfl, -⟩ <;> simp

end Shmipc.ConcurrentList
