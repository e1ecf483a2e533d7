import Shmipc.ConcurrentList

/-!
The invariant of the concurrent list: a chain from head to tail in which every link is either in
memory or owed by exactly one thread inside `push`, and every other slot in the hands of exactly
one thread.
-/

namespace Shmipc.ConcurrentList

open ByteMemory Transition

def pcSlots : Pc → List ℕ
  | .popClear slot | .popUse slot | .popCount slot | .pushLoad slot | .pushCas slot _ => [slot]
  | _ => []

/-- The slots in the hands of a thread: those it holds, the one that `pop` took and has not
returned yet, the one that `push` received and has not appended yet. -/
def owned (s : State) (t : ℕ) : List ℕ := pcSlots (s.pc t) ++ s.held t

def Pending (p : Pc) (a b : ℕ) : Prop := p = .pushLink a b ∨ p = .pushFlag a b

def Adjacent (L : List ℕ) (a b : ℕ) : Prop := ∃ L₁ L₂, L = L₁ ++ a :: b :: L₂

variable (l : BufferList) (n c : ℕ)

def Slot (r : ℕ) : Prop := IsSlot l n c (l.bufferRegion + r)

def flag (m : Mem) (r : ℕ) : Bool := BufferHeader.hasNext m (l.bufferRegion + r)

def next (m : Mem) (r : ℕ) : ℕ := BufferHeader.nextBufferOffset m (l.bufferRegion + r)

structure Inv (s : State) (L : List ℕ) : Prop where
  slot : ∀ r ∈ L, Slot l n c r
  nodup : L.Nodup
  head : L.head? = some (l.headLoad s.mem)
  tail : L.getLast? = some (l.tailLoad s.mem)
  mine : ∀ t, ∀ r ∈ owned s t, Slot l n c r ∧ r ∉ L
  distinct : ∀ t, (owned s t).Nodup
  apart : ∀ t t' r, r ∈ owned s t → r ∈ owned s t' → t = t'
  cover : ∀ r, Slot l n c r → r ∈ L ∨ ∃ t, r ∈ owned s t
  linked : ∀ a b, Adjacent L a b → flag l s.mem a = true → next l s.mem a = b
  unlinked : ∀ a b, Adjacent L a b → flag l s.mem a = false → ∃ t, Pending (s.pc t) a b
  pending : ∀ t a b, Pending (s.pc t) a b → Adjacent L a b ∧ flag l s.mem a = false
  stored : ∀ t a b, s.pc t = .pushFlag a b → next l s.mem a = b
  once : ∀ t t' a b b', Pending (s.pc t) a b → Pending (s.pc t') a b' → t = t'
  last : ∀ a, L.getLast? = some a → flag l s.mem a = false
  clean : ∀ t r, (s.pc t = .pushLoad r ∨ ∃ o, s.pc t = .pushCas r o) → flag l s.mem r = false
  updating : ∀ t a, s.pc t = .updateFlag a → a ∈ s.held t

theorem Adjacent.mem {L : List ℕ} {a b : ℕ} (h : Adjacent L a b) : a ∈ L ∧ b ∈ L := by
  obtain ⟨L₁, L₂, rfl⟩ := h
  simp

structure Private (s s' : State) (t : ℕ) : Prop where
  head : l.headLoad s'.mem = l.headLoad s.mem
  tail : l.tailLoad s'.mem = l.tailLoad s.mem
  cell : ∀ r, Slot l n c r → r ∉ owned s t →
    flag l s'.mem r = flag l s.mem r ∧ next l s'.mem r = next l s.mem r
  others : ∀ t', t' ≠ t → s'.pc t' = s.pc t' ∧ s'.held t' = s.held t'

variable {l n c} {s s' : State} {L : List ℕ} {t : ℕ}

theorem Inv.keep (hi : Inv l n c s L) (hp : Private l n c s s' t)
    (hown : (owned s' t).Perm (owned s t)) (hpend : ∀ a b, ¬ Pending (s.pc t) a b)
    (hpend' : ∀ a b, ¬ Pending (s'.pc t) a b)
    (hclean : ∀ r, (s'.pc t = .pushLoad r ∨ ∃ o, s'.pc t = .pushCas r o) → flag l s'.mem r = false)
    (hupd : ∀ a, s'.pc t = .updateFlag a → a ∈ s'.held t) : Inv l n c s' L := by
  have hsame : ∀ t', t' ≠ t → owned s' t' = owned s t' := by
    intro t' h
    rw [owned, owned, (hp.others t' h).1, (hp.others t' h).2]
  have hmem : ∀ t' r, r ∈ owned s' t' ↔ r ∈ owned s t' := by
    intro t' r
    by_cases h : t' = t
    · rw [h, hown.mem_iff]
    · rw [hsame t' h]
  have hchain : ∀ r ∈ L, flag l s'.mem r = flag l s.mem r ∧ next l s'.mem r = next l s.mem r :=
    fun r hr => hp.cell r (hi.slot r hr) (fun h => (hi.mine t r h).2 hr)
  have hother : ∀ t' a b, Pending (s'.pc t') a b → t' ≠ t ∧ Pending (s.pc t') a b := by
    intro t' a b h
    have hne : t' ≠ t := fun e => hpend' a b (e ▸ h)
    exact ⟨hne, (hp.others t' hne).1 ▸ h⟩
  refine ⟨hi.slot, hi.nodup, hp.head ▸ hi.head, hp.tail ▸ hi.tail, ?_, ?_, ?_, ?_, ?_, ?_, ?_, ?_, ?_,
    ?_, ?_, ?_⟩
  · intro t' r hr
    exact hi.mine t' r ((hmem t' r).mp hr)
  · intro t'
    by_cases h : t' = t
    · exact h ▸ hown.nodup_iff.mpr (hi.distinct t)
    · exact hsame t' h ▸ hi.distinct t'
  · intro t₁ t₂ r h₁ h₂
    exact hi.apart t₁ t₂ r ((hmem t₁ r).mp h₁) ((hmem t₂ r).mp h₂)
  · intro r hr
    rcases hi.cover r hr with h | ⟨t', h⟩
    · exact .inl h
    · exact .inr ⟨t', (hmem t' r).mpr h⟩
  · intro a b hab hf
    rw [(hchain a hab.mem.1).1] at hf
    rw [(hchain a hab.mem.1).2]
    exact hi.linked a b hab hf
  · intro a b hab hf
    rw [(hchain a hab.mem.1).1] at hf
    obtain ⟨t', ht'⟩ := hi.unlinked a b hab hf
    have hne : t' ≠ t := fun e => hpend a b (e ▸ ht')
    exact ⟨t', by rwa [(hp.others t' hne).1]⟩
  · intro t' a b h
    obtain ⟨hab, hf⟩ := hi.pending t' a b (hother t' a b h).2
    exact ⟨hab, by rwa [(hchain a hab.mem.1).1]⟩
  · intro t' a b h
    obtain ⟨hne, hold⟩ := hother t' a b (.inr h)
    rw [(hchain a (hi.pending t' a b hold).1.mem.1).2]
    exact hi.stored t' a b ((hp.others t' hne).1 ▸ h)
  · intro t₁ t₂ a b b' h₁ h₂
    exact hi.once t₁ t₂ a b b' (hother t₁ a b h₁).2 (hother t₂ a b' h₂).2
  · intro a ha
    rw [(hchain a (List.mem_of_getLast? ha)).1]
    exact hi.last a ha
  · intro t' r h
    by_cases ht : t' = t
    · subst ht
      exact hclean r h
    · rw [(hp.others t' ht).1] at h
      have hr : r ∈ owned s t' := by
        rcases h with h | ⟨o, h⟩ <;> simp [owned, pcSlots, h]
      have hnr : r ∉ owned s t := fun h' => ht (hi.apart t' t r hr h')
      rw [(hp.cell r (hi.mine t' r hr).1 hnr).1]
      exact hi.clean t' r h
  · intro t' a h
    by_cases ht : t' = t
    · subst ht
      exact hupd a h
    · rw [(hp.others t' ht).1] at h
      rw [(hp.others t' ht).2]
      exact hi.updating t' a h

def move (s : State) (t : ℕ) (m : Mem) (p : Pc) (held : List ℕ) : State :=
  ⟨m, Function.update s.pc t p, Function.update s.held t held⟩

section Move

variable (s t) (m : Mem) (p : Pc) (held : List ℕ)

@[simp] theorem move_mem : (move s t m p held).mem = m := rfl

@[simp] theorem move_pc : (move s t m p held).pc t = p := Function.update_self ..

@[simp] theorem move_held : (move s t m p held).held t = held := Function.update_self ..

theorem owned_move : owned (move s t m p held) t = pcSlots p ++ held := by simp [owned]

variable {s t}

theorem move_others {t' : ℕ} (h : t' ≠ t) :
    (move s t m p held).pc t' = s.pc t' ∧ (move s t m p held).held t' = s.held t' :=
  ⟨Function.update_of_ne h .., Function.update_of_ne h ..⟩

theorem owned_move_of_ne {t' : ℕ} (h : t' ≠ t) : owned (move s t m p held) t' = owned s t' := by
  rw [owned, owned, (move_others m p held h).1, (move_others m p held h).2]

theorem pending_move {t' a b : ℕ} (hp : ∀ a b, ¬ Pending p a b)
    (h : Pending ((move s t m p held).pc t') a b) : t' ≠ t ∧ Pending (s.pc t') a b := by
  have hne : t' ≠ t := by
    rintro rfl
    exact hp a b (by simpa using h)
  exact ⟨hne, (move_others m p held hne).1 ▸ h⟩

end Move

theorem adjacent_cons {x a b : ℕ} (h : Adjacent L a b) : Adjacent (x :: L) a b := by
  obtain ⟨L₁, L₂, rfl⟩ := h
  exact ⟨x :: L₁, L₂, rfl⟩

theorem adjacent_of_cons {x a b : ℕ} (h : Adjacent (x :: L) a b) (hne : a ≠ x) : Adjacent L a b := by
  obtain ⟨L₁, L₂, he⟩ := h
  cases L₁ with
  | nil => exact absurd (List.cons.inj he).1.symm hne
  | cons y L₁ => exact ⟨L₁, L₂, (List.cons.inj he).2⟩

theorem adjacent_concat {r a b : ℕ} (h : Adjacent (L ++ [r]) a b) :
    Adjacent L a b ∨ (L.getLast? = some a ∧ b = r) := by
  obtain ⟨L₁, L₂, he⟩ := h
  rcases List.eq_nil_or_concat' L₂ with rfl | ⟨L₂, x, rfl⟩
  · have hsplit : L ++ [r] = (L₁ ++ [a]) ++ [b] := by simpa using he
    obtain ⟨h1, h2⟩ := List.append_inj' hsplit rfl
    exact .inr ⟨by simp [h1], (List.singleton_inj.mp h2).symm⟩
  · have hsplit : L ++ [r] = (L₁ ++ a :: b :: L₂) ++ [x] := by simpa using he
    exact .inl ⟨L₁, L₂, (List.append_inj' hsplit rfl).1⟩

theorem adjacent_append {r a b : ℕ} (h : Adjacent L a b) : Adjacent (L ++ [r]) a b := by
  obtain ⟨L₁, L₂, rfl⟩ := h
  exact ⟨L₁, L₂ ++ [r], by simp⟩

theorem adjacent_last {r a : ℕ} (h : L.getLast? = some a) : Adjacent (L ++ [r]) a r := by
  obtain ⟨L', rfl⟩ := List.getLast?_eq_some_iff.mp h
  exact ⟨L', [], by simp⟩

theorem not_adjacent_last {a b : ℕ} (hn : L.Nodup) (h : L.getLast? = some a) : ¬ Adjacent L a b := by
  rintro ⟨L₁, L₂, rfl⟩
  have hmem : a ∈ b :: L₂ := by
    rw [List.getLast?_append_of_ne_nil _ (by simp), List.getLast?_cons_cons] at h
    exact List.mem_of_getLast? h
  exact (List.nodup_cons.mp (List.nodup_append.mp hn).2.1).1 hmem

theorem adjacent_unique {a b b' : ℕ} (hn : L.Nodup) (h : Adjacent L a b) (h' : Adjacent L a b') :
    b = b' := by
  induction L with
  | nil =>
    obtain ⟨L₁, L₂, he⟩ := h
    exact absurd he (by simp)
  | cons x L ih =>
    by_cases hax : a = x
    · subst hax
      have hrest : ∀ y, Adjacent (a :: L) a y → L.head? = some y := by
        rintro y ⟨_ | ⟨z, L₁⟩, L₂, he⟩
        · simp [(List.cons.inj he).2]
        · exact absurd (show a ∈ L by simp [(List.cons.inj he).2]) (List.nodup_cons.mp hn).1
      exact Option.some.inj ((hrest b h).symm.trans (hrest b' h'))
    · exact ih (List.nodup_cons.mp hn).2 (adjacent_of_cons h hax) (adjacent_of_cons h' hax)

end Shmipc.ConcurrentList
