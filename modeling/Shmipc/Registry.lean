import Shmipc.Error
import Shmipc.Library.Transition

/-!
The process-wide registry of buffer managers. What belongs to one path is an `Entry`; its managers
are numbered in the order of their creation, and `region` is the descriptor that backs one. The
callers of `get_with_memfd`, `get_with_file` and `add_global_buffer_manager_ref_count` take one
locked section, one update of a reference count or one unlocked piece of work at a time.
-/

namespace Shmipc.Registry

open Transition

variable {Path ρ ι : Type}

structure Entry (ρ : Type) where
  registered : Option ℕ
  refCount : ℕ → ℤ
  region : ℕ → Option ρ
  unmapped : ℕ → Bool
  next : ℕ

def wrap32 (x : ℤ) : ℤ := x.bmod (2 ^ 32)

namespace Entry

def empty : Entry ρ where
  registered := none
  refCount _ := 0
  region _ := none
  unmapped _ := false
  next := 0

def addRef (e : Entry ρ) (m : ℕ) (delta : ℤ) : Entry ρ :=
  { e with refCount := Function.update e.refCount m (wrap32 (e.refCount m + delta)) }

def create (e : Entry ρ) (r : ρ) : Entry ρ where
  registered := e.registered
  refCount := Function.update e.refCount e.next 1
  region := Function.update e.region e.next (some r)
  unmapped := Function.update e.unmapped e.next false
  next := e.next + 1

-- an entry that is already there is kept
def emplace (e : Entry ρ) (m : ℕ) : Entry ρ := { e with registered := some (e.registered.getD m) }

def erase (e : Entry ρ) : Entry ρ := { e with registered := none }

def unmap (e : Entry ρ) (m : ℕ) : Entry ρ := { e with unmapped := Function.update e.unmapped m true }

def get (e : Entry ρ) (src : Result ρ) : Result ℕ × Entry ρ :=
  match e.registered with
  | some m => (.ok m, e.addRef m 1)
  | none =>
    match src with
    | .error err => (.error err, e)
    | .ok r => (.ok e.next, (e.create r).emplace e.next)

end Entry

/-- A caller: `creating` and `created` are inside a get, the last three inside a release. -/
inductive Caller
  | idle
  | creating
  | created (m : ℕ)
  | holding (m : ℕ)
  | erased (m : ℕ)
  | counted (m : ℕ)
  | unmapping (m : ℕ)
deriving DecidableEq

def Caller.names : Caller → Option ℕ
  | .created m | .holding m | .erased m | .counted m | .unmapping m => some m
  | .idle | .creating => none

def Caller.manager : Caller → Option ℕ
  | .created m | .holding m => some m
  | .idle | .creating | .erased _ | .counted _ | .unmapping _ => none

structure State (ρ ι : Type) extends Entry ρ where
  pc : ι → Caller

def State.set [DecidableEq ι] (s : State ρ ι) (i : ι) (e : Entry ρ) (c : Caller) : State ρ ι where
  toEntry := e
  pc := Function.update s.pc i c

-- `create none` is a creation or a mapping that fails
inductive Act (ρ : Type)
  | find
  | create (r : Option ρ)
  | insert
  | release
  | fetchAdd
  | unmap
  | reinsert

def step [DecidableEq ι] (s : State ρ ι) (i : ι) (a : Act ρ) : Option (State ρ ι) :=
  match a, s.pc i with
  | .find, .idle =>
    match s.registered with
    | some m => some (s.set i (s.addRef m 1) (.holding m))
    | none => some (s.set i s.toEntry .creating)
  | .create (some r), .creating => some (s.set i (s.toEntry.create r) (.created s.next))
  | .create none, .creating => some (s.set i s.toEntry .idle)
  | .insert, .created m => some (s.set i (s.emplace m) (.holding m))
  -- the manager that the caller holds plays no part: the path is looked up again
  | .release, .holding _ =>
    match s.registered with
    | some m => some (s.set i s.erase (.erased m))
    | none => some (s.set i s.toEntry .idle)
  | .fetchAdd, .erased m =>
    some (s.set i (s.addRef m (-1)) (if s.refCount m + -1 ≤ 0 then .unmapping m else .counted m))
  | .unmap, .unmapping m => some (s.set i (s.toEntry.unmap m) .idle)
  | .reinsert, .counted m => some (s.set i (s.emplace m) .idle)
  | _, _ => none

def initial : State ρ ι where
  toEntry := .empty
  pc _ := .idle

def system (Path ρ ι : Type) [DecidableEq Path] [DecidableEq ι] : System (Path → State ρ ι) (Path × ι × Act ρ) where
  initial s := s = fun _ => initial
  step s a := (step (s a.1) a.2.1 a.2.2).map (Function.update s a.1)

/-- A get inserts the manager it has made only while no one holds a manager of the path, and a release begins
only while the path is registered. -/
def Clear (s : State ρ ι) : Act ρ → Prop
  | .insert => ∀ j m, s.pc j ≠ .holding m
  | .release => s.registered ≠ none
  | _ => True

def Orderly (s : Path → State ρ ι) (a : Path × ι × Act ρ) : Prop := Clear (s a.1) a.2.2

def Caller.isHolding : Caller → Bool
  | .holding _ => true
  | .idle | .creating | .created _ | .erased _ | .counted _ | .unmapping _ => false

theorem Caller.isHolding_eq_false {c : Caller} : c.isHolding = false ↔ ∀ m, c ≠ .holding m := by
  cases c <;> simp [isHolding]

instance [Fintype ι] (s : State ρ ι) : (a : Act ρ) → Decidable (Clear s a)
  | .insert => decidable_of_iff (∀ j, (s.pc j).isHolding = false) (forall_congr' fun _ => Caller.isHolding_eq_false)
  | .release => inferInstanceAs (Decidable (_ ≠ _))
  | .find | .create _ | .fetchAdd | .unmap | .reinsert => .isTrue trivial

instance [Fintype ι] (s : Path → State ρ ι) (a : Path × ι × Act ρ) : Decidable (Orderly s a) :=
  inferInstanceAs (Decidable (Clear _ _))

theorem wrap32_of_small {x : ℤ} (h0 : 0 ≤ x) (h : x < 2 ^ 31) : wrap32 x = x := by
  rw [wrap32, Int.bmod_eq_of_le] <;> omega

@[simp] theorem State.set_toEntry [DecidableEq ι] (s : State ρ ι) (i : ι) (e : Entry ρ) (c : Caller) : (s.set i e c).toEntry = e := rfl

@[simp] theorem State.set_pc [DecidableEq ι] (s : State ρ ι) (i : ι) (e : Entry ρ) (c : Caller) :
    (s.set i e c).pc = Function.update s.pc i c := rfl

variable {s t : State ρ ι} {e : Entry ρ} {i j : ι} {c : Caller} {m k x y : ℕ} {a : Act ρ}

theorem holding_of_set [DecidableEq ι] (h : (s.set i e c).pc j = .holding k) : c = .holding k ∨ s.pc j = .holding k := by
  by_cases hj : j = i
  · rw [hj, State.set_pc, Function.update_self] at h
    exact .inl h
  · rw [State.set_pc, Function.update_of_ne hj] at h
    exact .inr h

-- the steps of a get, taken one after the other
theorem get_hit [DecidableEq ι] (hi : s.pc i = .idle) (hm : s.registered = some m) (src : Result ρ) :
    s.toEntry.get src = (.ok m, s.addRef m 1) ∧ step s i .find = some (s.set i (s.addRef m 1) (.holding m)) := by
  constructor
  · simp only [Entry.get, hm]
  · simp only [step, hi, hm]

theorem get_miss [DecidableEq ι] (hi : s.pc i = .idle) (hm : s.registered = none) (r : ρ) :
    ∃ t u v, step s i .find = some t ∧ step t i (.create (some r)) = some u ∧ step u i .insert = some v ∧
      s.toEntry.get (.ok r) = (.ok s.next, v.toEntry) ∧ v.pc i = .holding s.next := by
  let t := s.set i s.toEntry .creating
  let u := t.set i (t.toEntry.create r) (.created t.next)
  have ht : t.pc i = .creating := by simp [t]
  have hu : u.pc i = .created t.next := by simp [u]
  refine ⟨t, u, u.set i (u.emplace t.next) (.holding t.next), ?_, ?_, ?_, ?_, ?_⟩
  · simp only [step, hi, hm]
    rfl
  · simp only [step, ht]
    rfl
  · simp only [step, hu]
  · simp only [Entry.get, hm]
    rfl
  · simp [t]

inductive Obtains (s t : State ρ ι) (i : ι) (a : Act ρ) (m : ℕ) : Prop
  | found : a = .find → s.registered = some m → Obtains s t i a m
  | made (r : ρ) : a = .create (some r) → s.pc i = .creating → m < t.next → t.region m = some r → Obtains s t i a m
  | kept : s.pc i = .created m → Obtains s t i a m

structure Frame (s t : State ρ ι) (i : ι) (a : Act ρ) : Prop where
  others : ∀ j, j ≠ i → t.pc j = s.pc j
  region : ∀ k < s.next, t.region k = s.region k
  next_le : s.next ≤ t.next
  obtains : ∀ m, (t.pc i).manager = some m → Obtains s t i a m
  creating : t.pc i = .creating → a = .find

theorem Frame.set [DecidableEq ι] (hr : ∀ k < s.next, e.region k = s.region k) (hn : s.next ≤ e.next)
    (hm : ∀ m, c.manager = some m → Obtains s (s.set i e c) i a m) (hc : c = .creating → a = .find) :
    Frame s (s.set i e c) i a where
  others j hj := by rw [State.set_pc, Function.update_of_ne hj]
  region := hr
  next_le := hn
  obtains m h := hm m (by simpa using h)
  creating h := hc (by simpa using h)

theorem step_frame [DecidableEq ι] (hs : step s i a = some t) : Frame s t i a := by
  unfold step at hs
  split at hs
  · split at hs
    · next m hm =>
      obtain rfl := Option.some.inj hs
      refine .set (fun _ _ => rfl) le_rfl (fun k hk => .found rfl ?_) (by simp)
      simp only [Caller.manager, Option.some.injEq] at hk
      rw [hm, hk]
    · obtain rfl := Option.some.inj hs
      exact .set (fun _ _ => rfl) le_rfl (by simp [Caller.manager]) (fun _ => rfl)
  · next r hpc =>
    obtain rfl := Option.some.inj hs
    refine .set (fun k hk => ?_) (Nat.le_succ _) (fun m hm => ?_) (by simp)
    · simp [Entry.create, Function.update_of_ne hk.ne]
    · simp only [Caller.manager, Option.some.injEq] at hm
      subst hm
      exact .made r rfl hpc (Nat.lt_succ_self _) (by simp [Entry.create])
  · obtain rfl := Option.some.inj hs
    exact .set (fun _ _ => rfl) le_rfl (by simp [Caller.manager]) (by simp)
  · next m hpc =>
    obtain rfl := Option.some.inj hs
    refine .set (fun _ _ => rfl) le_rfl (fun k hk => .kept ?_) (by simp)
    simp only [Caller.manager, Option.some.injEq] at hk
    rw [hpc, hk]
  · split at hs
    · obtain rfl := Option.some.inj hs
      exact .set (fun _ _ => rfl) le_rfl (by simp [Caller.manager]) (by simp)
    · obtain rfl := Option.some.inj hs
      exact .set (fun _ _ => rfl) le_rfl (by simp [Caller.manager]) (by simp)
  · obtain rfl := Option.some.inj hs
    refine .set (fun _ _ => rfl) le_rfl (fun m hm => ?_) (fun hc => ?_)
    · split_ifs at hm <;> simp [Caller.manager] at hm
    · split_ifs at hc
  · obtain rfl := Option.some.inj hs
    exact .set (fun _ _ => rfl) le_rfl (by simp [Caller.manager]) (by simp)
  · obtain rfl := Option.some.inj hs
    exact .set (fun _ _ => rfl) le_rfl (by simp [Caller.manager]) (by simp)
  · cases hs

structure Bounded (s : State ρ ι) : Prop where
  registered : ∀ m, s.registered = some m → m < s.next
  named : ∀ j m, (s.pc j).names = some m → m < s.next

theorem bounded_initial : Bounded (initial : State ρ ι) := ⟨by rintro m ⟨⟩, by rintro j m ⟨⟩⟩

-- no entry, or the one that the caller had in hand
theorem Bounded.emplace (h : Bounded s) (hm : m < s.next) : ∀ k, (s.emplace m).registered = some k → k < s.next := by
  rintro k hk
  rw [← Option.some.inj hk]
  cases hr : s.registered with
  | none => exact hm
  | some n => exact h.registered n hr

section Bounded

variable [DecidableEq ι]

theorem Bounded.set (h : Bounded s) (hn : s.next ≤ e.next) (hr : ∀ m, e.registered = some m → m < e.next)
    (hc : ∀ m, c.names = some m → m < e.next) : Bounded (s.set i e c) := by
  refine ⟨hr, fun j m hm => ?_⟩
  rw [State.set_pc] at hm
  by_cases hj : j = i
  · rw [hj, Function.update_self] at hm
    exact hc m hm
  · rw [Function.update_of_ne hj] at hm
    exact (h.named j m hm).trans_le hn

theorem Bounded.step (h : Bounded s) (hs : step s i a = some t) : Bounded t := by
  have hi := h.named i
  unfold Registry.step at hs
  split at hs
  · split at hs
    · next m hm =>
      obtain rfl := Option.some.inj hs
      refine h.set le_rfl h.registered ?_
      rintro k ⟨⟩
      exact h.registered m hm
    · obtain rfl := Option.some.inj hs
      exact h.set le_rfl h.registered (by rintro m ⟨⟩)
  · obtain rfl := Option.some.inj hs
    refine h.set (Nat.le_succ _) (fun m hm => Nat.lt_succ_of_lt (h.registered m hm)) ?_
    rintro m ⟨⟩
    exact Nat.lt_succ_self _
  · obtain rfl := Option.some.inj hs
    exact h.set le_rfl h.registered (by rintro m ⟨⟩)
  · next m hpc =>
    obtain rfl := Option.some.inj hs
    rw [hpc] at hi
    exact h.set le_rfl (h.emplace (hi m rfl)) hi
  · split at hs
    · next m hm =>
      obtain rfl := Option.some.inj hs
      refine h.set le_rfl (by rintro k ⟨⟩) ?_
      rintro k ⟨⟩
      exact h.registered m hm
    · obtain rfl := Option.some.inj hs
      exact h.set le_rfl h.registered (by rintro m ⟨⟩)
  · next m hpc =>
    obtain rfl := Option.some.inj hs
    rw [hpc] at hi
    refine h.set le_rfl h.registered fun k hk => ?_
    split_ifs at hk <;> exact hi k hk
  · obtain rfl := Option.some.inj hs
    exact h.set le_rfl h.registered (by rintro m ⟨⟩)
  · next m hpc =>
    obtain rfl := Option.some.inj hs
    rw [hpc] at hi
    exact h.set le_rfl (h.emplace (hi m rfl)) (by rintro m ⟨⟩)
  · cases hs

end Bounded

variable [Fintype ι]

def holders (pc : ι → Caller) (m : ℕ) : Finset ι := Finset.univ.filter fun j => pc j = .holding m

def Owes (s : State ρ ι) (m : ℕ) : Caller → Prop
  | .created _ => (holders s.pc m).card = 0 ∧ s.refCount m = 1 ∧ s.unmapped m = false
  | .erased _ => s.refCount m = (holders s.pc m).card + 1 ∧ s.unmapped m = false
  | .counted _ => s.refCount m = (holders s.pc m).card ∧ 0 < (holders s.pc m).card ∧ s.unmapped m = false
  | .unmapping _ => (holders s.pc m).card = 0
  | .idle | .creating | .holding _ => False

/-- A manager is unmapped, or it is registered and its references are counted, or one call has it in hand. -/
inductive Fate (s : State ρ ι) (m : ℕ) : Prop
  | gone : (∀ i, (s.pc i).names ≠ some m) → s.registered ≠ some m → s.unmapped m = true → Fate s m
  | registered : s.registered = some m → (∀ i, (s.pc i).names = some m → s.pc i = .holding m) →
      s.refCount m = (holders s.pc m).card → 0 < (holders s.pc m).card → s.unmapped m = false → Fate s m
  | called (j : ι) : (s.pc j).names = some m → Owes s m (s.pc j) →
      (∀ i, i ≠ j → (s.pc i).names = some m → s.pc i = .holding m) → s.registered ≠ some m → Fate s m

structure Sound (s : State ρ ι) : Prop extends Bounded s where
  fate : ∀ m < s.next, Fate s m
  same : ∀ i j m k, s.pc i = .holding m → s.pc j = .holding k → m = k

theorem mem_holders {pc : ι → Caller} : j ∈ holders pc m ↔ pc j = .holding m := by
  simp [holders]

theorem exists_holder (h : 0 < (holders s.pc m).card) : ∃ j, s.pc j = .holding m := by
  obtain ⟨j, hj⟩ := Finset.card_pos.mp h
  exact ⟨j, mem_holders.mp hj⟩

theorem not_holding (h : (holders s.pc m).card = 0) (j : ι) : s.pc j ≠ .holding m := by
  intro hj
  have hmem : j ∈ holders s.pc m := mem_holders.mpr hj
  rw [Finset.card_eq_zero.mp h] at hmem
  exact absurd hmem (Finset.notMem_empty j)

theorem card_holders_eq_zero (h : ∀ j, s.pc j ≠ .holding m) : (holders s.pc m).card = 0 := by
  rw [Finset.card_eq_zero, holders, Finset.filter_eq_empty_iff]
  exact fun j _ => h j

theorem card_holders_lt (hi : s.pc i ≠ .holding m) : (holders s.pc m).card < Fintype.card ι := by
  rw [← Finset.card_univ]
  exact Finset.card_lt_card (Finset.filter_ssubset.mpr ⟨i, Finset.mem_univ i, hi⟩)

theorem Fate.held (h : Fate s m) (hj : s.pc j = .holding m) : s.unmapped m = false := by
  have hcard : (holders s.pc m).card ≠ 0 := fun h0 => not_holding h0 j hj
  cases h with
  | gone hnone => exact absurd (by rw [hj]; rfl) (hnone j)
  | registered _ _ _ _ hmapped => exact hmapped
  | called i hi howes =>
    cases hc : s.pc i <;> rw [hc] at howes
    · exact howes.elim
    · exact howes.elim
    · exact howes.2.2
    · exact howes.elim
    · exact howes.2
    · exact howes.2.2
    · exact absurd howes hcard

theorem Fate.of_call (h : Fate s m) (hi : (s.pc i).names = some m) (hne : s.pc i ≠ .holding m) :
    Owes s m (s.pc i) ∧ (∀ j, j ≠ i → (s.pc j).names = some m → s.pc j = .holding m) ∧ s.registered ≠ some m := by
  cases h with
  | gone hnone => exact absurd hi (hnone i)
  | registered _ hall => exact absurd (hall i hi) hne
  | called j hj howes hothers hreg =>
    by_cases hij : i = j
    · subst hij
      exact ⟨howes, hothers, hreg⟩
    · exact absurd (hothers i hij hi) hne

theorem Fate.of_registered (h : Fate s m) (hm : s.registered = some m) :
    (∀ i, (s.pc i).names = some m → s.pc i = .holding m) ∧ s.refCount m = (holders s.pc m).card ∧
      0 < (holders s.pc m).card ∧ s.unmapped m = false := by
  cases h with
  | gone _ hreg => exact absurd hm hreg
  | registered _ hall hcount hpos hmapped => exact ⟨hall, hcount, hpos, hmapped⟩
  | called _ _ _ _ hreg => exact absurd hm hreg

theorem Sound.registered_held (h : Sound s) (hm : s.registered = some m) : ∃ j, s.pc j = .holding m :=
  exists_holder ((h.fate m (h.toBounded.registered m hm)).of_registered hm).2.2.1

theorem Sound.of_call (h : Sound s) (hi : (s.pc i).names = some m) (hne : s.pc i ≠ .holding m) :
    Owes s m (s.pc i) ∧ (∀ j, j ≠ i → (s.pc j).names = some m → s.pc j = .holding m) ∧ s.registered ≠ some m :=
  (h.fate m (h.named i m hi)).of_call hi hne

theorem sound_initial : Sound (initial : State ρ ι) where
  __ := bounded_initial
  fate m hm := absurd hm (Nat.not_lt_zero m)
  same i j m k hi := by cases hi

variable [DecidableEq ι]

theorem card_holders_update (pc : ι → Caller) (i : ι) (c : Caller) (m : ℕ) :
    (holders (Function.update pc i c) m).card + (if pc i = .holding m then 1 else 0) =
      (holders pc m).card + (if c = .holding m then 1 else 0) := by
  have hrest : ∑ j ∈ Finset.univ.erase i, (if Function.update pc i c j = .holding m then 1 else 0) =
      ∑ j ∈ Finset.univ.erase i, (if pc j = .holding m then 1 else 0) := by
    apply Finset.sum_congr rfl
    intro j hj
    rw [Function.update_of_ne (Finset.ne_of_mem_erase hj)]
  simp only [holders, Finset.card_filter]
  rw [← Finset.add_sum_erase _ _ (Finset.mem_univ i), ← Finset.add_sum_erase _ (fun j => ite (pc j = .holding m) 1 0)
    (Finset.mem_univ i), hrest, Function.update_self]
  omega

theorem card_stay (hi : s.pc i ≠ .holding m) (hc : c ≠ .holding m) :
    (holders (Function.update s.pc i c) m).card = (holders s.pc m).card := by
  simpa [hi, hc] using card_holders_update s.pc i c m

theorem card_take (hi : s.pc i ≠ .holding m) :
    (holders (Function.update s.pc i (.holding m)) m).card = (holders s.pc m).card + 1 := by
  simpa [hi] using card_holders_update s.pc i (.holding m) m

theorem card_drop (hi : s.pc i = .holding m) (hc : c ≠ .holding m) :
    (holders (Function.update s.pc i c) m).card + 1 = (holders s.pc m).card := by
  simpa [hi, hc] using card_holders_update s.pc i c m

theorem Fate.set (h : Fate s m) (hi : (s.pc i).names ≠ some m) (hc : c.names ≠ some m)
    (hreg : e.registered = some m ↔ s.registered = some m) (hcount : e.refCount m = s.refCount m)
    (hun : e.unmapped m = s.unmapped m) : Fate (s.set i e c) m := by
  have hcard : (holders (Function.update s.pc i c) m).card = (holders s.pc m).card := by
    apply card_stay
    · intro h
      exact hi (by rw [h]; rfl)
    · rintro rfl
      exact hc rfl
  have hall {j : ι} (hj : ((s.set i e c).pc j).names = some m) : j ≠ i ∧ (s.set i e c).pc j = s.pc j := by
    by_cases hji : j = i
    · rw [hji, State.set_pc, Function.update_self] at hj
      exact absurd hj hc
    · exact ⟨hji, Function.update_of_ne hji _ _⟩
  cases h with
  | gone hnone hr hu =>
    refine .gone (fun j hj => ?_) (mt hreg.mp hr) (hun.trans hu)
    rw [(hall hj).2] at hj
    exact hnone j hj
  | registered hr hholds hn hpos hu =>
    refine .registered (hreg.mpr hr) (fun j hj => ?_) ?_ ?_ (hun.trans hu)
    · have hpc := (hall hj).2
      rw [hpc] at hj ⊢
      exact hholds j hj
    · rw [State.set_pc, hcard]
      exact hcount.trans hn
    · rwa [State.set_pc, hcard]
  | called k hk howes hothers hr =>
    have hki : k ≠ i := by
      rintro rfl
      exact hi hk
    have hpc : (s.set i e c).pc k = s.pc k := Function.update_of_ne hki _ _
    refine .called k (by rwa [hpc]) ?_ (fun j hj hname => ?_) (mt hreg.mp hr)
    · rw [hpc]
      revert howes
      cases s.pc k <;> simp only [Owes, State.set_toEntry, State.set_pc, hcard, hcount, hun] <;> exact id
    · have hpc := (hall hname).2
      rw [hpc] at hname ⊢
      exact hothers j hj hname

theorem Sound.set (h : Sound s) (m : Option ℕ) (hb : Bounded (s.set i e c))
    (hi : ∀ k, m ≠ some k → (s.pc i).names ≠ some k) (hc : ∀ k, m ≠ some k → c.names ≠ some k)
    (hreg : ∀ k, m ≠ some k → (e.registered = some k ↔ s.registered = some k))
    (hrest : ∀ k, m ≠ some k → (k < e.next → k < s.next) ∧ e.refCount k = s.refCount k ∧ e.unmapped k = s.unmapped k)
    (hm : ∀ k, m = some k → Fate (s.set i e c) k)
    (hsame : ∀ k, c = .holding k → ∀ j n, s.pc j = .holding n → n = k) : Sound (s.set i e c) where
  __ := hb
  fate k hk := by
    by_cases hmk : m = some k
    · exact hm k hmk
    · obtain ⟨hlt, hcount, hun⟩ := hrest k hmk
      exact (h.fate k (hlt hk)).set (hi k hmk) (hc k hmk) (hreg k hmk) hcount hun
  same a b n k ha hb := by
    rcases holding_of_set ha with ha | ha
    · rcases holding_of_set hb with hb | hb
      · cases ha.symm.trans hb
        rfl
      · exact (hsame n ha b k hb).symm
    · rcases holding_of_set hb with hb | hb
      · exact hsame k hb a n ha
      · exact h.same a b n k ha hb

-- a caller that has no manager in hand, before the step and after it
theorem Sound.pass (h : Sound s) (hb : Bounded (s.set i s.toEntry c)) (hi : (s.pc i).names = none) (hc : c.names = none) :
    Sound (s.set i s.toEntry c) := by
  refine h.set none hb ?_ ?_ (fun _ _ => Iff.rfl) (fun _ _ => ⟨id, rfl, rfl⟩) (by rintro k ⟨⟩) ?_
  · rw [hi]
    exact fun _ h => h
  · rw [hc]
    exact fun _ h => h
  · rintro k rfl
    cases hc

theorem Sound.find (hn : Fintype.card ι < 2 ^ 31) (h : Sound s) (hs : step s i .find = some t) : Sound t := by
  have hb := h.toBounded.step hs
  cases hi : s.pc i <;> simp only [Registry.step, hi, reduceCtorEq] at hs
  cases hm : s.registered with
  | none =>
    simp only [hm, Option.some.injEq] at hs
    subst hs
    exact h.pass hb (by rw [hi]; rfl) rfl
  | some m =>
    simp only [hm, Option.some.injEq] at hs
    subst hs
    obtain ⟨hall, hcount, hpos, hmapped⟩ := (h.fate m (h.toBounded.registered m hm)).of_registered hm
    have hidle : s.pc i ≠ .holding m := by rw [hi]; rintro ⟨⟩
    have hcard := card_take hidle
    have hlt := card_holders_lt hidle
    obtain ⟨l, hl⟩ := exists_holder hpos
    refine h.set (some m) hb (fun k _ => by rw [hi]; rintro ⟨⟩) (fun k hk => hk) (fun _ _ => Iff.rfl) ?_ ?_ ?_
    · intro k hk
      have hne : k ≠ m := fun he => hk (congrArg some he.symm)
      exact ⟨id, Function.update_of_ne hne _ _, rfl⟩
    · rintro k ⟨⟩
      refine .registered hm (fun j hj => ?_) ?_ ?_ hmapped
      · by_cases hji : j = i
        · rw [hji, State.set_pc, Function.update_self]
        · rw [State.set_pc, Function.update_of_ne hji] at hj ⊢
          exact hall j hj
      · have hadd : (s.addRef m 1).refCount m = wrap32 ((holders s.pc m).card + 1) := by
          simp [Entry.addRef, hcount]
        rw [State.set_toEntry, State.set_pc, hcard, hadd, wrap32_of_small (by omega) (by omega)]
        rfl
      · rw [State.set_pc, hcard]
        exact Nat.succ_pos _
    · rintro k ⟨⟩ j n hj
      exact h.same j l n m hj hl

theorem Sound.create {r : Option ρ} (h : Sound s) (hs : step s i (.create r) = some t) : Sound t := by
  have hb := h.toBounded.step hs
  cases hi : s.pc i with
  | creating =>
    cases r with
    | none =>
      simp only [Registry.step, hi, Option.some.injEq] at hs
      subst hs
      exact h.pass hb (by rw [hi]; rfl) rfl
    | some r =>
      simp only [Registry.step, hi, Option.some.injEq] at hs
      subst hs
      have hnew : ∀ j, (s.pc j).names ≠ some s.next := fun j hj => absurd (h.named j _ hj) (lt_irrefl _)
      refine h.set (some s.next) hb (fun k _ => by rw [hi]; rintro ⟨⟩) (fun k hk => hk) (fun _ _ => Iff.rfl) ?_ ?_ (by rintro k ⟨⟩)
      · intro k hk
        have hne : k ≠ s.next := fun he => hk (congrArg some he.symm)
        refine ⟨fun hlt => lt_of_le_of_ne (Nat.lt_succ_iff.mp hlt) hne, ?_, ?_⟩
        · exact Function.update_of_ne hne _ _
        · exact Function.update_of_ne hne _ _
      · rintro k ⟨⟩
        have hcard : (holders (Function.update s.pc i (.created s.next)) s.next).card = 0 := by
          rw [card_stay (by rw [hi]; rintro ⟨⟩) (by rintro ⟨⟩)]
          exact card_holders_eq_zero fun j hj => hnew j (by rw [hj]; rfl)
        refine .called i (by simp [Caller.names]) ?_ (fun j hj hname => ?_) fun hreg => ?_
        · rw [State.set_pc, Function.update_self]
          exact ⟨hcard, Function.update_self .., Function.update_self ..⟩
        · rw [State.set_pc, Function.update_of_ne hj] at hname
          exact absurd hname (hnew j)
        · exact absurd (h.toBounded.registered _ hreg) (lt_irrefl _)
  | _ => cases r <;> simp [Registry.step, hi] at hs

theorem Sound.emplace (h : Sound s) (hb : Bounded (s.set i (s.emplace m) c)) (hi : (s.pc i).names = some m)
    (hnone : s.registered = none) (hc : c = .idle ∨ c = .holding m)
    (hothers : ∀ j, j ≠ i → (s.pc j).names = some m → s.pc j = .holding m)
    (hcount : s.refCount m = (holders (Function.update s.pc i c) m).card)
    (hpos : 0 < (holders (Function.update s.pc i c) m).card) (hmapped : s.unmapped m = false)
    (hsame : ∀ k, c = .holding k → ∀ j n, s.pc j = .holding n → n = k) : Sound (s.set i (s.emplace m) c) := by
  have hreg : (s.emplace m).registered = some m := by rw [Entry.emplace, hnone]; rfl
  refine h.set (some m) hb (fun k hk => hi ▸ hk) (fun k hk => ?_) (fun k hk => ?_) (fun _ _ => ⟨id, rfl, rfl⟩) ?_ hsame
  · rcases hc with rfl | rfl
    · rintro ⟨⟩
    · exact hk
  · rw [hreg, hnone]
    exact ⟨fun he => absurd he hk, by rintro ⟨⟩⟩
  · rintro k ⟨⟩
    refine .registered hreg (fun j hj => ?_) hcount hpos hmapped
    by_cases hji : j = i
    · rw [hji, State.set_pc, Function.update_self] at hj ⊢
      rcases hc with rfl | rfl
      · cases hj
      · rfl
    · rw [State.set_pc, Function.update_of_ne hji] at hj ⊢
      exact hothers j hji hj

theorem Sound.insert (h : Sound s) (hfree : ∀ j m, s.pc j ≠ .holding m) (hs : step s i .insert = some t) : Sound t := by
  have hb := h.toBounded.step hs
  cases hi : s.pc i <;> simp only [Registry.step, hi, reduceCtorEq, Option.some.injEq] at hs
  next m =>
    subst hs
    have hcall := h.of_call (i := i) (m := m) (by rw [hi]; rfl) (hfree i m)
    rw [hi] at hcall
    obtain ⟨⟨hzero, hcount, hmapped⟩, hothers, -⟩ := hcall
    have hnone : s.registered = none := by
      cases hr : s.registered with
      | none => rfl
      | some n =>
        obtain ⟨j, hj⟩ := h.registered_held hr
        exact absurd hj (hfree j n)
    have hcard : (holders (Function.update s.pc i (.holding m)) m).card = 1 := by rw [card_take (hfree i m), hzero]
    refine h.emplace hb (by rw [hi]; rfl) hnone (.inr rfl) hothers ?_ ?_ hmapped fun _ _ j n hj => absurd hj (hfree j n)
    · rw [hcount, hcard]
      rfl
    · rw [hcard]
      exact Nat.one_pos

theorem Sound.release (h : Sound s) (hreg : s.registered ≠ none) (hs : step s i .release = some t) : Sound t := by
  have hb := h.toBounded.step hs
  cases hi : s.pc i <;> simp only [Registry.step, hi, reduceCtorEq] at hs
  next held =>
    cases hm : s.registered with
    | none => exact absurd hm hreg
    | some m =>
      simp only [hm, Option.some.injEq] at hs
      subst hs
      obtain ⟨hall, hcount, -, hmapped⟩ := (h.fate m (h.toBounded.registered m hm)).of_registered hm
      obtain ⟨l, hl⟩ := h.registered_held hm
      obtain rfl := h.same i l held m hi hl
      have hcard := card_drop (c := .erased held) hi (by rintro ⟨⟩)
      refine h.set (some held) hb (fun k hk => hi ▸ hk) (fun k hk => hk) (fun k hk => ?_) (fun _ _ => ⟨id, rfl, rfl⟩) ?_
        (by rintro k ⟨⟩)
      · rw [hm]
        exact ⟨by rintro ⟨⟩, fun he => absurd he hk⟩
      · rintro k ⟨⟩
        refine .called i (by simp [Caller.names]) ?_ (fun j hj hname => ?_) (by rintro ⟨⟩)
        · rw [State.set_pc, Function.update_self]
          refine ⟨?_, hmapped⟩
          change s.refCount held = ((holders (Function.update s.pc i (.erased held)) held).card : ℤ) + 1
          rw [hcount, ← hcard]
          exact Nat.cast_succ _
        · rw [State.set_pc, Function.update_of_ne hj] at hname ⊢
          exact hall j hname

theorem Sound.fetchAdd (hn : Fintype.card ι < 2 ^ 31) (h : Sound s) (hs : step s i .fetchAdd = some t) : Sound t := by
  have hb := h.toBounded.step hs
  cases hi : s.pc i <;> simp only [Registry.step, hi, reduceCtorEq, Option.some.injEq] at hs
  next m =>
    subst hs
    have hout : s.pc i ≠ .holding m := by rw [hi]; rintro ⟨⟩
    have hcall := h.of_call (i := i) (m := m) (by rw [hi]; rfl) hout
    rw [hi] at hcall
    obtain ⟨⟨hcount, hmapped⟩, hothers, hreg⟩ := hcall
    have hlt := card_holders_lt hout
    -- the callers that have the manager in hand are the same before and after
    have hset (c : Caller) (hname : c.names = some m) (hc : c ≠ .holding m)
        (howes : Owes (s.set i (s.addRef m (-1)) c) m c) (hb : Bounded (s.set i (s.addRef m (-1)) c)) :
        Sound (s.set i (s.addRef m (-1)) c) := by
      refine h.set (some m) hb (fun k hk => hi ▸ hk) (fun k hk => hname ▸ hk) (fun _ _ => Iff.rfl) ?_ ?_ ?_
      · intro k hk
        have hne : k ≠ m := fun he => hk (congrArg some he.symm)
        exact ⟨id, Function.update_of_ne hne _ _, rfl⟩
      · rintro k ⟨⟩
        refine .called i (by simpa using hname) (by simpa using howes) (fun j hj hname => ?_) hreg
        rw [State.set_pc, Function.update_of_ne hj] at hname ⊢
        exact hothers j hj hname
      · rintro k rfl
        exact absurd (congrArg _ (Option.some.inj hname)) hc
    split_ifs at hb ⊢ with hle
    · refine hset _ rfl (by rintro ⟨⟩) ?_ hb
      change (holders (Function.update s.pc i (.unmapping m)) m).card = 0
      rw [card_stay hout (by rintro ⟨⟩)]
      omega
    · refine hset _ rfl (by rintro ⟨⟩) ?_ hb
      have hcard := card_stay (c := .counted m) hout (by rintro ⟨⟩)
      have hsub : (s.addRef m (-1)).refCount m = (holders s.pc m).card := by
        simp only [Entry.addRef, Function.update_self, hcount]
        rw [add_neg_cancel_right, wrap32_of_small (by omega) (by omega)]
      refine ⟨?_, ?_, hmapped⟩
      · rw [State.set_toEntry, State.set_pc, hcard, hsub]
      · rw [State.set_pc, hcard]
        omega

theorem Sound.unmap (h : Sound s) (hs : step s i .unmap = some t) : Sound t := by
  have hb := h.toBounded.step hs
  cases hi : s.pc i <;> simp only [Registry.step, hi, reduceCtorEq, Option.some.injEq] at hs
  next m =>
    subst hs
    have hcall := h.of_call (i := i) (m := m) (by rw [hi]; rfl) (by rw [hi]; rintro ⟨⟩)
    rw [hi] at hcall
    obtain ⟨hzero, hothers, hreg⟩ := hcall
    refine h.set (some m) hb (fun k hk => hi ▸ hk) (fun k _ => by rintro ⟨⟩) (fun _ _ => Iff.rfl) ?_ ?_ (by rintro k ⟨⟩)
    · intro k hk
      have hne : k ≠ m := fun he => hk (congrArg some he.symm)
      exact ⟨id, rfl, Function.update_of_ne hne _ _⟩
    · rintro k ⟨⟩
      refine .gone (fun j hj => ?_) hreg (Function.update_self ..)
      by_cases hji : j = i
      · rw [hji, State.set_pc, Function.update_self] at hj
        cases hj
      · rw [State.set_pc, Function.update_of_ne hji] at hj
        exact not_holding hzero j (hothers j hji hj)

theorem Sound.reinsert (h : Sound s) (hs : step s i .reinsert = some t) : Sound t := by
  have hb := h.toBounded.step hs
  cases hi : s.pc i <;> simp only [Registry.step, hi, reduceCtorEq, Option.some.injEq] at hs
  next m =>
    subst hs
    have hout : s.pc i ≠ .holding m := by rw [hi]; rintro ⟨⟩
    have hcall := h.of_call (i := i) (m := m) (by rw [hi]; rfl) hout
    rw [hi] at hcall
    obtain ⟨⟨hcount, hpos, hmapped⟩, hothers, hreg⟩ := hcall
    have hcard := card_stay (c := .idle) hout (by rintro ⟨⟩)
    -- another entry would have a holder of its own
    have hnone : s.registered = none := by
      cases hr : s.registered with
      | none => rfl
      | some n =>
        obtain ⟨j, hj⟩ := h.registered_held hr
        obtain ⟨l, hl⟩ := exists_holder hpos
        rw [h.same j l n m hj hl] at hr
        exact absurd hr hreg
    refine h.emplace hb (by rw [hi]; rfl) hnone (.inl rfl) hothers ?_ ?_ hmapped (by rintro k ⟨⟩)
    · rw [hcard, hcount]
    · rwa [hcard]

theorem Sound.step (hn : Fintype.card ι < 2 ^ 31) (h : Sound s) (ha : Clear s a) (hs : step s i a = some t) :
    Sound t := by
  cases a with
  | find => exact h.find hn hs
  | create r => exact h.create hs
  | insert => exact h.insert ha hs
  | release => exact h.release ha hs
  | fetchAdd => exact h.fetchAdd hn hs
  | unmap => exact h.unmap hs
  | reinsert => exact h.reinsert hs

theorem sound_of_reachable [DecidableEq Path] (hn : Fintype.card ι < 2 ^ 31) {s : Path → State ρ ι}
    (h : (system Path ρ ι).Reachable Orderly s) (p : Path) : Sound (s p) := by
  induction h with
  | initial h0 =>
    rw [h0]
    exact sound_initial
  | @next s t a _ hok hstep ih =>
    simp only [system, Option.map_eq_some_iff] at hstep
    obtain ⟨u, hu, rfl⟩ := hstep
    by_cases hp : p = a.1
    · rw [hp, Function.update_self]
      rw [hp] at ih
      exact ih.step hn hok hu
    · rw [Function.update_of_ne hp]
      exact ih

theorem references_counted [DecidableEq Path] (hn : Fintype.card ι < 2 ^ 31) {s : Path → State ρ ι}
    (h : (system Path ρ ι).Reachable Orderly s) (p : Path) :
    (∀ i m, (s p).pc i = .holding m → (s p).unmapped m = false) ∧
      (∀ i j m k, (s p).pc i = .holding m → (s p).pc j = .holding k → m = k) ∧
      ((∀ i, (s p).pc i = .idle) → ∀ m < (s p).next, (s p).unmapped m = true) := by
  have hsound := sound_of_reachable hn h p
  refine ⟨fun i m hi => ?_, hsound.same, fun hidle m hm => ?_⟩
  · exact (hsound.fate m (hsound.named i m (by rw [hi]; rfl))).held hi
  · cases hsound.fate m hm with
    | gone _ _ hu => exact hu
    | registered _ _ _ hpos _ =>
      obtain ⟨j, hj⟩ := exists_holder hpos
      cases (hidle j).symm.trans hj
    | called j hj =>
      rw [hidle j] at hj
      cases hj

-- the second caller gets a new manager while the last reference to the first one is given back
theorem references_counted_overlap : ∃ s : ℕ → State Unit (Fin 2), (s 5).pc 1 = .holding 1 ∧
    (s 5).unmapped 0 = true ∧ (s 5).unmapped 1 = false := by
  have hrun : (((system ℕ Unit (Fin 2)).restrict Orderly).runFrom (fun _ => initial) [(5, 0, .find),
      (5, 0, .create (some ())), (5, 0, .insert), (5, 1, .find), (5, 1, .release), (5, 1, .fetchAdd), (5, 1, .reinsert),
      (5, 0, .release), (5, 1, .find), (5, 1, .create (some ())), (5, 0, .fetchAdd), (5, 1, .insert), (5, 0, .unmap)]).map
      (fun s => ((s 5).pc 1, (s 5).unmapped 0)) = some (.holding 1, true) := by
    decide
  obtain ⟨s, hs, hfacts⟩ := Option.map_eq_some_iff.mp hrun
  obtain ⟨hpc, hgone⟩ := Prod.mk.inj hfacts
  have horderly : ((system ℕ Unit (Fin 2)).restrict Orderly).Run s := .runFrom (fun _ _ _ => trivial) (.initial rfl) hs
  exact ⟨s, hpc, hgone, (references_counted (by decide) (.of_restrict horderly) 5).1 1 1 hpc⟩

/-- Two gets miss at the same time and each creates a manager; the release of the second takes the last
reference of the first. -/
theorem manager_unmapped_while_held : ∃ s, (system ℕ Unit (Fin 2)).Run s ∧ (s 5).pc 0 = .holding 0 ∧
    (s 5).unmapped 0 = true := by
  have hrun : ((system ℕ Unit (Fin 2)).runFrom (fun _ => initial) [(5, 0, .find), (5, 1, .find),
      (5, 0, .create (some ())), (5, 1, .create (some ())), (5, 0, .insert), (5, 1, .insert), (5, 1, .release),
      (5, 1, .fetchAdd), (5, 1, .unmap)]).map (fun s => ((s 5).pc 0, (s 5).unmapped 0)) =
      some (.holding 0, true) := by
    decide
  obtain ⟨s, hs, he⟩ := Option.map_eq_some_iff.mp hrun
  rw [Prod.mk.injEq] at he
  exact ⟨s, .runFrom (fun _ _ _ => trivial) (.initial rfl) hs, he⟩

end Shmipc.Registry
