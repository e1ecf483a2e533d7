import Shmipc.Library.Transition

namespace Transition

variable {σ π β : Type*}

structure Threads (σ π : Type*) where
  shared : σ
  calls : List π

namespace Threads

def step (advance : σ → π → Option (σ × π)) (s : Threads σ π) (i : ℕ) : Option (Threads σ π) :=
  s.calls[i]?.bind fun pc => (advance s.shared pc).map fun r => ⟨r.1, s.calls.set i r.2⟩

variable {advance : σ → π → Option (σ × π)} {s t : Threads σ π} {i : ℕ}

theorem step_cases (h : step advance s i = some t) :
    ∃ pre pc post shared pc', s.calls = pre ++ pc :: post ∧ pre.length = i ∧ advance s.shared pc = some (shared, pc') ∧
      t = ⟨shared, pre ++ pc' :: post⟩ := by
  obtain ⟨pc, hpc, h⟩ := Option.bind_eq_some_iff.mp h
  obtain ⟨⟨shared, pc'⟩, ha, rfl⟩ := Option.map_eq_some_iff.mp h
  obtain ⟨hi, hpc⟩ := List.getElem?_eq_some_iff.mp hpc
  refine ⟨s.calls.take i, pc, s.calls.drop (i + 1), shared, pc', ?_, List.length_take_of_le hi.le, ha, ?_⟩
  · rw [← hpc, ← List.drop_eq_getElem_cons hi, List.take_append_drop]
  · rw [List.set_eq_take_append_cons_drop, if_pos hi]

theorem flatMap_moved {f : π → List β} {pre post : List π} (pc : π) {pc' : π} (h : f pc' = f pc) :
    (pre ++ pc' :: post).flatMap f = (pre ++ pc :: post).flatMap f := by
  simp only [List.flatMap_append, List.flatMap_cons, h]

theorem flatMap_removed {f : π → List β} {pre post : List π} {pc : π} (h : f pc = []) :
    (pre ++ pc :: post).flatMap f = (pre ++ post).flatMap f := by
  simp only [List.flatMap_append, List.flatMap_cons, h, List.nil_append]

theorem perm_middle_flatMap (f : π → List β) (pre post : List π) (pc : π) :
    ((pre ++ pc :: post).flatMap f).Perm (f pc ++ (pre ++ post).flatMap f) := by
  rw [List.flatMap_append, List.flatMap_cons, List.flatMap_append]
  exact List.perm_append_comm_assoc _ _ _

end Threads

end Transition
