import Mathlib.Tactic

structure CircularQueue (α : Type*) where
  cap : ℕ
  head : ℕ
  tail : ℕ
  cells : ℕ → α
  head_le : head ≤ tail
  room : tail ≤ head + cap

namespace CircularQueue

variable {α : Type*}

def empty (cap : ℕ) (x : α) : CircularQueue α := ⟨cap, 0, 0, fun _ => x, by omega, by omega⟩

def put? (r : CircularQueue α) (x : α) : Option (CircularQueue α) :=
  if h : r.tail < r.head + r.cap then
    some ⟨r.cap, r.head, r.tail + 1, Function.update r.cells (r.tail % r.cap) x, by
      have := r.head_le
      omega, h⟩
  else none

def pop? (r : CircularQueue α) : Option (α × CircularQueue α) :=
  if h : r.head < r.tail then
    some (r.cells (r.head % r.cap), ⟨r.cap, r.head + 1, r.tail, r.cells, h, by
      have := r.room
      omega⟩)
  else none

def contents (r : CircularQueue α) : List α :=
  (List.range (r.tail - r.head)).map (fun i => r.cells ((r.head + i) % r.cap))

variable {r r' : CircularQueue α} {x : α}

@[simp] theorem contents_empty (cap : ℕ) (x : α) : (empty cap x).contents = [] := rfl

theorem contents_length : r.contents.length = r.tail - r.head := by simp [contents]

theorem contents_eq_nil : r.contents = [] ↔ r.tail = r.head := by
  have := r.head_le
  rw [← List.length_eq_zero_iff, contents_length]
  omega

theorem mod_ne_tail {i : ℕ} (h : r.tail < r.head + r.cap) (hi : i < r.tail - r.head) :
    (r.head + i) % r.cap ≠ r.tail % r.cap := by
  intro he
  obtain ⟨k, hk⟩ := (Nat.modEq_iff_dvd' (by omega)).mp he
  have hlt : r.cap * k < r.cap * 1 := by omega
  obtain rfl : k = 0 := by
    have := Nat.lt_of_mul_lt_mul_left hlt
    omega
  omega

theorem contents_put (h : r.put? x = some r') : r'.contents = r.contents ++ [x] := by
  unfold put? at h
  split_ifs at h with hroom
  obtain rfl := Option.some.inj h
  have hle := r.head_le
  have hlen : r.tail + 1 - r.head = r.tail - r.head + 1 := by omega
  simp only [contents, hlen, List.range_succ, List.map_append, List.map_singleton]
  congr 1
  · apply List.map_congr_left
    intro i hi
    exact Function.update_of_ne (mod_ne_tail hroom (List.mem_range.mp hi)) ..
  · have hi : r.head + (r.tail - r.head) = r.tail := by omega
    rw [hi, Function.update_self]

theorem contents_pop (h : r.pop? = some (x, r')) : r.contents = x :: r'.contents := by
  unfold pop? at h
  split_ifs at h with hlt
  obtain ⟨rfl, rfl⟩ := Prod.mk.inj (Option.some.inj h)
  have hlen : r.tail - r.head = r.tail - (r.head + 1) + 1 := by omega
  simp only [contents, hlen, List.range_succ_eq_map, List.map_cons, List.map_map, Nat.add_zero]
  congr 1
  apply List.map_congr_left
  intro i _
  simp only [Function.comp_apply, Nat.succ_eq_add_one]
  congr 2
  omega

end CircularQueue
