import Shmipc.Library.ByteMemory

namespace ByteMemory

inductive Access (P : Type*)
  | load32 (a : ℕ) (next : ℕ → P)
  | load64 (a : ℕ) (next : ℤ → P)
  | store32 (a v : ℕ) (next : P)
  | store64 (a : ℕ) (z : ℤ) (next : P)

namespace Access

variable {P : Type*}

def exec (m : Mem) : Access P → Mem × P
  | load32 a next => (m, next (ByteMemory.load32 m a))
  | load64 a next => (m, next (loadI64 m a))
  | store32 a v next => (ByteMemory.store32 m a v, next)
  | store64 a z next => (storeI64 m a z, next)

def addr : Access P → ℕ
  | load32 a _ | load64 a _ | store32 a _ _ | store64 a _ _ => a

def width : Access P → ℕ
  | load32 _ _ | store32 _ _ _ => 4
  | load64 _ _ | store64 _ _ _ => 8

def Within (x : Access P) (lo hi : ℕ) : Prop := lo ≤ x.addr ∧ x.addr + x.width ≤ hi

variable {x : Access P} {m : Mem} {lo hi lo' hi' : ℕ}

theorem Within.sameOn (h : x.Within lo hi) (hd : hi ≤ lo' ∨ hi' ≤ lo) : SameOn m (x.exec m).1 lo' hi' := by
  obtain ⟨hlo, hhi⟩ := h
  cases x with
  | load32 | load64 => exact .refl m lo' hi'
  | store32 a v next =>
    simp only [addr, width] at hlo hhi
    exact sameOn_store32 m a v (by omega)
  | store64 a z next =>
    simp only [addr, width] at hlo hhi
    exact sameOn_storeI64 m a z (by omega)

end Access

end ByteMemory
