import Mathlib.Tactic
import Mathlib.Data.List.Basic

namespace ByteMemory

@[ext] structure Mem where
  byte : ℕ → UInt8

instance : CoeFun Mem (fun _ => ℕ → UInt8) := ⟨Mem.byte⟩

def store8 (m : Mem) (a : ℕ) (v : UInt8) : Mem := ⟨fun x => if x = a then v else m x⟩

def load32 (m : Mem) (a : ℕ) : ℕ :=
  (m a).toNat + (m (a + 1)).toNat * 256 + (m (a + 2)).toNat * 65536 + (m (a + 3)).toNat * 16777216

def store32 (m : Mem) (a v : ℕ) : Mem where
  byte x :=
    if x = a then UInt8.ofNat v
    else if x = a + 1 then UInt8.ofNat (v / 256)
    else if x = a + 2 then UInt8.ofNat (v / 65536)
    else if x = a + 3 then UInt8.ofNat (v / 16777216)
    else m x

def load16 (m : Mem) (a : ℕ) : ℕ := (m a).toNat + (m (a + 1)).toNat * 256

def store16 (m : Mem) (a v : ℕ) : Mem := store8 (store8 m a (UInt8.ofNat v)) (a + 1) (UInt8.ofNat (v / 256))

def signed32 (v : ℕ) : ℤ := if v < 2147483648 then v else v - 4294967296

def loadI32 (m : Mem) (a : ℕ) : ℤ := signed32 (load32 m a)

def storeI32 (m : Mem) (a : ℕ) (z : ℤ) : Mem := store32 m a (z % 4294967296).toNat

def load64 (m : Mem) (a : ℕ) : ℕ := load32 m a + load32 m (a + 4) * 4294967296

def store64 (m : Mem) (a v : ℕ) : Mem := store32 (store32 m a v) (a + 4) (v / 4294967296)

def signed64 (v : ℕ) : ℤ := if v < 9223372036854775808 then v else v - 18446744073709551616

def loadI64 (m : Mem) (a : ℕ) : ℤ := signed64 (load64 m a)

def storeI64 (m : Mem) (a : ℕ) (z : ℤ) : Mem := store64 m a (z % 18446744073709551616).toNat

def loadBytes (m : Mem) (a n : ℕ) : List UInt8 := (List.range n).map (fun i => m (a + i))

def storeBytes (m : Mem) (a : ℕ) (bs : List UInt8) : Mem where
  byte x := if a ≤ x then (bs[x - a]?).getD (m x) else m x

def after {α : Type*} (r : Mem × α) : Mem := r.1

def SameOn (m m' : Mem) (lo hi : ℕ) : Prop := ∀ x, lo ≤ x → x < hi → m' x = m x

namespace SameOn

variable {m m' m'' : Mem} {lo hi : ℕ}

theorem refl (m : Mem) (lo hi : ℕ) : SameOn m m lo hi := fun _ _ _ => rfl

theorem trans (h : SameOn m m' lo hi) (h' : SameOn m' m'' lo hi) : SameOn m m'' lo hi :=
  fun x hl hh => (h' x hl hh).trans (h x hl hh)

theorem mono {lo' hi' : ℕ} (h : SameOn m m' lo hi) (hl : lo ≤ lo') (hh : hi' ≤ hi) :
    SameOn m m' lo' hi' :=
  fun x h1 h2 => h x (by omega) (by omega)

end SameOn

theorem sameOn_store8 (m : Mem) (a : ℕ) (v : UInt8) {lo hi : ℕ} (h : a < lo ∨ hi ≤ a) :
    SameOn m (store8 m a v) lo hi := by
  intro x hl hh
  have hx : x ≠ a := by omega
  simp [store8, hx]

theorem sameOn_store32 (m : Mem) (a v : ℕ) {lo hi : ℕ} (h : a + 4 ≤ lo ∨ hi ≤ a) :
    SameOn m (store32 m a v) lo hi := by
  intro x hl hh
  have h0 : x ≠ a := by omega
  have h1 : x ≠ a + 1 := by omega
  have h2 : x ≠ a + 2 := by omega
  have h3 : x ≠ a + 3 := by omega
  simp [store32, h0, h1, h2, h3]

theorem sameOn_storeI32 (m : Mem) (a : ℕ) (z : ℤ) {lo hi : ℕ} (h : a + 4 ≤ lo ∨ hi ≤ a) :
    SameOn m (storeI32 m a z) lo hi := sameOn_store32 m a _ h

theorem sameOn_storeBytes (m : Mem) (a : ℕ) (bs : List UInt8) {lo hi : ℕ}
    (h : a + bs.length ≤ lo ∨ hi ≤ a) : SameOn m (storeBytes m a bs) lo hi := by
  intro x hl hh
  unfold storeBytes
  by_cases ha : a ≤ x
  · have hb : bs[x - a]? = none := List.getElem?_eq_none (by omega)
    simp [ha, hb]
  · simp [ha]

theorem load32_congr {m m' : Mem} {a : ℕ} (h : SameOn m m' a (a + 4)) : load32 m' a = load32 m a := by
  unfold load32
  rw [h a (by omega) (by omega), h (a + 1) (by omega) (by omega), h (a + 2) (by omega) (by omega),
    h (a + 3) (by omega) (by omega)]

theorem loadI32_congr {m m' : Mem} {a : ℕ} (h : SameOn m m' a (a + 4)) :
    loadI32 m' a = loadI32 m a := by
  unfold loadI32
  rw [load32_congr h]

theorem loadBytes_congr {m m' : Mem} {a n : ℕ} (h : SameOn m m' a (a + n)) :
    loadBytes m' a n = loadBytes m a n := by
  apply List.map_congr_left
  intro i hi
  have := List.mem_range.mp hi
  exact h _ (by omega) (by omega)

theorem load32_lt (m : Mem) (a : ℕ) : load32 m a < 4294967296 := by
  unfold load32
  have h0 := (m a).toNat_lt
  have h1 := (m (a + 1)).toNat_lt
  have h2 := (m (a + 2)).toNat_lt
  have h3 := (m (a + 3)).toNat_lt
  omega

@[simp] theorem store8_same (m : Mem) (a : ℕ) (v : UInt8) : store8 m a v a = v := by simp [store8]

theorem store8_of_ne (m : Mem) (v : UInt8) {a x : ℕ} (h : x ≠ a) : store8 m a v x = m x := by
  simp [store8, h]

@[simp] theorem load32_store32_same (m : Mem) (a v : ℕ) :
    load32 (store32 m a v) a = v % 4294967296 := by
  unfold load32 store32
  simp
  omega

theorem sameOn_store16 (m : Mem) (a v : ℕ) {lo hi : ℕ} (h : a + 2 ≤ lo ∨ hi ≤ a) :
    SameOn m (store16 m a v) lo hi :=
  (sameOn_store8 m _ _ (by omega)).trans (sameOn_store8 _ _ _ (by omega))

theorem load16_congr {m m' : Mem} {a : ℕ} (h : SameOn m m' a (a + 2)) : load16 m' a = load16 m a := by
  rw [load16, load16, h a (by omega) (by omega), h (a + 1) (by omega) (by omega)]

theorem load16_store16_of_lt (m : Mem) (a : ℕ) {v : ℕ} (h : v < 65536) : load16 (store16 m a v) a = v := by
  unfold load16 store16
  rw [store8_same, store8_of_ne _ _ (by omega), store8_same]
  simp
  omega

theorem load32_store32_of_lt (m : Mem) (a : ℕ) {v : ℕ} (h : v < 4294967296) :
    load32 (store32 m a v) a = v := by
  rw [load32_store32_same, Nat.mod_eq_of_lt h]

theorem load32_store32_of_disjoint (m : Mem) (v : ℕ) {a b : ℕ} (h : a + 4 ≤ b ∨ b + 4 ≤ a) :
    load32 (store32 m a v) b = load32 m b := load32_congr (sameOn_store32 m a v h)

theorem load32_store8_of_disjoint (m : Mem) (v : UInt8) {a b : ℕ} (h : a < b ∨ b + 4 ≤ a) :
    load32 (store8 m a v) b = load32 m b := load32_congr (sameOn_store8 m a v h)

theorem store32_apply_of_disjoint (m : Mem) (v : ℕ) {a x : ℕ} (h : x < a ∨ a + 4 ≤ x) :
    store32 m a v x = m x := by
  have hs : SameOn m (store32 m a v) x (x + 1) := sameOn_store32 m a v (by omega)
  exact hs x (by omega) (by omega)

theorem store32_store32 (m : Mem) (a v w : ℕ) : store32 (store32 m a v) a w = store32 m a w := by
  refine Mem.ext (funext fun x => ?_)
  simp only [store32]
  split_ifs <;> rfl

theorem store32_load32 (m : Mem) (a : ℕ) : store32 m a (load32 m a) = m := by
  have h0 := (m a).toNat_lt
  have h1 := (m (a + 1)).toNat_lt
  have h2 := (m (a + 2)).toNat_lt
  have h3 := (m (a + 3)).toNat_lt
  refine Mem.ext (funext fun x => ?_)
  simp only [store32, load32]
  split_ifs
  iterate 4
    subst_vars
    apply UInt8.toNat_inj.mp
    rw [UInt8.toNat_ofNat']
    omega
  rfl

theorem signed32_emod (z : ℤ) (hl : -2147483648 ≤ z) (hh : z < 2147483648) :
    signed32 ((z % 4294967296).toNat) = z := by
  unfold signed32
  split_ifs <;> omega

theorem loadI32_storeI32_same (m : Mem) (a : ℕ) {z : ℤ} (hl : -2147483648 ≤ z) (hh : z < 2147483648) :
    loadI32 (storeI32 m a z) a = z := by
  have hb : (z % 4294967296).toNat < 4294967296 := by omega
  rw [loadI32, storeI32, load32_store32_of_lt m a hb, signed32_emod z hl hh]

theorem emod_signed32_add (v : ℕ) (d : ℤ) :
    (signed32 v + d) % 4294967296 = (v + d) % 4294967296 := by
  unfold signed32
  split_ifs <;> omega

/-- An atomic subtraction followed by the matching addition restores the word, also when the
intermediate value wraps. -/
theorem storeI32_undo (m : Mem) (a : ℕ) (d : ℤ) :
    storeI32 (storeI32 m a (loadI32 m a + d)) a
      (loadI32 (storeI32 m a (loadI32 m a + d)) a - d) = m := by
  have hv := load32_lt m a
  simp only [storeI32, loadI32, store32_store32, load32_store32_same]
  have hw : (((load32 m a : ℤ) + d) % 4294967296).toNat < 4294967296 := by omega
  rw [emod_signed32_add, Nat.mod_eq_of_lt hw, sub_eq_add_neg, emod_signed32_add]
  have he : (((((load32 m a : ℤ) + d) % 4294967296).toNat : ℤ) + -d) % 4294967296 = load32 m a := by
    omega
  rw [he, Int.toNat_natCast, store32_load32]

theorem sameOn_store64 (m : Mem) (a v : ℕ) {lo hi : ℕ} (h : a + 8 ≤ lo ∨ hi ≤ a) :
    SameOn m (store64 m a v) lo hi :=
  (sameOn_store32 m a v (by omega)).trans (sameOn_store32 _ (a + 4) _ (by omega))

theorem sameOn_storeI64 (m : Mem) (a : ℕ) (z : ℤ) {lo hi : ℕ} (h : a + 8 ≤ lo ∨ hi ≤ a) :
    SameOn m (storeI64 m a z) lo hi := sameOn_store64 m a _ h

theorem loadI64_congr {m m' : Mem} {a : ℕ} (h : SameOn m m' a (a + 8)) : loadI64 m' a = loadI64 m a := by
  have hlo : load32 m' a = load32 m a := load32_congr (h.mono le_rfl (by omega))
  have hhi : load32 m' (a + 4) = load32 m (a + 4) := load32_congr (h.mono (by omega) le_rfl)
  rw [loadI64, loadI64, load64, load64, hlo, hhi]

theorem load64_store64_of_lt (m : Mem) (a : ℕ) {v : ℕ} (h : v < 18446744073709551616) :
    load64 (store64 m a v) a = v := by
  have hlo : load32 (store64 m a v) a = v % 4294967296 := by
    rw [store64, load32_store32_of_disjoint _ _ (by omega), load32_store32_same]
  have hhi : load32 (store64 m a v) (a + 4) = v / 4294967296 := by
    rw [store64, load32_store32_of_lt _ _ (by omega)]
  rw [load64, hlo, hhi]
  omega

theorem loadI64_storeI64_same (m : Mem) (a : ℕ) {z : ℤ} (hl : 0 ≤ z) (hh : z < 9223372036854775808) :
    loadI64 (storeI64 m a z) a = z := by
  rw [loadI64, storeI64, load64_store64_of_lt m a (by omega), signed64]
  split_ifs <;> omega

@[simp] theorem loadBytes_length (m : Mem) (a n : ℕ) : (loadBytes m a n).length = n := by
  simp [loadBytes]

theorem loadBytes_add (m : Mem) (a i j : ℕ) :
    loadBytes m a (i + j) = loadBytes m a i ++ loadBytes m (a + i) j := by
  simp [loadBytes, List.range_add, Nat.add_assoc, Function.comp_def]

theorem loadBytes_take (m : Mem) (a : ℕ) {i n : ℕ} (h : i ≤ n) :
    (loadBytes m a n).take i = loadBytes m a i := by
  obtain ⟨j, rfl⟩ := Nat.exists_eq_add_of_le h
  simp [loadBytes_add]

theorem loadBytes_drop (m : Mem) (a : ℕ) {i n : ℕ} (h : i ≤ n) :
    (loadBytes m a n).drop i = loadBytes m (a + i) (n - i) := by
  obtain ⟨j, rfl⟩ := Nat.exists_eq_add_of_le h
  simp [loadBytes_add]

theorem loadBytes_storeBytes_same (m : Mem) (a : ℕ) (bs : List UInt8) :
    loadBytes (storeBytes m a bs) a bs.length = bs := by
  apply List.ext_getElem (by simp)
  intro i hi hb
  simp [loadBytes, storeBytes, hb]

end ByteMemory
