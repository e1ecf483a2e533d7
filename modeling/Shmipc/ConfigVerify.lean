import Shmipc.HomeList

namespace Shmipc

structure Config.Typed (c : Config) : Prop where
  cap : c.shareMemoryBufferCap < 4294967296
  queue : c.queueCap < 4294967296
  sizes : ∀ p ∈ c.bufferSliceSizes, p.size < 4294967296
  percents : ∀ p ∈ c.bufferSliceSizes, p.percent < 4294967296

def LeastMultiple (k n x : ℕ) : Prop := IsLeast {x | k ∣ x ∧ n ≤ x} x

structure Config.Adjusted (c c' : Config) : Prop where
  again : c'.verify = .ok c'
  sizes : List.Forall₂ (fun p q => LeastMultiple 4 p.size q.size ∧ q.size ≤ c'.shareMemoryBufferCap)
    c.bufferSliceSizes c'.bufferSliceSizes
  queue : LeastMultiple 8 c.queueCap c'.queueCap
  percents : (c'.bufferSliceSizes.map SizePercentPair.percent).sum = 100

structure Config.Roomy (c : Config) : Prop where
  sizes : ∀ p ∈ c.bufferSliceSizes, (p.size + 3) / 4 * 4 ≤ c.shareMemoryBufferCap
  queue : c.queueCap + 7 < 4294967296
  percents : (c.bufferSliceSizes.map SizePercentPair.percent).sum < 4294967296

namespace ConfigVerify

theorem leastMultiple_round {k : ℕ} (hk : 0 < k) (n : ℕ) : LeastMultiple k n ((n + (k - 1)) / k * k) := by
  have hdiv := Nat.div_add_mod (n + (k - 1)) k
  have hmod := Nat.mod_lt (n + (k - 1)) hk
  rw [Nat.mul_comm] at hdiv
  refine ⟨⟨Nat.dvd_mul_left k _, by omega⟩, ?_⟩
  rintro x ⟨⟨i, rfl⟩, hn⟩
  rw [Nat.mul_comm k i]
  apply Nat.mul_le_mul_right
  apply Nat.le_of_lt_succ
  rw [Nat.div_lt_iff_lt_mul hk, Nat.succ_mul, Nat.mul_comm i k]
  omega

/-- Past the last multiple below `2 ^ 32` the sum wraps, and the rounded value is zero. -/
theorem leastMultiple_u32_iff {k n : ℕ} (hk : 0 < k) (hmax : k ≤ 4294967296) (hn : n < 4294967296) :
    LeastMultiple k n (u32 (n + (k - 1)) / k * k) ↔ n + (k - 1) < 4294967296 := by
  constructor
  · intro h
    by_contra hwrap
    have hle : n ≤ u32 (n + (k - 1)) / k * k := h.1.2
    have hzero : u32 (n + (k - 1)) / k = 0 := by
      apply Nat.div_eq_of_lt
      rw [u32, Nat.mod_eq_sub_mod (not_lt.mp hwrap), Nat.mod_eq_of_lt (by omega)]
      omega
    rw [hzero] at hle
    omega
  · intro h
    rw [u32, Nat.mod_eq_of_lt h]
    exact leastMultiple_round hk n

theorem round_multiple {k n : ℕ} (hk : 0 < k) (hn : n < 4294967296) (hmul : k ∣ 4294967296) (h : k ∣ n) :
    u32 (n + (k - 1)) / k * k = n := by
  have hlt : n + (k - 1) < 4294967296 := by
    obtain ⟨i, rfl⟩ := h
    obtain ⟨j, hj⟩ := hmul
    rw [hj] at hn ⊢
    have hij : i + 1 ≤ j := Nat.lt_of_mul_lt_mul_left hn
    have hle := Nat.mul_le_mul_left k hij
    rw [Nat.mul_add, Nat.mul_one] at hle
    omega
  rw [u32, Nat.mod_eq_of_lt hlt]
  have hleast := leastMultiple_round hk n
  exact le_antisymm (hleast.2 ⟨h, le_rfl⟩) hleast.1.2

theorem verify_again {c c' : Config} (ht : c.Typed) (h : c.verify = .ok c')
    (hrounded : ∀ p ∈ c.bufferSliceSizes, u32 (p.size + 3) / 4 * 4 ≤ c.shareMemoryBufferCap) : c'.verify = .ok c' := by
  obtain ⟨hcap, hempty, -, hsum, hpath, hqueue, rfl⟩ := Config.verify_iff.mp h
  rw [Config.verify_iff]
  refine ⟨hcap, ?_, ?_, ?_, hpath, hqueue, ?_⟩
  · rw [ne_eq, List.map_eq_nil_iff]
    exact hempty
  · rw [List.forall_mem_map]
    exact hrounded
  · rw [List.map_map]
    exact hsum
  · rw [Config.mk.injEq]
    refine ⟨rfl, ?_, ?_, rfl, rfl⟩
    · rw [List.map_map]
      apply List.map_congr_left
      intro p hp
      rw [Function.comp, SizePercentPair.mk.injEq]
      refine ⟨?_, rfl⟩
      apply Eq.symm
      apply round_multiple (by norm_num) _ (by norm_num) (Nat.dvd_mul_left 4 _)
      exact (hrounded p hp).trans_lt ht.cap
    · apply Eq.symm
      apply round_multiple (by norm_num) _ (by norm_num) (Nat.dvd_mul_left 8 _)
      exact (Nat.div_mul_le_self _ 8).trans_lt (Nat.mod_lt _ (by norm_num))

theorem adjusted_iff {c c' : Config} (ht : c.Typed) (h : c.verify = .ok c') : c.Adjusted c' ↔ c.Roomy := by
  obtain ⟨-, -, -, hsum, -, -, rfl⟩ := Config.verify_iff.mp h
  have hround : ∀ p ∈ c.bufferSliceSizes, p.size + 3 < 4294967296 →
      u32 (p.size + 3) / 4 * 4 = (p.size + 3) / 4 * 4 := by
    intro p hp hlt
    rw [u32, Nat.mod_eq_of_lt hlt]
  have hall : ∀ R : SizePercentPair → SizePercentPair → Prop,
      List.Forall₂ R c.bufferSliceSizes
        (c.bufferSliceSizes.map (fun p => { p with size := u32 (p.size + 3) / 4 * 4 })) ↔
      ∀ p ∈ c.bufferSliceSizes, R p { p with size := u32 (p.size + 3) / 4 * 4 } := by
    intro R
    rw [List.forall₂_map_right_iff, List.forall₂_same]
  constructor
  · rintro ⟨-, hleast, hq, hp⟩
    rw [hall] at hleast
    refine ⟨?_, (leastMultiple_u32_iff (by norm_num) (by norm_num) ht.queue).mp hq, ?_⟩
    · intro p hp
      obtain ⟨hmul, hle⟩ := hleast p hp
      have hlt := (leastMultiple_u32_iff (by norm_num) (by norm_num) (ht.sizes p hp)).mp hmul
      rw [← hround p hp hlt]
      exact hle
    · rw [List.map_map] at hp
      exact hp.trans_lt (by norm_num)
  · rintro ⟨hle, hq, hp⟩
    have hlt : ∀ p ∈ c.bufferSliceSizes, p.size + 3 < 4294967296 := by
      intro p hp
      have hbound := (hle p hp).trans_lt ht.cap
      omega
    have hrounded : ∀ p ∈ c.bufferSliceSizes, u32 (p.size + 3) / 4 * 4 ≤ c.shareMemoryBufferCap := by
      intro p hp
      rw [hround p hp (hlt p hp)]
      exact hle p hp
    refine ⟨verify_again ht h hrounded, ?_, (leastMultiple_u32_iff (by norm_num) (by norm_num) ht.queue).mpr hq, ?_⟩
    · rw [hall]
      intro p hp
      exact ⟨(leastMultiple_u32_iff (by norm_num) (by norm_num) (ht.sizes p hp)).mpr (hlt p hp), hrounded p hp⟩
    · rw [List.map_map]
      rw [u32, Nat.mod_eq_of_lt hp] at hsum
      exact hsum

theorem oddSizes_adjusted : ∃ c c' : Config, c.Typed ∧ c.verify = .ok c' ∧
    c.bufferSliceSizes = [⟨4097, 50⟩, ⟨8193, 50⟩] ∧ c'.bufferSliceSizes = [⟨4100, 50⟩, ⟨8196, 50⟩] ∧
    c.queueCap = 8193 ∧ c'.queueCap = 8200 ∧ c.Adjusted c' := by
  have htyped : Config.Typed ⟨1048576, [⟨4097, 50⟩, ⟨8193, 50⟩], 8193, "p", "q"⟩ := ⟨by decide, by decide, by decide, by decide⟩
  have hverify : Config.verify ⟨1048576, [⟨4097, 50⟩, ⟨8193, 50⟩], 8193, "p", "q"⟩ =
      .ok ⟨1048576, [⟨4100, 50⟩, ⟨8196, 50⟩], 8200, "p", "q"⟩ := rfl
  exact ⟨_, _, htyped, hverify, rfl, rfl, rfl, rfl, (adjusted_iff htyped hverify).mpr ⟨by decide, by decide, by decide⟩⟩

theorem not_adjusted :
    (∃ c c' : Config, c.Typed ∧ c.verify = .ok c' ∧ c'.verify ≠ .ok c' ∧
      c'.bufferSliceSizes = [⟨1048580, 100⟩] ∧ c'.shareMemoryBufferCap = 1048577) ∧
    (∃ c c' : Config, c.Typed ∧ c.verify = .ok c' ∧ c.queueCap = 4294967295 ∧ c'.queueCap = 0) ∧
    ∃ c c' : Config, c.Typed ∧ c.verify = .ok c' ∧
      (c'.bufferSliceSizes.map SizePercentPair.percent).sum = 4294967396 := by
  refine ⟨⟨⟨1048577, [⟨1048577, 100⟩], 8192, "p", "q"⟩, ⟨1048577, [⟨1048580, 100⟩], 8192, "p", "q"⟩,
    ⟨by decide, by decide, by decide, by decide⟩, rfl, ?_, rfl, rfl⟩,
    ⟨⟨1048576, [⟨4096, 100⟩], 4294967295, "p", "q"⟩, ⟨1048576, [⟨4096, 100⟩], 0, "p", "q"⟩,
      ⟨by decide, by decide, by decide, by decide⟩, rfl, rfl, rfl⟩,
    ⟨⟨1048576, [⟨4096, 4294967295⟩, ⟨8192, 101⟩], 8192, "p", "q"⟩,
      ⟨1048576, [⟨4096, 4294967295⟩, ⟨8192, 101⟩], 8192, "p", "q"⟩,
      ⟨by decide, by decide, by decide, by decide⟩, rfl, rfl⟩⟩
  rw [ne_eq, Config.verify_iff]
  rintro ⟨-, -, hle, -⟩
  exact absurd (hle ⟨1048580, 100⟩ (List.mem_singleton.mpr rfl)) (by decide)

end ConfigVerify

end Shmipc
