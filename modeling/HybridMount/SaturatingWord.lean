import Mathlib.Data.List.Basic
import Mathlib.Tactic

/-! Saturating and checked arithmetic on 64-bit words, and rounding up to a multiple. A checked
operation has no result where the plain one traps. -/

namespace SaturatingWord

/-- The largest word. -/
def top : Nat := 18446744073709551615

def clamp (n : Nat) : UInt64 := UInt64.ofNat (min n top)

def saturatingAdd (a b : UInt64) : UInt64 := clamp (a.toNat + b.toNat)

def saturatingMul (a b : UInt64) : UInt64 := clamp (a.toNat * b.toNat)

def checkedSub (a b : UInt64) : Option UInt64 := if b ≤ a then some (a - b) else none

def checkedDiv (a b : UInt64) : Option UInt64 := if b = 0 then none else some (a / b)

def checkedRem (a b : UInt64) : Option UInt64 := if b = 0 then none else some (a % b)

/-- The least multiple of `a` from `n` on. -/
def ceilTo (a n : Nat) : Nat := (n + (a - 1)) / a * a

variable {a b : UInt64} {m n k : Nat}

theorem toNat_le_top (a : UInt64) : a.toNat ≤ top := by
  have h := a.toNat_lt
  simp only [top]
  omega

@[simp] theorem toNat_clamp (n : Nat) : (clamp n).toNat = min n top := by
  have h : min n top < 2 ^ 64 := by
    simp only [top]
    omega
  simp only [clamp, UInt64.toNat_ofNat', Nat.mod_eq_of_lt h]

theorem clamp_toNat (a : UInt64) : clamp a.toNat = a := by
  apply UInt64.toNat.inj
  rw [toNat_clamp, min_eq_left (toNat_le_top a)]

theorem clamp_mono (h : m ≤ n) : clamp m ≤ clamp n := by
  rw [UInt64.le_iff_toNat_le, toNat_clamp, toNat_clamp]
  exact min_le_min_right top h

theorem clamp_eq_top_iff : clamp n = clamp top ↔ top ≤ n := by
  rw [← UInt64.toNat_inj, toNat_clamp, toNat_clamp]
  omega

@[simp] theorem saturatingAdd_clamp (m n : Nat) : saturatingAdd (clamp m) (clamp n) = clamp (m + n) := by
  apply UInt64.toNat.inj
  simp only [saturatingAdd, toNat_clamp]
  omega

theorem saturatingMul_clamp {factor : Nat} (h : 0 < factor) (hf : factor ≤ top) (n : Nat) :
    saturatingMul (clamp n) (clamp factor) = clamp (n * factor) := by
  apply UInt64.toNat.inj
  simp only [saturatingMul, toNat_clamp, min_eq_left hf]
  by_cases hn : n ≤ top
  · rw [min_eq_left hn]
  · have hle : top ≤ top * factor := Nat.le_mul_of_pos_right _ h
    have hle' : top * factor ≤ n * factor := Nat.mul_le_mul_right factor (by omega)
    rw [min_eq_right (by omega : top ≤ n)]
    omega

theorem max_clamp (m n : Nat) : max (clamp m) (clamp n) = clamp (max m n) := by
  change (if clamp m ≤ clamp n then clamp n else clamp m) = clamp (max m n)
  apply UInt64.toNat.inj
  by_cases h : clamp m ≤ clamp n
  · rw [if_pos h]
    simp only [UInt64.le_iff_toNat_le, toNat_clamp] at h ⊢
    omega
  · rw [if_neg h]
    simp only [UInt64.le_iff_toNat_le, toNat_clamp] at h ⊢
    omega

theorem le_ceilTo (h : 0 < k) : n ≤ ceilTo k n := by
  have hmod := Nat.mod_lt (n + (k - 1)) h
  have hdiv := Nat.div_add_mod' (n + (k - 1)) k
  simp only [ceilTo]
  omega

theorem dvd_ceilTo (k n : Nat) : k ∣ ceilTo k n := Nat.dvd_mul_left _ _

theorem ceilTo_mono (h : m ≤ n) : ceilTo k m ≤ ceilTo k n :=
  Nat.mul_le_mul_right k (Nat.div_le_div_right (Nat.add_le_add_right h _))

theorem ceilTo_of_dvd (h : k ∣ n) : ceilTo k n = n := by
  obtain ⟨q, rfl⟩ := h
  rcases Nat.eq_zero_or_pos k with rfl | hk
  · simp [ceilTo]
  · have hdiv : (k * q + (k - 1)) / k = q := by
      rw [Nat.mul_add_div hk, Nat.div_eq_of_lt (by omega), Nat.add_zero]
    rw [ceilTo, hdiv, Nat.mul_comm]

theorem clamp_ceilTo_min (h : 0 < k) (n : Nat) : clamp (ceilTo k (min n top)) = clamp (ceilTo k n) := by
  by_cases hn : n ≤ top
  · rw [min_eq_left hn]
  · have hleft : top ≤ ceilTo k (min n top) := by
      rw [min_eq_right (by omega)]
      exact le_ceilTo h
    have hright : top ≤ ceilTo k n := Nat.le_trans (by omega) (le_ceilTo h)
    rw [clamp_eq_top_iff.mpr hleft, clamp_eq_top_iff.mpr hright]

theorem ceilTo_eq_add (h : 0 < k) (hmod : n % k ≠ 0) : ceilTo k n = n + (k - n % k) := by
  have hsplit := Nat.div_add_mod n k
  have hlt := Nat.mod_lt n h
  have hdiv : (n + (k - 1)) / k = n / k + 1 := by
    have hshift : n + (k - 1) = k * (n / k + 1) + (n % k - 1) := by
      rw [Nat.mul_add, Nat.mul_one]
      omega
    have hzero : (n % k - 1) / k = 0 := Nat.div_eq_of_lt (by omega)
    rw [hshift, Nat.mul_add_div h, hzero, Nat.add_zero]
  rw [ceilTo, hdiv, Nat.add_mul, Nat.one_mul, Nat.mul_comm]
  omega

end SaturatingWord
