/-!
# Saturating words

Counters are 64-bit words. Where a sum or a difference must not wrap, it stops at the end of the
range: `satAdd` at the largest word, `satSub` at zero.
-/

set_option autoImplicit false

namespace PathForecast

/-- A sum that stops at the largest word. -/
def satAdd (a b : UInt64) : UInt64 := if a + b < a then 0xffffffffffffffff else a + b

/-- A difference that stops at zero. -/
def satSub (a b : UInt64) : UInt64 := if a < b then 0 else a - b

/-- The clamped sum over the naturals. -/
theorem toNat_satAdd (a b : UInt64) :
    (satAdd a b).toNat = min (a.toNat + b.toNat) (UInt64.size - 1) := by
  have ha := a.toNat_lt
  have hb := b.toNat_lt
  unfold satAdd
  split
  · next h =>
      rw [UInt64.lt_iff_toNat_lt, UInt64.toNat_add] at h
      have : (0xffffffffffffffff : UInt64).toNat = UInt64.size - 1 := rfl
      simp only [UInt64.size] at *
      omega
  · next h =>
      rw [UInt64.lt_iff_toNat_lt, UInt64.toNat_add] at h
      rw [UInt64.toNat_add]
      simp only [UInt64.size] at *
      omega

/-- Differences of words that stop at zero are those of the naturals. -/
theorem toNat_satSub (a b : UInt64) : (satSub a b).toNat = a.toNat - b.toNat := by
  unfold satSub
  split
  · next h =>
      rw [UInt64.lt_iff_toNat_lt] at h
      have : (0 : UInt64).toNat = 0 := rfl
      omega
  · next h =>
      rw [UInt64.lt_iff_toNat_lt] at h
      rw [UInt64.toNat_sub_of_le _ _ (UInt64.le_iff_toNat_le.mpr (by omega))]

end PathForecast
