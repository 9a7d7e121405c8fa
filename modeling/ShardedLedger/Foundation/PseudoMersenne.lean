import Mathlib
set_option autoImplicit false

/-!
# Foundation: residues modulo `2 ^ n - c`

Modulo `2 ^ n - c` the part of a number above its lowest `n` bits counts `c` times.
Adding it so often to the lowest bits makes the number smaller, and doing that
again and again ends below `2 ^ n`, perhaps not below the modulus.
-/

namespace ShardedLedger.PseudoMersenne

variable (n c : Nat)

/-- The upper part is added to the lowest `n` bits. -/
def fold (r : Nat) : Nat := r % 2 ^ n + r / 2 ^ n * c

variable {n c}

theorem fold_lt (hc : c < 2 ^ n) {r : Nat} (hr : r / 2 ^ n ≠ 0) : fold n c r < r := by
  have hparts := Nat.div_add_mod r (2 ^ n)
  have hless : r / 2 ^ n * c < r / 2 ^ n * 2 ^ n :=
    Nat.mul_lt_mul_of_pos_left hc (Nat.pos_of_ne_zero hr)
  rw [Nat.mul_comm _ (2 ^ n)] at hless
  rw [fold]
  omega

theorem fold_modEq (hc : c ≤ 2 ^ n) (r : Nat) : fold n c r ≡ r [MOD 2 ^ n - c] := by
  have hpow : c ≡ 2 ^ n [MOD 2 ^ n - c] := (Nat.modEq_iff_dvd' hc).mpr dvd_rfl
  calc r % 2 ^ n + r / 2 ^ n * c
      ≡ r % 2 ^ n + r / 2 ^ n * 2 ^ n [MOD 2 ^ n - c] := (hpow.mul_left _).add_left _
    _ = r := by rw [Nat.mul_comm, Nat.mod_add_div]

/-- Folding, until there is no upper part. -/
def reduce (hc : c < 2 ^ n) (r : Nat) : Nat :=
  if _hr : r / 2 ^ n = 0 then r else reduce hc (fold n c r)
termination_by r
decreasing_by exact fold_lt hc ‹_›

/-- **Reduction** ends below `2 ^ n`, with the same residue. -/
theorem reduce_spec (hc : c < 2 ^ n) (r : Nat) :
    reduce hc r < 2 ^ n ∧ reduce hc r ≡ r [MOD 2 ^ n - c] := by
  induction r using Nat.strong_induction_on with
  | _ r ih =>
      rw [reduce]
      split
      · rename_i hr
        exact ⟨Nat.lt_of_div_eq_zero (Nat.two_pow_pos n) hr, Nat.ModEq.rfl⟩
      · rename_i hr
        obtain ⟨hlt, hmod⟩ := ih (fold n c r) (fold_lt hc hr)
        exact ⟨hlt, hmod.trans (fold_modEq (Nat.le_of_lt hc) r)⟩

end ShardedLedger.PseudoMersenne
