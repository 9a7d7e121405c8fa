import ShardedLedger.Foundation.PseudoMersenne
import ShardedLedger.Random.MersenneTwister
set_option autoImplicit false

/-!
# Random: what `gmp_randseed_ui` makes of the time

The seed is raised to a fixed power modulo `2 ^ 19937 - 20023`, by squaring and
multiplying with a reduction after each (`mangleSeed_spec`).  The result fills the
array, bit for bit, and 2000 words are thrown away (`randseedMt_spec`).
-/

namespace ShardedLedger.Random

open ShiftRegister PseudoMersenne Generator

/-! ## The power -/

/-- The place of the highest bit of a state. -/
def topBit : Nat := 19936

/-- The number of bits of a state. -/
def stateBits : Nat := topBit + 1

theorem seedOffset_lt : 20023 < 2 ^ stateBits :=
  Nat.lt_trans (by decide : 20023 < 2 ^ 15) (Nat.pow_lt_pow_right (by decide) (by decide))

/-- The loop of `mangle_seed`, when `bit` is `2 ^ k`: it ends when `bit` is 0.  At
`reduce` the number comes below `2 ^ 19937`; the second time there, the bit of `e`
has been cleared, so the multiplication is not repeated. -/
def mangleLoop (b : Nat) : Nat → Nat → Nat → Nat
  | 0, _, r => r
  | k + 1, e, r =>
      let bit := 2 ^ k
      let r := reduce seedOffset_lt (r * r)
      if e &&& bit ≠ 0 then mangleLoop b k (e ^^^ bit) (reduce seedOffset_lt (r * b))
      else mangleLoop b k e r

/-- `mangle_seed`. -/
def mangleSeed (r : Nat) : Nat := mangleLoop r 30 0x40118124 r

/-- The next bit of a number. -/
theorem mod_two_pow_succ (x k : Nat) :
    x % 2 ^ (k + 1) = x % 2 ^ k + 2 ^ k * (x.testBit k).toNat := by
  rw [Nat.mod_pow_succ, Nat.toNat_testBit]

/-- The bits of the exponent that are not processed yet are those of the start. -/
theorem clear_bit_mod (e k : Nat) : (e ^^^ 2 ^ k) % 2 ^ k = e % 2 ^ k := by
  rw [Nat.xor_mod_two_pow, Nat.mod_self, Nat.xor_zero]

/-- **The loop** squares once for every bit, and multiplies for every bit that is set. -/
theorem mangleLoop_modEq (b k e r : Nat) :
    mangleLoop b k e r ≡ r ^ 2 ^ k * b ^ (e % 2 ^ k) [MOD 2 ^ stateBits - 20023] := by
  induction k generalizing e r with
  | zero =>
      rw [mangleLoop, Nat.pow_zero, Nat.mod_one, Nat.pow_one, Nat.pow_zero, Nat.mul_one]
  | succ k ih =>
      have hsquare := (reduce_spec seedOffset_lt (r * r)).2
      have hpower : (r * r) ^ 2 ^ k = r ^ 2 ^ (k + 1) := by
        rw [← Nat.pow_two, ← Nat.pow_mul, Nat.pow_succ, Nat.mul_comm]
      rw [mangleLoop]
      rw [Nat.and_two_pow, mod_two_pow_succ]
      cases hbit : e.testBit k with
      | true =>
          have hproduct := (reduce_spec seedOffset_lt (reduce seedOffset_lt (r * r) * b)).2
          rw [Bool.toNat_true, Nat.one_mul, Nat.mul_one,
            if_pos (Nat.ne_of_gt (Nat.two_pow_pos k))]
          calc mangleLoop b k (e ^^^ 2 ^ k) (reduce _ (reduce _ (r * r) * b))
              ≡ reduce _ (reduce _ (r * r) * b) ^ 2 ^ k * b ^ (e % 2 ^ k)
                [MOD 2 ^ stateBits - 20023] := by
                rw [← clear_bit_mod e k]
                exact ih _ _
            _ ≡ (r * r * b) ^ 2 ^ k * b ^ (e % 2 ^ k) [MOD 2 ^ stateBits - 20023] :=
                ((hproduct.trans (hsquare.mul_right b)).pow _).mul_right _
            _ = r ^ 2 ^ (k + 1) * b ^ (e % 2 ^ k + 2 ^ k) := by
                rw [Nat.mul_pow, hpower, Nat.mul_assoc, ← Nat.pow_add, Nat.add_comm (2 ^ k)]
      | false =>
          rw [Bool.toNat_false, Nat.zero_mul, Nat.mul_zero, Nat.add_zero,
            if_neg (not_not.mpr rfl), ← hpower]
          exact (ih e _).trans ((hsquare.pow _).mul_right _)

/-- What has been reduced stays below `2 ^ 19937`. -/
theorem mangleLoop_lt (b k e : Nat) {r : Nat} (hr : r < 2 ^ stateBits) :
    mangleLoop b k e r < 2 ^ stateBits := by
  induction k generalizing e r with
  | zero => exact hr
  | succ k ih =>
      rw [mangleLoop]
      split
      · exact ih _ (reduce_spec seedOffset_lt _).1
      · exact ih _ (reduce_spec seedOffset_lt _).1

/-- **`mangle_seed`** raises to the power of 1074888996. -/
theorem mangleSeed_spec {r : Nat} (hr : r < 2 ^ stateBits) :
    mangleSeed r < 2 ^ stateBits ∧ mangleSeed r ≡ r ^ 1074888996 [MOD 2 ^ stateBits - 20023] := by
  refine ⟨mangleLoop_lt r 30 _ hr, ?_⟩
  have hpower := mangleLoop_modEq r 30 0x40118124 r
  rwa [← Nat.pow_add, show 2 ^ 30 + 0x40118124 % 2 ^ 30 = 1074888996 from rfl] at hpower

/-! ## The array -/

/-- `mpz_export` of the number without its highest bit: the words, least significant
one first. -/
def seedWords (seed1 : Nat) : List Nat :=
  Nat.digits (2 ^ 32) (if seed1.testBit topBit then seed1 - 2 ^ topBit else seed1)

/-- What `randseed_mt` writes to the array. -/
def seedBuffer (seed : Nat) : Vector UInt32 N :=
  let seed1 := mangleSeed (seed % (2 ^ stateBits - 20027) + 2)
  Vector.ofFn fun i =>
    if i.val = 0 then (if seed1.testBit topBit then 0x80000000 else 0)
    else UInt32.ofNat ((seedWords seed1).getD (i - 1) 0)

theorem warmUp_le : 2000 % N ≤ N := Nat.le_of_lt (Nat.mod_lt _ zero_lt_N)

/-- `randseed_mt`: the array is warmed up. -/
def randseedMt (seed : Nat) : RandState :=
  ⟨recalcBuffer^[2000 / N] (seedBuffer seed), 2000 % N, warmUp_le⟩

/-- The number in an array: the highest bit of its first word, and the other words. -/
def arrayNumber (mt : Vector UInt32 N) : Nat :=
  mt[0]!.toNat / 2 ^ 31 * 2 ^ topBit + number (fun i => mt[i + 1]!) 623

/-- Clearing the highest bit. -/
theorem clear_top_bit {x : Nat} (h : x < 2 ^ stateBits) :
    (if x.testBit topBit then x - 2 ^ topBit else x) = x % 2 ^ topBit ∧
      x / 2 ^ topBit = (x.testBit topBit).toNat := by
  have hpos := Nat.two_pow_pos topBit
  have hbits := mod_two_pow_succ x topBit
  have hparts := Nat.div_add_mod x (2 ^ topBit)
  rw [stateBits] at h
  rw [Nat.mod_eq_of_lt h] at hbits
  have hquotient : x / 2 ^ topBit = (x.testBit topBit).toNat :=
    Nat.eq_of_mul_eq_mul_left hpos (by omega)
  refine ⟨?_, hquotient⟩
  cases hbit : x.testBit topBit with
  | true =>
      rw [hbit, Bool.toNat_true, Nat.mul_one] at hbits
      rw [if_pos rfl]
      omega
  | false =>
      rw [hbit, Bool.toNat_false, Nat.mul_zero] at hbits
      exact (if_neg Bool.false_ne_true).trans hbits

/-- The words fit: `cnt <= N`. -/
theorem seedWords_length_le {seed1 : Nat} (h : seed1 < 2 ^ stateBits) :
    (seedWords seed1).length ≤ 623 := by
  have hwords : 32 * 623 = topBit := rfl
  rw [seedWords, (clear_top_bit h).1, Nat.digits_length_le_iff (by decide), ← Nat.pow_mul, hwords]
  exact Nat.mod_lt _ (Nat.two_pow_pos topBit)

/-- Zeros behind the digits do not count. -/
theorem ofDigits_getD (b : Nat) {digits : List Nat} {n : Nat} (h : digits.length ≤ n) :
    Nat.ofDigits b ((List.range n).map fun i => digits.getD i 0) = Nat.ofDigits b digits := by
  have hpadded : (List.range n).map (fun i => digits.getD i 0) =
      digits ++ List.replicate (n - digits.length) 0 := by
    refine List.ext_getElem ?_ fun i hi hi' => ?_
    · rw [List.length_map, List.length_range, List.length_append, List.length_replicate,
        Nat.add_sub_cancel' h]
    · rw [List.getElem_map, List.getElem_range, List.getElem_append]
      split
      · rename_i hdigit
        exact (List.getElem_eq_getD 0).symm
      · rename_i hzero
        rw [List.getElem_replicate, List.getD_eq_default _ _ (Nat.le_of_not_lt hzero)]
  rw [hpadded, Nat.ofDigits_append_replicate_zero]

/-- The words in the array, behind the first one. -/
theorem seedBuffer_word (seed : Nat) {i : Nat} (hi : i < 623) :
    (seedBuffer seed)[i + 1]!.toNat =
      (seedWords (mangleSeed (seed % (2 ^ stateBits - 20027) + 2))).getD i 0 := by
  have hword : ∀ d ∈ seedWords (mangleSeed (seed % (2 ^ stateBits - 20027) + 2)), d < 2 ^ 32 :=
    fun d hd => Nat.digits_lt_base (by decide) hd
  rw [getElem!_of_lt _ (Nat.succ_lt_succ hi), seedBuffer, Vector.getElem_ofFn,
    if_neg (Nat.succ_ne_zero i), UInt32.toNat_ofNat']
  refine Nat.mod_eq_of_lt ?_
  change (seedWords _).getD i 0 < 2 ^ 32
  rw [List.getD_eq_getElem?_getD]
  cases hget : (seedWords (mangleSeed (seed % (2 ^ stateBits - 20027) + 2)))[i]? with
  | none => decide
  | some d => exact hword d (List.mem_of_getElem? hget)

/-- The first word holds the highest bit. -/
theorem seedBuffer_first (seed : Nat) :
    (seedBuffer seed)[0]!.toNat / 2 ^ 31 =
      ((mangleSeed (seed % (2 ^ stateBits - 20027) + 2)).testBit topBit).toNat := by
  rw [getElem!_of_lt _ zero_lt_N, seedBuffer, Vector.getElem_ofFn, if_pos rfl]
  cases (mangleSeed (seed % (2 ^ stateBits - 20027) + 2)).testBit topBit with
  | true => rfl
  | false => rfl

theorem seed1_lt (seed : Nat) : seed % (2 ^ stateBits - 20027) + 2 < 2 ^ stateBits := by
  have hpos : 20027 < 2 ^ stateBits :=
    Nat.lt_trans (by decide : 20027 < 2 ^ 15) (Nat.pow_lt_pow_right (by decide) (by decide))
  have hmod := Nat.mod_lt seed (Nat.sub_pos_of_lt hpos)
  omega

/-- **The array** holds the power, bit for bit. -/
theorem arrayNumber_seedBuffer (seed : Nat) :
    arrayNumber (seedBuffer seed) = mangleSeed (seed % (2 ^ stateBits - 20027) + 2) := by
  obtain ⟨hlt, -⟩ := mangleSeed_spec (seed1_lt seed)
  have hwords : (List.range 623).map (fun i => (seedBuffer seed)[i + 1]!.toNat) =
      (List.range 623).map fun i =>
        (seedWords (mangleSeed (seed % (2 ^ stateBits - 20027) + 2))).getD i 0 :=
    List.map_congr_left fun i hi => seedBuffer_word seed (List.mem_range.mp hi)
  obtain ⟨hclear, htop⟩ := clear_top_bit hlt
  rw [arrayNumber, number, hwords, ofDigits_getD _ (seedWords_length_le hlt), seedBuffer_first,
    ← htop, seedWords, hclear, Nat.ofDigits_digits, Nat.mul_comm]
  exact Nat.div_add_mod _ _

/-! ## The seeded generator -/

/-- **Seeding.**  The words of a seeded generator are those of an array that holds a
power of the seed, from the 2000th on. -/
theorem randseedMt_spec (seed : Nat) :
    (∀ k, (randseedMt seed).words k = temper (terms (seedBuffer seed) (2000 + k))) ∧
      arrayNumber (seedBuffer seed) < 2 ^ stateBits ∧
      arrayNumber (seedBuffer seed) ≡ (seed % (2 ^ stateBits - 20027) + 2) ^ 1074888996
        [MOD 2 ^ stateBits - 20023] := by
  rw [arrayNumber_seedBuffer]
  refine ⟨fun k => ?_, mangleSeed_spec (seed1_lt seed)⟩
  have hterms : ∀ k, terms (seedBuffer seed) (k + N + N + N) =
      terms (recalcBuffer^[2000 / N] (seedBuffer seed)) k := by
    intro k
    rw [terms_add, terms_add, terms_add]
    rfl
  rw [RandState.words_eq, RandState.term]
  refine congrArg temper ((hterms _).symm.trans ?_)
  congr 1
  have hwarm : 2000 % N + N + N + N = 2000 := rfl
  change 2000 % N + k + N + N + N = 2000 + k
  omega

end ShardedLedger.Random
