import ShardedLedger.Foundation.Generator
import ShardedLedger.Foundation.ShiftRegister
set_option autoImplicit false

/-!
# Random: the generator behind `gmp_randinit_mt`

All random numbers of the programs come from one Mersenne Twister per process:
an array of 624 words, recomputed in place when it is used up
(`recalcBuffer_getElem`), and an output function of single words.  So the outputs
are the terms of one recurrence, tempered (`RandState.words_eq`), and
`mpz_urandomb` returns the next ones as a number (`mpzUrandomb_eq`).  The limbs
are those of a 64-bit machine.
-/

namespace ShardedLedger.Random

open ShiftRegister Generator

/-! ## The array -/

/-- `N`: the number of words in the array. -/
abbrev N : Nat := 624

/-- `M`: how far ahead the word is that the recurrence adds. -/
abbrev M : Nat := 397

/-- `MATRIX_A`. -/
def matrixA : UInt32 := 0x9908B0DF

/-- The recurrence: the highest bit of one word, the others of the next one, and a
word further on. -/
def twist (word next far : UInt32) : UInt32 :=
  let y := (word &&& 0x80000000) ||| (next &&& 0x7FFFFFFF)
  far ^^^ (y >>> 1) ^^^ (if y &&& 0x01 ≠ 0 then matrixA else 0)

/-- The assignment in the loops of `__gmp_mt_recalc_buffer`. -/
def recalcEntry (mt : Vector UInt32 N) (kk next far : Nat) : Vector UInt32 N :=
  mt.setIfInBounds kk (twist mt[kk]! mt[next]! mt[far]!)

/-- `__gmp_mt_recalc_buffer`. -/
def recalcBuffer (mt : Vector UInt32 N) : Vector UInt32 N :=
  let mt := (List.range (N - M)).foldl (fun mt kk => recalcEntry mt kk (kk + 1) (kk + M)) mt
  let mt := (List.range' (N - M) (M - 1)).foldl
    (fun mt kk => recalcEntry mt kk (kk + 1) (kk - (N - M))) mt
  recalcEntry mt (N - 1) 0 (M - 1)

/-- The state of a generator: the array, and the index of the next word. -/
structure RandState where
  mt : Vector UInt32 N
  mti : Nat
  mti_le : mti ≤ N

/-- The output function of `NEXT_RANDOM`. -/
def temper (y : UInt32) : UInt32 :=
  let y := y ^^^ (y >>> 11)
  let y := y ^^^ ((y <<< 7) &&& 0x9D2C5680)
  let y := y ^^^ ((y <<< 15) &&& 0xEFC60000)
  y ^^^ (y >>> 18)

theorem zero_lt_N : 0 < N := by decide

theorem one_lt_N : 1 < N := by decide

theorem M_lt_N : M < N := by decide

/-- `NEXT_RANDOM`: the word, and the state behind it. -/
def nextRandom (state : RandState) : UInt32 × RandState :=
  if h : state.mti < N then
    (temper state.mt[state.mti]!, ⟨state.mt, state.mti + 1, h⟩)
  else
    let mt := recalcBuffer state.mt
    (temper mt[0]!, ⟨mt, 1, zero_lt_N⟩)

/-! ## Numbers -/

/-- The limbs that `__gmp_randget_mt` fills: two words each, the first one in the
lower half. -/
def fullLimbs : Nat → RandState → List UInt64 × RandState
  | 0, state => ([], state)
  | nlimbs + 1, state =>
      let low := nextRandom state
      let high := nextRandom low.2
      let rest := fullLimbs nlimbs high.2
      ((low.1.toUInt64 ||| (high.1.toUInt64 <<< 32)) :: rest.1, rest.2)

/-- `y & ~(ULONG_MAX << rbits)`. -/
def lowBits (y : UInt32) (rbits : Nat) : UInt64 :=
  y.toUInt64 &&& ~~~((-1 : UInt64) <<< UInt64.ofNat rbits)

/-- The limb of `__gmp_randget_mt` that is filled in part. -/
def lastLimb (rbits : Nat) (state : RandState) : List UInt64 × RandState :=
  if rbits = 0 then ([], state)
  else
    let low := nextRandom state
    if rbits < 32 then ([lowBits low.1 rbits], low.2)
    else if rbits = 32 then ([low.1.toUInt64], low.2)
    else
      let high := nextRandom low.2
      ([low.1.toUInt64 ||| (lowBits high.1 (rbits - 32) <<< 32)], high.2)

/-- `__gmp_randget_mt`. -/
def randgetMt (nbits : Nat) (state : RandState) : List UInt64 × RandState :=
  let full := fullLimbs (nbits / 64) state
  let last := lastLimb (nbits % 64) full.2
  (full.1 ++ last.1, last.2)

/-- `mpz_urandomb`: the number with these limbs. -/
def mpzUrandomb (nbits : Nat) (state : RandState) : Nat × RandState :=
  let drawn := randgetMt nbits state
  (Nat.ofDigits (2 ^ 64) (drawn.1.map UInt64.toNat), drawn.2)

/-! ## The recurrence -/

/-- What `__gmp_mt_recalc_buffer` assigns to an entry. -/
def recalcValue (kk : Nat) (mt : Vector UInt32 N) : UInt32 :=
  if kk < N - M then twist mt[kk]! mt[kk + 1]! mt[kk + M]!
  else if kk < N - 1 then twist mt[kk]! mt[kk + 1]! mt[kk - (N - M)]!
  else twist mt[kk]! mt[0]! mt[M - 1]!

theorem recalcBuffer_eq_sweep (mt : Vector UInt32 N) :
    recalcBuffer mt = sweep recalcValue mt N := by
  have hfirst : (List.range (N - M)).foldl (fun mt kk => recalcEntry mt kk (kk + 1) (kk + M)) mt =
      sweep recalcValue mt (N - M) := by
    have hsweep := foldl_range'_sweep recalcValue mt 0 (N - M)
    rw [Nat.zero_add] at hsweep
    rw [← hsweep, List.range_eq_range']
    refine List.foldl_ext _ _ _ fun mt kk hkk => ?_
    have hkk' : kk < N - M := by
      have := (List.mem_range'_1.mp hkk).2
      omega
    rw [recalcEntry, recalcValue, if_pos hkk']
  have hsecond : (List.range' (N - M) (M - 1)).foldl
      (fun mt kk => recalcEntry mt kk (kk + 1) (kk - (N - M))) (sweep recalcValue mt (N - M)) =
      sweep recalcValue mt (N - 1) := by
    have hsweep := foldl_range'_sweep recalcValue mt (N - M) (M - 1)
    refine (List.foldl_ext _ _ _ fun mt kk hkk => ?_).trans hsweep
    obtain ⟨hfrom, hto⟩ := List.mem_range'_1.mp hkk
    have hkk' : kk < N - 1 := hto
    rw [recalcEntry, recalcValue, if_neg (Nat.not_lt.mpr hfrom), if_pos hkk']
  rw [recalcBuffer, hfirst, hsecond]
  rfl

theorem getElem!_of_lt (mt : Vector UInt32 N) {i : Nat} (hi : i < N) : mt[i]! = mt[i] :=
  getElem!_pos mt i hi

/-- While the entry `kk` is recomputed, the entries before it are new. -/
theorem sweep_recalcValue (mt : Vector UInt32 N) (kk : Nat) {i : Nat} (hi : i < N) :
    (sweep recalcValue mt kk)[i]! = if i < kk then (recalcBuffer mt)[i]! else mt[i]! := by
  rw [getElem!_of_lt _ hi, getElem!_of_lt _ hi, getElem!_of_lt _ hi, sweep_getElem_eq,
    recalcBuffer_eq_sweep]

/-- The term with the number `k`, if the array holds the first ones. -/
def terms (mt : Vector UInt32 N) (k : Nat) : UInt32 := (recalcBuffer^[k / N] mt)[k % N]!

theorem terms_of_lt (mt : Vector UInt32 N) {k : Nat} (hk : k < N) : terms mt k = mt[k]! := by
  rw [terms, Nat.div_eq_of_lt hk, Nat.mod_eq_of_lt hk]
  rfl

theorem terms_add (mt : Vector UInt32 N) (k : Nat) :
    terms mt (k + N) = terms (recalcBuffer mt) k := by
  rw [terms, Nat.add_div_right _ (by decide), Nat.add_mod_right, Function.iterate_succ_apply, terms]

/-- The recurrence, as a function of 624 terms. -/
def twistWindow (window : Fin N → UInt32) : UInt32 :=
  twist (window ⟨0, zero_lt_N⟩) (window ⟨1, one_lt_N⟩) (window ⟨M, M_lt_N⟩)

/-- One recomputation continues the recurrence. -/
theorem terms_twist_of_lt (mt : Vector UInt32 N) {k : Nat} (hk : k < N) :
    terms mt (k + N) = twist (terms mt k) (terms mt (k + 1)) (terms mt (k + M)) := by
  have hnew : terms mt (k + N) = recalcValue k (sweep recalcValue mt k) := by
    rw [terms_add, terms_of_lt _ hk, recalcBuffer_eq_sweep, getElem!_of_lt _ hk, sweep_getElem,
      if_pos hk]
  have hword : (sweep recalcValue mt k)[k]! = terms mt k := by
    rw [sweep_recalcValue mt k hk, if_neg (Nat.lt_irrefl k), terms_of_lt mt hk]
  have hold : ∀ {j}, k < j → j < N → (sweep recalcValue mt k)[j]! = terms mt j := by
    intro j hkj hj
    rw [sweep_recalcValue mt k hj, if_neg (Nat.not_lt.mpr (Nat.le_of_lt hkj)), terms_of_lt mt hj]
  have hdone : ∀ {j}, j < k → j < N → (sweep recalcValue mt k)[j]! = terms mt (j + N) := by
    intro j hjk hj
    rw [sweep_recalcValue mt k hj, if_pos hjk, terms_add, terms_of_lt _ hj]
  have hN : N = 624 := rfl
  have hM : M = 397 := rfl
  rw [hnew, recalcValue, hword]
  split
  · rw [hold (by omega) (by omega), hold (by omega) (by omega)]
  · have hwrap : terms mt (k + M) = (sweep recalcValue mt k)[k - (N - M)]! := by
      have hsum : k + M = (k - (N - M)) + N := by omega
      rw [hsum, hdone (by omega) (by omega)]
    split
    · rw [hold (by omega) (by omega), hwrap]
    · have hlast : k = N - 1 := by omega
      have hfirst : k + 1 = 0 + N := by omega
      have hfar : k - (N - M) = M - 1 := by omega
      rw [hwrap, hfar, hfirst, hdone (by omega) (by omega)]

/-- **The recurrence**: the terms go on as one sequence, however often the array is
recomputed. -/
theorem terms_twist (mt : Vector UInt32 N) (k : Nat) :
    terms mt (k + N) = twist (terms mt k) (terms mt (k + 1)) (terms mt (k + M)) := by
  induction k using Nat.strong_induction_on generalizing mt with
  | _ k ih =>
      by_cases hk : k < N
      · exact terms_twist_of_lt mt hk
      · obtain ⟨j, rfl⟩ : ∃ j, k = j + N :=
          ⟨k - N, (Nat.sub_add_cancel (Nat.le_of_not_lt hk)).symm⟩
        have hnext := ih j (Nat.lt_add_of_pos_right zero_lt_N) (recalcBuffer mt)
        rw [← terms_add, ← terms_add, ← terms_add, ← terms_add, Nat.add_right_comm j 1,
          Nat.add_right_comm j M] at hnext
        exact hnext

theorem terms_obey (mt : Vector UInt32 N) : Obeys twistWindow (terms mt) := fun k => by
  rw [terms_twist, twistWindow]
  rfl

/-! ## The outputs -/

/-- The terms that are not used up. -/
def RandState.term (state : RandState) (k : Nat) : UInt32 := terms state.mt (state.mti + k)

/-- The state when `n` words have been taken. -/
def RandState.skip (state : RandState) (n : Nat) : RandState :=
  (fun state => (nextRandom state).2)^[n] state

/-- The words that the generator will return. -/
def RandState.words (state : RandState) : Words := fun n => (nextRandom (state.skip n)).1

theorem nextRandom_eq (state : RandState) :
    (nextRandom state).1 = temper (state.term 0) ∧
      ∀ k, (nextRandom state).2.term k = state.term (k + 1) := by
  unfold nextRandom
  split
  · rename_i h
    refine ⟨congrArg temper (terms_of_lt state.mt h).symm, fun k => ?_⟩
    · change terms state.mt (state.mti + 1 + k) = terms state.mt (state.mti + (k + 1))
      rw [Nat.add_assoc, Nat.add_comm 1 k]
  · rename_i h
    have hend : state.mti = N := Nat.le_antisymm state.mti_le (Nat.le_of_not_lt h)
    have hterms : ∀ k, terms state.mt (state.mti + k) = terms (recalcBuffer state.mt) k := by
      intro k
      rw [hend, Nat.add_comm N, terms_add]
    refine ⟨congrArg temper ?_, fun k => ?_⟩
    · exact ((hterms 0).trans (terms_of_lt _ zero_lt_N)).symm
    · change terms (recalcBuffer state.mt) (1 + k) = terms state.mt (state.mti + (k + 1))
      rw [hterms, Nat.add_comm 1 k]

theorem RandState.skip_succ (state : RandState) (n : Nat) :
    state.skip (n + 1) = (nextRandom (state.skip n)).2 := Function.iterate_succ_apply' _ _ _

theorem RandState.skip_skip (state : RandState) (m n : Nat) :
    (state.skip m).skip n = state.skip (m + n) := by
  rw [Nat.add_comm]
  exact (Function.iterate_add_apply _ n m state).symm

theorem RandState.skip_term (state : RandState) (n k : Nat) :
    (state.skip n).term k = state.term (n + k) := by
  induction n generalizing k with
  | zero => rw [Nat.zero_add]; rfl
  | succ n ih => rw [skip_succ, (nextRandom_eq _).2, ih, Nat.add_right_comm, Nat.add_assoc]

/-- **The outputs** are the terms of the recurrence, tempered. -/
theorem RandState.words_eq (state : RandState) (n : Nat) :
    state.words n = temper (state.term n) := by
  rw [words, (nextRandom_eq _).1, skip_term, Nat.add_zero]

theorem RandState.words_skip (state : RandState) (m n : Nat) :
    (state.skip m).words n = state.words (m + n) := by
  rw [words, words, skip_skip]

theorem RandState.skip_words (state : RandState) (m : Nat) :
    (state.skip m).words = fun n => state.words (m + n) := funext (state.words_skip m)

/-! ## Numbers -/

/-- The number in the first words, the first one least significant. -/
def number (words : Words) (count : Nat) : Nat :=
  Nat.ofDigits (2 ^ 32) ((List.range count).map fun j => (words j).toNat)

theorem number_lt (words : Words) (count : Nat) : number words count < 2 ^ (32 * count) := by
  have h := Nat.ofDigits_lt_base_pow_length (b := 2 ^ 32)
    (l := (List.range count).map fun j => (words j).toNat) (by decide) (by
      intro d hd
      obtain ⟨j, _, rfl⟩ := List.mem_map.mp hd
      exact (words j).toNat_lt)
  rwa [List.length_map, List.length_range, ← Nat.pow_mul] at h

theorem number_add (words : Words) (m n : Nat) :
    number words (m + n) =
      number words m + 2 ^ (32 * m) * number (fun j => words (m + j)) n := by
  rw [number, List.range_add, List.map_append, Nat.ofDigits_append, List.map_map, List.length_map,
    List.length_range, ← Nat.pow_mul]
  rfl

theorem number_two (words : Words) :
    number words 2 = (words 0).toNat + 2 ^ 32 * (words 1).toNat := by
  rw [number_add words 1 1]
  simp [number]

theorem number_one (words : Words) : number words 1 = (words 0).toNat := by
  simp [number]

/-- Cutting a number with a full lower part cuts the upper part. -/
theorem add_shifted_mod {a low : Nat} (hlow : low < 2 ^ a) (r high : Nat) :
    (low + 2 ^ a * high) % 2 ^ (a + r) = low + 2 ^ a * (high % 2 ^ r) := by
  rw [Nat.pow_add, Nat.mod_mul, Nat.add_mul_mod_self_left, Nat.mod_eq_of_lt hlow,
    Nat.add_mul_div_left _ _ (Nat.two_pow_pos a), Nat.div_eq_of_lt hlow, Nat.zero_add]

/-- The two halves of a limb. -/
theorem limb_toNat (low : UInt32) {high : UInt64} (hhigh : high.toNat < 2 ^ 32) :
    (low.toUInt64 ||| (high <<< 32)).toNat = low.toNat + 2 ^ 32 * high.toNat := by
  rw [UInt64.toNat_or, UInt64.toNat_shiftLeft, UInt32.toNat_toUInt64, Nat.or_comm,
    show (32 : UInt64).toNat % 64 = 32 from rfl, Nat.shiftLeft_eq,
    Nat.mod_eq_of_lt (by omega), Nat.mul_comm, ← Nat.two_pow_add_eq_or_of_lt low.toNat_lt,
    Nat.add_comm]

/-- The mask keeps the lowest bits. -/
theorem lowBits_toNat (y : UInt32) {rbits : Nat} (h : rbits < 32) :
    (lowBits y rbits).toNat = y.toNat % 2 ^ rbits := by
  have hmask : ∀ r < 32, (~~~((-1 : UInt64) <<< UInt64.ofNat r)).toNat = 2 ^ r - 1 := by decide
  rw [lowBits, UInt64.toNat_and, hmask rbits h, UInt32.toNat_toUInt64,
    Nat.and_two_pow_sub_one_eq_mod]

theorem fullLimbs_eq (nlimbs : Nat) (state : RandState) :
    Nat.ofDigits (2 ^ 64) ((fullLimbs nlimbs state).1.map UInt64.toNat) =
        number state.words (2 * nlimbs) ∧
      (fullLimbs nlimbs state).1.length = nlimbs ∧
      (fullLimbs nlimbs state).2 = state.skip (2 * nlimbs) := by
  induction nlimbs generalizing state with
  | zero => exact ⟨rfl, rfl, rfl⟩
  | succ nlimbs ih =>
      obtain ⟨hnumber, hlength, hstate⟩ := ih (nextRandom (nextRandom state).2).2
      have hskip : (nextRandom (nextRandom state).2).2 = state.skip 2 := rfl
      rw [hskip] at hnumber hlength hstate
      refine ⟨?_, ?_, ?_⟩
      · rw [fullLimbs, List.map_cons, Nat.ofDigits_cons, hskip, hnumber, limb_toNat,
          RandState.skip_words,
          Nat.mul_succ, Nat.add_comm, Nat.add_comm (2 * nlimbs), number_add, number_two,
          UInt32.toNat_toUInt64]
        · rw [Nat.add_comm]
          rfl
        · rw [UInt32.toNat_toUInt64]
          exact UInt32.toNat_lt _
      · rw [fullLimbs, List.length_cons, hskip, hlength]
      · rw [fullLimbs, hskip, hstate, RandState.skip_skip, Nat.mul_succ, Nat.add_comm]

theorem lastLimb_eq {rbits : Nat} (h : rbits < 64) (state : RandState) :
    Nat.ofDigits (2 ^ 64) ((lastLimb rbits state).1.map UInt64.toNat) =
        number state.words ((rbits + 31) / 32) % 2 ^ rbits ∧
      (lastLimb rbits state).2 = state.skip ((rbits + 31) / 32) := by
  have hfirst : (nextRandom state).1 = state.words 0 := rfl
  have hsecond : (nextRandom (nextRandom state).2).1 = state.words 1 := rfl
  unfold lastLimb
  dsimp only
  split
  · rename_i hnone
    subst hnone
    exact ⟨rfl, rfl⟩
  · rename_i hsome
    split
    · rename_i hshort
      have hcount : (rbits + 31) / 32 = 1 := by omega
      refine ⟨?_, by rw [hcount]; rfl⟩
      rw [List.map_singleton, Nat.ofDigits_singleton, lowBits_toNat _ hshort, hcount, number_one,
        hfirst]
    · split
      · rename_i hword
        subst hword
        refine ⟨?_, rfl⟩
        rw [List.map_singleton, Nat.ofDigits_singleton, UInt32.toNat_toUInt64, number_one, hfirst,
          Nat.mod_eq_of_lt (UInt32.toNat_lt _)]
      · have hcount : (rbits + 31) / 32 = 2 := by omega
        refine ⟨?_, by rw [hcount]; rfl⟩
        have hsplit : rbits = 32 + (rbits - 32) := by omega
        have hlow := lowBits_toNat (state.words 1) (show rbits - 32 < 32 by omega)
        have hbound : (lowBits (state.words 1) (rbits - 32)).toNat < 2 ^ 32 := by
          rw [hlow]
          exact Nat.lt_of_le_of_lt (Nat.mod_le _ _) (UInt32.toNat_lt _)
        have hcut := add_shifted_mod (state.words 0).toNat_lt (rbits - 32) (state.words 1).toNat
        rw [← hsplit] at hcut
        rw [List.map_singleton, Nat.ofDigits_singleton, hfirst, hsecond, limb_toNat _ hbound, hlow,
          hcount, number_two, hcut]

/-- **`mpz_urandomb`** returns the next words as one number, cut to the bits that were
asked for, and takes no more words than that needs. -/
theorem mpzUrandomb_eq (nbits : Nat) (state : RandState) :
    mpzUrandomb nbits state =
      (number state.words ((nbits + 31) / 32) % 2 ^ nbits, state.skip ((nbits + 31) / 32)) := by
  obtain ⟨hfull, hlength, hstate⟩ := fullLimbs_eq (nbits / 64) state
  have hrest : nbits % 64 < 64 := Nat.mod_lt _ (by decide)
  obtain ⟨hlast, hstate'⟩ := lastLimb_eq hrest (state.skip (2 * (nbits / 64)))
  have hcount : (nbits + 31) / 32 = 2 * (nbits / 64) + (nbits % 64 + 31) / 32 := by omega
  have hbits : nbits = 32 * (2 * (nbits / 64)) + nbits % 64 := by omega
  have hcut := add_shifted_mod (number_lt state.words (2 * (nbits / 64))) (nbits % 64)
    (number (fun j => state.words (2 * (nbits / 64) + j)) ((nbits % 64 + 31) / 32))
  rw [← hbits, ← number_add, ← hcount] at hcut
  refine Prod.ext ?_ ?_
  · simp only [mpzUrandomb, randgetMt, hstate]
    rw [List.map_append, Nat.ofDigits_append, List.length_map, hlength, hfull, hlast,
      RandState.skip_words, hcut, ← Nat.pow_mul, ← Nat.mul_assoc]
  · simp only [mpzUrandomb, randgetMt, hstate, hstate', RandState.skip_skip, hcount]

/-- Numbers of the given sizes, one after the other. -/
def drawAll : List Nat → RandState → List Nat
  | [], _ => []
  | nbits :: sizes, state =>
      (mpzUrandomb nbits state).1 :: drawAll sizes (mpzUrandomb nbits state).2

/-- Numbers of the given sizes, as they stand in a stream of words. -/
def readAll : List Nat → Words → List Nat
  | [], _ => []
  | nbits :: sizes, words =>
      number words ((nbits + 31) / 32) % 2 ^ nbits ::
        readAll sizes fun j => words ((nbits + 31) / 32 + j)

theorem drawAll_eq_readAll (sizes : List Nat) (state : RandState) :
    drawAll sizes state = readAll sizes state.words := by
  induction sizes generalizing state with
  | nil => rfl
  | cons nbits sizes ih =>
      rw [drawAll, readAll, ih, mpzUrandomb_eq, RandState.skip_words]

/-- **Draws.**  Whatever is drawn from a generator, in whatever sizes, is read off one
sequence of words that obeys the recurrence: what is left of a word is dropped, and
no word is used twice. -/
theorem drawAll_spec (state : RandState) :
    ∃ x : Nat → UInt32, (∀ k, x (k + N) = twist (x k) (x (k + 1)) (x (k + M))) ∧
      (∀ k, state.mti + k < N → x k = state.mt[state.mti + k]!) ∧
      ∀ sizes, drawAll sizes state = readAll sizes fun n => temper (x n) := by
  refine ⟨state.term, fun k => ?_, fun k hk => terms_of_lt _ hk, fun sizes => ?_⟩
  · have hnext := terms_twist state.mt (state.mti + k)
    rwa [Nat.add_assoc, Nat.add_assoc, Nat.add_assoc] at hnext
  · rw [drawAll_eq_readAll]
    exact congrArg (readAll sizes) (funext state.words_eq)

/-! ## What the outputs reveal -/

/-- The words that `temper` goes through, undone. -/
def untemper (y : UInt32) : UInt32 :=
  let y := solve (fun x : BitVec 32 => x >>> 18) y.toBitVec 32
  let y := solve (fun x : BitVec 32 => x <<< 15 &&& 0xEFC60000) y 32
  let y := solve (fun x : BitVec 32 => x <<< 7 &&& 0x9D2C5680) y 32
  UInt32.ofBitVec (solve (fun x : BitVec 32 => x >>> 11) y 32)

theorem untemper_temper (y : UInt32) : untemper (temper y) = y := by
  have hright : ∀ x : UInt32, (x ^^^ (x >>> 18)).toBitVec = x.toBitVec ^^^ x.toBitVec >>> 18 :=
    fun _ => rfl
  have hleft : ∀ x : UInt32, (x ^^^ ((x <<< 15) &&& 0xEFC60000)).toBitVec =
      x.toBitVec ^^^ (x.toBitVec <<< 15 &&& 0xEFC60000) := fun _ => rfl
  have hleft' : ∀ x : UInt32, (x ^^^ ((x <<< 7) &&& 0x9D2C5680)).toBitVec =
      x.toBitVec ^^^ (x.toBitVec <<< 7 &&& 0x9D2C5680) := fun _ => rfl
  have hright' : (y ^^^ (y >>> 11)).toBitVec = y.toBitVec ^^^ y.toBitVec >>> 11 := rfl
  simp only [untemper, temper, hright]
  rw [unshift_right (by decide), hleft, unshift_left (by decide), hleft', unshift_left (by decide),
    hright', unshift_right (by decide)]

/-- A generator for which 624 outputs stand in the array, untempered. -/
def cloneState (outputs : Fin N → UInt32) : RandState :=
  ⟨Vector.ofFn fun i => untemper (outputs i), N, Nat.le_refl N⟩

theorem cloneState_term (outputs : Fin N → UInt32) {i : Nat} (hi : i < N) :
    terms (cloneState outputs).mt i = untemper (outputs ⟨i, hi⟩) := by
  rw [terms_of_lt _ hi, getElem!_of_lt _ hi]
  exact Vector.getElem_ofFn hi

/-- **624 outputs in a row determine all later ones**, and the generator that is built
from them returns these. -/
theorem cloneState_words (state : RandState) (n k : Nat) :
    (cloneState fun i => state.words (n + i)).words k = state.words (n + N + k) := by
  let clone := cloneState fun i => state.words (n + i)
  have hwindow : ∀ i < N, terms clone.mt (0 + i) = terms state.mt (state.mti + n + i) := by
    intro i hi
    rw [Nat.zero_add, cloneState_term _ hi, RandState.words_eq, untemper_temper, RandState.term,
      Nat.add_assoc]
  have hterms := (terms_obey clone.mt).eq_of_window (terms_obey state.mt) hwindow (N + k)
  rw [RandState.words_eq, RandState.words_eq]
  refine congrArg temper ?_
  change terms clone.mt (N + k) = terms state.mt (state.mti + (n + N + k))
  rw [Nat.zero_add] at hterms
  rw [hterms]
  congr 1
  omega

end ShardedLedger.Random
