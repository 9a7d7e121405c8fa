import Mathlib
set_option autoImplicit false

/-!
# Foundation: shift registers

A sequence in which every term is a function of the `n` terms before it is
determined by any `n` consecutive terms (`Obeys.eq_of_window`).  An array that
is recomputed in place, entry after entry, reads new values on the left of the
current entry and old ones from there on (`sweep_getElem`).

Outputs of such a generator are usually terms combined with shifts of
themselves.  A combination with a shift can be undone: a word is found from it
by going round often enough (`unshift_right`, `unshift_left`).
-/

namespace ShardedLedger.ShiftRegister

/-! ## Sequences that a window determines -/

section Sequence

variable {α : Type*} {n : Nat}

/-- Every term is the function of the `n` terms before it. -/
def Obeys (next : (Fin n → α) → α) (x : Nat → α) : Prop :=
  ∀ k, x (k + n) = next fun i => x (k + i)

/-- **A window determines what follows**, wherever it stands in the two sequences. -/
theorem Obeys.eq_of_window {next : (Fin n → α) → α} {x y : Nat → α} (hx : Obeys next x)
    (hy : Obeys next y) {a b : Nat} (hwindow : ∀ i < n, x (a + i) = y (b + i)) (k : Nat) :
    x (a + k) = y (b + k) := by
  induction k using Nat.strong_induction_on with
  | _ k ih =>
      by_cases hk : k < n
      · exact hwindow k hk
      · obtain ⟨j, rfl⟩ : ∃ j, k = j + n := ⟨k - n, (Nat.sub_add_cancel (Nat.le_of_not_lt hk)).symm⟩
        rw [← Nat.add_assoc, ← Nat.add_assoc, hx, hy]
        congr 1
        funext i
        have hi := i.isLt
        rw [Nat.add_assoc, Nat.add_assoc]
        exact ih (j + i) (by omega)

end Sequence

/-! ## Arrays that are recomputed in place -/

section Sweep

variable {α : Type*} {n : Nat}

/-- The first `k` entries are recomputed, one after the other. -/
def sweep (f : Nat → Vector α n → α) (array : Vector α n) : Nat → Vector α n
  | 0 => array
  | k + 1 => (sweep f array k).setIfInBounds k (f k (sweep f array k))

/-- Left of the current entry stand new values, which stay; the others are the old ones. -/
theorem sweep_getElem (f : Nat → Vector α n → α) (array : Vector α n) (k : Nat) {i : Nat}
    (hi : i < n) : (sweep f array k)[i] = if i < k then f i (sweep f array i) else array[i] := by
  induction k with
  | zero => rfl
  | succ k ih =>
      rw [sweep, Vector.getElem_setIfInBounds, ih]
      by_cases hik : i = k
      · subst hik
        rw [if_pos rfl, if_pos (Nat.lt_succ_self _)]
      · rw [if_neg (Ne.symm hik)]
        refine if_congr ?_ rfl rfl
        omega

/-- In terms of the array that results. -/
theorem sweep_getElem_eq (f : Nat → Vector α n → α) (array : Vector α n) (k : Nat) {i : Nat}
    (hi : i < n) :
    (sweep f array k)[i] = if i < k then (sweep f array n)[i] else array[i] := by
  rw [sweep_getElem, sweep_getElem, if_pos hi]

/-- A loop over consecutive entries goes on with a sweep. -/
theorem foldl_range'_sweep (f : Nat → Vector α n → α) (array : Vector α n) (start count : Nat) :
    (List.range' start count).foldl (fun array k => array.setIfInBounds k (f k array))
      (sweep f array start) = sweep f array (start + count) := by
  induction count with
  | zero => rfl
  | succ count ih => rw [List.range'_concat, List.foldl_concat, ih, Nat.one_mul]; rfl

end Sweep

/-! ## Words combined with shifts of themselves -/

section Xor

variable {w : Nat}

/-- Going round `x = y ^^^ f x`, from `y` on. -/
def solve (f : BitVec w → BitVec w) (y : BitVec w) : Nat → BitVec w
  | 0 => y
  | n + 1 => y ^^^ f (solve f y n)

/-- What is still wrong after a number of rounds. -/
theorem solve_xor {f : BitVec w → BitVec w} (hf : ∀ a b, f (a ^^^ b) = f a ^^^ f b)
    (x : BitVec w) (n : Nat) : solve f (x ^^^ f x) n ^^^ x = f^[n + 1] x := by
  induction n with
  | zero =>
      change x ^^^ f x ^^^ x = f x
      rw [BitVec.xor_comm, ← BitVec.xor_assoc, BitVec.xor_self, BitVec.zero_xor]
  | succ n ih =>
      rw [Function.iterate_succ_apply', ← ih, hf, solve]
      rw [BitVec.xor_comm, BitVec.xor_assoc, ← BitVec.xor_assoc, BitVec.xor_self, BitVec.zero_xor,
        BitVec.xor_comm]

theorem solve_eq {f : BitVec w → BitVec w} (hf : ∀ a b, f (a ^^^ b) = f a ^^^ f b) {n : Nat}
    (hzero : ∀ a, f^[n] a = 0) (x : BitVec w) : solve f (x ^^^ f x) n = x := by
  have hwrong := solve_xor hf x n
  rw [Function.iterate_succ_apply, hzero] at hwrong
  exact BitVec.xor_eq_zero_iff.mp hwrong

/-- A shift to the right is undone. -/
theorem unshift_right {k : Nat} (hk : 0 < k) (x : BitVec w) :
    solve (fun x : BitVec w => x >>> k) (x ^^^ x >>> k) w = x := by
  refine solve_eq (fun a b => BitVec.ushiftRight_xor_distrib a b k) (fun a => ?_) x
  have hrounds : ∀ n, (fun x : BitVec w => x >>> k)^[n] a = a >>> (k * n) := by
    intro n
    induction n with
    | zero => rfl
    | succ n ih => rw [Function.iterate_succ_apply', ih, ← BitVec.shiftRight_add, Nat.mul_succ]
  rw [hrounds]
  exact BitVec.ushiftRight_eq_zero (Nat.le_mul_of_pos_left w hk)

/-- A masked shift to the left is undone. -/
theorem unshift_left {k : Nat} (hk : 0 < k) (mask x : BitVec w) :
    solve (fun x : BitVec w => x <<< k &&& mask) (x ^^^ (x <<< k &&& mask)) w = x := by
  refine solve_eq (fun a b => ?_) (fun a => ?_) x
  · rw [BitVec.shiftLeft_xor_distrib, BitVec.and_comm, BitVec.and_comm (a <<< k),
      BitVec.and_comm (b <<< k)]
    ext i hi
    simp only [BitVec.getElem_and, BitVec.getElem_xor, Bool.and_xor_distrib_left]
  · -- after `n` rounds the lowest `n` bits are clear
    have hrounds : ∀ n i, i < n → ((fun x : BitVec w => x <<< k &&& mask)^[n] a).getLsbD i = false := by
      intro n
      induction n with
      | zero => exact fun i hi => absurd hi (Nat.not_lt_zero i)
      | succ n ih =>
          intro i hi
          rw [Function.iterate_succ_apply', BitVec.getLsbD_and, BitVec.getLsbD_shiftLeft]
          by_cases hik : i < k
          · simp only [hik, decide_true, Bool.not_true, Bool.and_false, Bool.false_and]
          · rw [ih (i - k) (by omega), Bool.and_false, Bool.false_and]
    refine BitVec.eq_of_getLsbD_eq fun i hi => ?_
    rw [hrounds w i hi]
    exact BitVec.getLsbD_zero.symm

end Xor

end ShardedLedger.ShiftRegister
