import Mathlib.Data.Nat.Prime.Infinite
import Mathlib.Data.Nat.Find
set_option autoImplicit false

/-!
# Foundation: the next prime and the last one

`nextPrime r` is the least prime above `r`, `lastPrimeBelow n` the greatest below
`n`.  `nextPrime_lt_iff` connects them: where the next prime falls shows in where
`r` stands.
-/

namespace ShardedLedger.Primes

theorem exists_prime_gt (r : Nat) : ∃ q, r < q ∧ q.Prime :=
  Nat.exists_infinite_primes (r + 1)

/-- The least prime greater than `r`. -/
def nextPrime (r : Nat) : Nat := Nat.find (exists_prime_gt r)

theorem lt_nextPrime (r : Nat) : r < nextPrime r := (Nat.find_spec (exists_prime_gt r)).1

theorem prime_nextPrime (r : Nat) : (nextPrime r).Prime := (Nat.find_spec (exists_prime_gt r)).2

theorem nextPrime_le {r q : Nat} (hq : q.Prime) (h : r < q) : nextPrime r ≤ q :=
  Nat.find_min' (exists_prime_gt r) ⟨h, hq⟩

/-- The greatest prime less than `n`; zero if there is none. -/
def lastPrimeBelow (n : Nat) : Nat := Nat.findGreatest Nat.Prime (n - 1)

theorem le_lastPrimeBelow {n q : Nat} (hq : q.Prime) (h : q < n) : q ≤ lastPrimeBelow n :=
  Nat.le_findGreatest (by omega) hq

/-- Where there is a prime below `n`, the last one is one. -/
theorem lastPrimeBelow_spec {n : Nat} (h : lastPrimeBelow n ≠ 0) :
    (lastPrimeBelow n).Prime ∧ lastPrimeBelow n < n := by
  have hprime : (lastPrimeBelow n).Prime := Nat.findGreatest_of_ne_zero rfl h
  have hle : lastPrimeBelow n ≤ n - 1 := Nat.findGreatest_le (n - 1)
  exact ⟨hprime, by omega⟩

/-- The next prime stays below `n` as long as the last prime below `n` is still
ahead. -/
theorem nextPrime_lt_iff (r n : Nat) : nextPrime r < n ↔ r < lastPrimeBelow n := by
  constructor
  · intro h
    exact Nat.lt_of_lt_of_le (lt_nextPrime r) (le_lastPrimeBelow (prime_nextPrime r) h)
  · intro h
    obtain ⟨hprime, hlt⟩ := lastPrimeBelow_spec (Nat.ne_zero_of_lt h)
    exact Nat.lt_of_le_of_lt (nextPrime_le hprime h) hlt

/-- And it reaches `n` once that prime is behind. -/
theorem le_nextPrime_iff (r n : Nat) : n ≤ nextPrime r ↔ lastPrimeBelow n ≤ r := by
  rw [← Nat.not_lt, nextPrime_lt_iff, Nat.not_lt]

end ShardedLedger.Primes
