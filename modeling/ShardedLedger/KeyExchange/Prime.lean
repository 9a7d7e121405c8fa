import ShardedLedger.Foundation.Bounds
import ShardedLedger.Foundation.Primes
import ShardedLedger.KeyExchange.Hello
set_option autoImplicit false

/-!
# KeyExchange: the prime of the client (`get_big_prime`)

The prime is the next one after a random number of `DH_NUM_BITS` bits.  The draw
may be any number below `2 ^ 2048`, a small one too, so the prime need not have
2048 bits; and from the last prime below `2 ^ 2048` on it has more than fit the
256 bytes that `send_client_hello` exports it to (`strongPrime_iff`).
-/

namespace ShardedLedger.KeyExchange

open CString BigEndian Primes Bounds

/-- `DH_NUM_BITS`. -/
abbrev dhNumBits : Nat := 2048

/-- `get_big_prime` when `mpz_urandomb` draws `randomNumber`; `mpz_nextprime` is
the least prime above it. -/
def getBigPrime (randomNumber : Nat) : Nat := nextPrime randomNumber

/-- What `mpz_export` writes into `prime_bytes`. -/
def primeExport (prime : Nat) : Access := ⟨dhKeySize, 0, (bytes prime).length⟩

/-- The prime has `DH_NUM_BITS` bits, and its export fills `prime_bytes`. -/
structure StrongPrime (prime : Nat) : Prop where
  ge : 2 ^ (dhNumBits - 1) ≤ prime
  lt : prime < 2 ^ dhNumBits
  width : (bytes prime).length = dhKeySize
  inside : (primeExport prime).Inside

theorem two_pow_dhNumBits : (2 : Nat) ^ dhNumBits = 256 ^ dhKeySize := by
  rw [show (256 : Nat) = 2 ^ 8 from rfl, ← Nat.pow_mul]
  exact congrArg (2 ^ ·) (by decide)

/-- The export stays inside `prime_bytes` as long as a number below `2 ^ 2048` is
exported. -/
theorem primeExport_inside_iff (prime : Nat) :
    (primeExport prime).Inside ↔ prime < 2 ^ dhNumBits := by
  rw [two_pow_dhNumBits, ← bytes_length_le_iff, primeExport, Access.inside_zero_iff]
  omega

/-- A number of 2048 bits fills the array. -/
theorem bytes_length_of_dhNumBits {prime : Nat} (hge : 2 ^ (dhNumBits - 1) ≤ prime)
    (hlt : prime < 2 ^ dhNumBits) : (bytes prime).length = dhKeySize := by
  rw [two_pow_dhNumBits] at hlt
  have hlow : 256 ^ (dhKeySize - 1) ≤ 2 ^ (dhNumBits - 1) := by
    rw [show (256 : Nat) = 2 ^ 8 from rfl, ← Nat.pow_mul]
    exact Nat.pow_le_pow_right (by decide) (by decide)
  exact (bytes_length_eq_iff (by decide) hlt).mpr (Nat.le_trans hlow hge)

theorem strongPrime_iff_bits (prime : Nat) :
    StrongPrime prime ↔ 2 ^ (dhNumBits - 1) ≤ prime ∧ prime < 2 ^ dhNumBits := by
  constructor
  · exact fun h => ⟨h.ge, h.lt⟩
  · rintro ⟨hge, hlt⟩
    exact ⟨hge, hlt, bytes_length_of_dhNumBits hge hlt, (primeExport_inside_iff prime).mpr hlt⟩

/-- **The prime is a 2048-bit number** exactly for the draws from the last prime
below `2 ^ 2047` up to, and without, the last prime below `2 ^ 2048`. -/
theorem strongPrime_iff (randomNumber : Nat) :
    StrongPrime (getBigPrime randomNumber) ↔
      lastPrimeBelow (2 ^ (dhNumBits - 1)) ≤ randomNumber ∧
        randomNumber < lastPrimeBelow (2 ^ dhNumBits) := by
  rw [strongPrime_iff_bits, getBigPrime, le_nextPrime_iff, nextPrime_lt_iff]

/-- For the draw 0 the prime is 2; for the greatest draw it is no number of 256
bytes any more. -/
theorem weak_and_oversized_primes :
    (getBigPrime 0 = 2 ∧ ¬ StrongPrime (getBigPrime 0)) ∧
    (2 ^ dhNumBits - 1 < 2 ^ dhNumBits ∧
      ¬ (primeExport (getBigPrime (2 ^ dhNumBits - 1))).Inside ∧
      ¬ StrongPrime (getBigPrime (2 ^ dhNumBits - 1))) := by
  have hpos : 0 < 2 ^ dhNumBits := Nat.two_pow_pos dhNumBits
  have hsmall : getBigPrime 0 = 2 :=
    Nat.le_antisymm (nextPrime_le Nat.prime_two (by decide)) (prime_nextPrime 0).two_le
  have hlarge : 2 ^ dhNumBits ≤ getBigPrime (2 ^ dhNumBits - 1) := by
    have := lt_nextPrime (2 ^ dhNumBits - 1)
    rw [getBigPrime]
    omega
  refine ⟨⟨hsmall, fun h => ?_⟩, Nat.sub_lt hpos Nat.one_pos, ?_, fun h => ?_⟩
  · have hge := h.ge
    rw [hsmall] at hge
    have hlt : 2 ^ 1 < 2 ^ (dhNumBits - 1) := Nat.pow_lt_pow_right (by decide) (by decide)
    omega
  · rw [primeExport_inside_iff]
    exact Nat.not_lt.mpr hlarge
  · exact Nat.not_lt.mpr hlarge h.lt

end ShardedLedger.KeyExchange
