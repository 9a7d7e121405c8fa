import ShardedLedger.KeyExchange.Hello
set_option autoImplicit false

/-!
# KeyExchange: what the server side does with a client hello it should refuse

`receive_client_hello` returns nothing.  For a short hello it prints an error and
leaves prime, `dhA` and `n0` unset; `server_get_session_key` goes on with them,
and nothing between the socket and GMP looks at the prime.

`serverSide` lists what happens after the `recv`: the two exponentiations, the
server hello, and the request loop of the caller, which both the shard and the
router enter without a check.
-/

namespace ShardedLedger.KeyExchange

open CString BigEndian Channel

/-- `client_payload_len` of `receive_client_hello`. -/
def clientHelloLen : Nat := dhKeySize + dhKeySize + nonceSize

/-- The fields of a whole client hello. -/
def clientHelloFields (payload : Bytes)
    (h : dhKeySize + dhKeySize + nonceSize ≤ payload.length) : ClientHello where
  prime := mpzImport (field dhKeySize 0 payload (first_field_fits h))
  dhA := mpzImport (field dhKeySize dhKeySize payload (second_field_fits h))
  n0 := field nonceSize (dhKeySize + dhKeySize) payload h

/-- What `receive_client_hello` decodes; `none` when the hello is too short. -/
def decodeClientHello (received : Option Bytes) : Option ClientHello :=
  match received with
  | none => none
  | some payload =>
      if h : dhKeySize + dhKeySize + nonceSize ≤ payload.length then
        some (clientHelloFields payload h)
      else none

/-- What the server side goes on with when nothing was decoded. -/
structure Unset where
  /-- The content of `prime`, `dhA` and `n0`. -/
  values : ClientHello
  /-- Whether the process is killed when GMP reads it. -/
  killed : Bool

/-- What the server side does after its `recv`. -/
inductive ServerStep where
  /-- `mpz_powm`, with the hello that had been decoded by then. -/
  | powm (decoded : Option ClientHello) (base exponent modulus : Nat)
  /-- The `send` of the server hello. -/
  | send (payload : Bytes)
  /-- The caller enters its request loop. -/
  | serve (sessionKey : SessionKey)

variable (hkdf : DhBytes → Salt → SessionKey) (aes : AesGcm)

/-- `server_get_session_key` from the result of its `recv` on, and the caller's
`handle_client` behind it. -/
def serverSide (identity : ServerIdentity) (buffers : ServerBuffers) (unset : Unset)
    (received : Option Bytes) (b : Nat) (n1 : Nonce) : List ServerStep :=
  let decoded := decodeClientHello received
  let hello := decoded.getD unset.values
  let sent := serverGetSessionKey hkdf aes identity buffers unset.values received b n1
  .powm decoded dhG b hello.prime ::
    if decoded.isNone && unset.killed then []
    -- `mpz_powm` divides by zero, and GMP raises `SIGFPE`
    else if hello.prime = 0 then []
    else [.powm decoded hello.dhA b hello.prime, .send sent.payload, .serve sent.sessionKey]

/-- Nothing leaves the server side: no hello, no session. -/
def Refuses (steps : List ServerStep) : Prop :=
  (∀ payload, .send payload ∉ steps) ∧ ∀ sessionKey, .serve sessionKey ∉ steps

/-- Whatever is drawn at random and stands in memory: the hello was received
whole and all exponentiations are done with its prime, which is not zero, or the
server side refuses; and no exponentiation is done before a hello was decoded,
or with the modulus zero. -/
def ServerSafe (delivered : Option Bytes) : Prop :=
  ∀ (hkdf : DhBytes → Salt → SessionKey) (aes : AesGcm) (identity : ServerIdentity)
    (buffers : ServerBuffers) (unset : Unset) (b : Nat) (n1 : Nonce),
    let steps := serverSide hkdf aes identity buffers unset (recv clientHelloLen delivered) b n1
    ((∃ payload hello, recv clientHelloLen delivered = some payload ∧ 528 ≤ payload.length ∧
        decodeClientHello (some payload) = some hello ∧ hello.prime ≠ 0 ∧
        ∀ decoded base exponent modulus, .powm decoded base exponent modulus ∈ steps →
          modulus = hello.prime) ∨ Refuses steps) ∧
    ∀ decoded base exponent modulus, .powm decoded base exponent modulus ∈ steps →
      decoded.isSome ∧ modulus ≠ 0

/-- `receive_client_hello` hands back what it decodes, or else leaves the values
as they were. -/
theorem receiveClientHello_eq (unset : ClientHello) (received : Option Bytes) :
    receiveClientHello unset received = (decodeClientHello received).getD unset := by
  cases received with
  | none => rfl
  | some payload =>
      unfold receiveClientHello decodeClientHello
      dsimp only
      split
      · rfl
      · rfl

/-- The prime of a whole hello is zero only if its first 256 bytes are. -/
theorem clientHelloFields_prime_eq_zero_iff (payload : Bytes)
    (h : dhKeySize + dhKeySize + nonceSize ≤ payload.length) :
    (clientHelloFields payload h).prime = 0 ↔ ∀ c ∈ payload.take 256, c = 0 := by
  have hfield : (clientHelloFields payload h).prime = ofBytes (payload.take 256) := rfl
  rw [hfield, ofBytes_eq_zero_iff]

/-- What is decoded of the delivered bytes. -/
theorem decodeClientHello_recv (payload : Bytes) :
    (∃ hello, decodeClientHello (recv clientHelloLen (some payload)) = some hello ∧
        hello.prime ≠ 0) ↔
      528 ≤ payload.length ∧ ∃ c ∈ payload.take 256, c ≠ 0 := by
  have hlength : (payload.take clientHelloLen).length = min 528 payload.length :=
    List.length_take
  have hfirst : (payload.take clientHelloLen).take 256 = payload.take 256 := by
    rw [List.take_take]
    rfl
  simp only [recv, Option.map_some, decodeClientHello]
  rcases Nat.lt_or_ge payload.length 528 with hshort | hlong
  · have hcut : ¬ dhKeySize + dhKeySize + nonceSize ≤ (payload.take clientHelloLen).length := by
      rw [hlength]
      exact Nat.not_le_of_lt (Nat.lt_of_le_of_lt (Nat.min_le_right _ _) hshort)
    simp only [dif_neg hcut, reduceCtorEq, false_and, exists_false, Nat.not_le_of_lt hshort]
  · have hcut : dhKeySize + dhKeySize + nonceSize ≤ (payload.take clientHelloLen).length := by
      rw [hlength]
      exact Nat.le_min.mpr ⟨Nat.le_refl _, hlong⟩
    have hlong' : 528 ≤ payload.length := hlong
    simp only [dif_pos hcut, Option.some.injEq, exists_eq_left', ne_eq,
      clientHelloFields_prime_eq_zero_iff, hfirst, not_forall, exists_prop, hlong', true_and]

section Decoded

variable {identity : ServerIdentity} {buffers : ServerBuffers} {unset : Unset}
  {received : Option Bytes} {b : Nat} {n1 : Nonce} {hello : ClientHello}

/-- With a decoded prime that is not zero, the handshake is carried through on
the decoded values. -/
theorem serverSide_of_decoded (hdecoded : decodeClientHello received = some hello)
    (hprime : hello.prime ≠ 0) :
    serverSide hkdf aes identity buffers unset received b n1 =
      [.powm (some hello) dhG b hello.prime, .powm (some hello) hello.dhA b hello.prime,
        .send (sendServerHello hkdf aes identity buffers hello b n1).payload,
        .serve (sendServerHello hkdf aes identity buffers hello b n1).sessionKey] := by
  unfold serverSide serverGetSessionKey
  rw [receiveClientHello_eq, hdecoded]
  simp only [Option.getD_some, Option.isNone_some, Bool.false_and, Bool.false_eq_true, if_false,
    hprime]

/-- Its exponentiations are done with the decoded prime. -/
theorem modulus_of_mem_serverSide (hdecoded : decodeClientHello received = some hello)
    (hprime : hello.prime ≠ 0) {decoded : Option ClientHello} {base exponent modulus : Nat}
    (h : .powm decoded base exponent modulus ∈
      serverSide hkdf aes identity buffers unset received b n1) :
    decoded = some hello ∧ modulus = hello.prime := by
  rw [serverSide_of_decoded hkdf aes hdecoded hprime] at h
  simp only [List.mem_cons, ServerStep.powm.injEq, reduceCtorEq, List.not_mem_nil,
    or_false] at h
  rcases h with ⟨rfl, _, _, rfl⟩ | ⟨rfl, _, _, rfl⟩
  · exact ⟨rfl, rfl⟩
  · exact ⟨rfl, rfl⟩

end Decoded

/-- A safe server side has decoded a prime: the first exponentiation comes
whatever was received. -/
theorem decodes_of_serverSafe {delivered : Option Bytes} (h : ServerSafe delivered) :
    ∃ hello, decodeClientHello (recv clientHelloLen delivered) = some hello ∧
      hello.prime ≠ 0 := by
  let zeros : DhBytes := List.Vector.replicate _ 0
  let nonce : Nonce := List.Vector.replicate _ 0
  obtain ⟨hsome, hprime⟩ := (h (fun _ _ => List.Vector.replicate _ 0) clearAes
    ⟨[], fun _ => []⟩ ⟨zeros, zeros, zeros⟩ ⟨⟨0, 0, nonce⟩, false⟩ 0 nonce).2 _ _ _ _
    List.mem_cons_self
  obtain ⟨hello, hdecoded⟩ := Option.isSome_iff_exists.mp hsome
  rw [hdecoded] at hprime
  exact ⟨hello, hdecoded, hprime⟩

/-- **The server side is safe exactly for whole hellos with a prime.**  Any other
hello reaches the first exponentiation, with the prime unset or zero. -/
theorem serverSafe_iff (delivered : Option Bytes) :
    ServerSafe delivered ↔
      ∃ payload, delivered = some payload ∧ 528 ≤ payload.length ∧
        ∃ c ∈ payload.take 256, c ≠ 0 := by
  constructor
  · intro h
    obtain ⟨hello, hdecoded, hprime⟩ := decodes_of_serverSafe h
    cases delivered with
    | none => simp [recv, decodeClientHello] at hdecoded
    | some payload =>
        exact ⟨payload, rfl, (decodeClientHello_recv payload).mp ⟨hello, hdecoded, hprime⟩⟩
  · rintro ⟨payload, rfl, hwhole⟩ hkdf aes identity buffers unset b n1
    obtain ⟨hello, hdecoded, hprime⟩ := (decodeClientHello_recv payload).mpr hwhole
    refine ⟨Or.inl ⟨payload.take clientHelloLen, hello, rfl, ?_, hdecoded, hprime, ?_⟩, ?_⟩
    · rw [List.length_take]
      exact Nat.le_min.mpr ⟨Nat.le_refl _, hwhole.1⟩
    · intro decoded base exponent modulus hmem
      exact (modulus_of_mem_serverSide hkdf aes hdecoded hprime hmem).2
    · intro decoded base exponent modulus hmem
      obtain ⟨rfl, rfl⟩ := modulus_of_mem_serverSide hkdf aes hdecoded hprime hmem
      exact ⟨rfl, hprime⟩

/-- The connection is closed instead of a hello, or the hello consists of zeros. -/
theorem refused_client_hellos_go_on :
    ¬ ServerSafe (some []) ∧ ¬ ServerSafe (some (List.replicate 528 0)) := by
  constructor
  · intro h
    obtain ⟨hlength, _⟩ := (decodeClientHello_recv []).mp (decodes_of_serverSafe h)
    exact absurd hlength (by decide)
  · intro h
    obtain ⟨_, c, hmem, hne⟩ := (decodeClientHello_recv _).mp (decodes_of_serverSafe h)
    exact hne (List.eq_of_mem_replicate (List.mem_of_mem_take hmem))

end ShardedLedger.KeyExchange
