import ShardedLedger.Channel.Parser
import ShardedLedger.KeyExchange.Hello
set_option autoImplicit false

/-!
# KeyExchange: the buffers of the server hello parser

`receive_server_hello` checks the length of what it received, but not what comes
out of `aes_decrypt`: the length of the certificate is that of the plaintext,
-1 after a failure, less 256, and `is_server_response_sign_valid` compares so many
bytes of the pinned file.  `helloInBounds_iff` says for which hellos all
accesses stay inside their arrays.
-/

namespace ShardedLedger.KeyExchange

open CString BigEndian Channel Bounds

/-- The accesses of `is_server_response_sign_valid`. -/
def signValidAccesses (verifier : Verifier) (publicKeyFile : Bytes) : List Access :=
  match verifier.serverPublicKey with
  -- `fseek` on a null pointer
  | none => [⟨0, 0, 1⟩]
  | some serverPublicKey =>
      let publicKeyLen : Int := publicKeyFile.length
      let serverPublicKeyLen : Int := serverPublicKey.length
      let dataLen := nonceSize * 2 + dhKeySize * 2 + serverPublicKeyLen
      -- `fread`, and both sides of `memcmp`
      [.whole serverPublicKeyLen, ⟨serverPublicKeyLen, 0, publicKeyLen⟩, .whole publicKeyLen] ++
        if (serverPublicKey ++ verifier.behind).take publicKeyFile.length ≠ publicKeyFile then []
        else
          fields dataLen 0 [nonceSize, nonceSize, dhKeySize, dhKeySize, serverPublicKeyLen] ++
            [.whole nonceSize, .whole nonceSize, .whole dhKeySize, .whole dhKeySize,
              .whole serverPublicKeyLen]

/-- The accesses with which the fields of a hello are copied, `dhB` is imported
and the ciphertext is decrypted. -/
def fieldAccesses (ciphertextLen : Int) : List Access :=
  fields helloPayloadLen 0 [dhKeySize, nonceSize, tagSize, ciphertextLen] ++
    [.whole dhKeySize, .whole nonceSize, .whole tagSize, .whole ciphertextLen] ++
    [.whole dhKeySize, .whole nonceSize, .whole tagSize, .whole ciphertextLen] ++
    fields ciphertextLen 0 [ciphertextLen, 0]

/-- The accesses with which the plaintext, of the length that `aes_decrypt`
returned, is split into signature and certificate. -/
def plaintextAccesses (ciphertextLen plaintextLen : Int) : List Access :=
  let serverPublicKeyLen := plaintextLen - signatureLen
  fields ciphertextLen 0 [signatureLen, serverPublicKeyLen] ++
    [.whole signatureLen, .whole serverPublicKeyLen]

/-- The accesses behind the split: the export of `dhA`, and the check of the
signature.  Without a plaintext that holds a signature the array
`server_public_key` has a negative size, and what follows is undefined. -/
def checkAccesses (verifier : Verifier) (client : ClientState) (plaintext : Option Bytes) :
    List Access :=
  match plaintext with
  | none => []
  | some plaintext =>
      if plaintext.length < signatureLen then []
      else
        ⟨dhKeySize, 0, (bytes (initializeValues client.prime client.a)).length⟩ ::
          signValidAccesses verifier (plaintext.drop signatureLen)

variable (hkdf : DhBytes → Salt → SessionKey) (aes : AesGcm)

/-- The accesses of `receive_server_hello`, from its `recv` on.  The export of the
master key is one of `get_master_key`, which both sides call; it is not listed here,
and is inside its array for every prime that fits one (`masterKeyExport_inside`). -/
def helloAccesses (verifier : Verifier) (client : ClientState) (received : Option Bytes) :
    List Access :=
  let payloadLen := dataLen received
  (if payloadLen < 0 then [] else [⟨helloPayloadLen, 0, payloadLen⟩]) ++
    match received.bind parseServerHello with
    | none => []
    | some hello =>
        let ciphertextLen := payloadLen - dhKeySize - nonceSize - tagSize
        let plaintext := aes.decrypt (client.deriveSessionKey hkdf hello) hello.n1
          hello.ciphertext hello.tag
        fieldAccesses ciphertextLen ++ plaintextAccesses ciphertextLen (dataLen plaintext) ++
          checkAccesses verifier client plaintext

/-- All accesses stay inside their arrays, whose sizes are not negative. -/
def HelloInBounds (verifier : Verifier) (client : ClientState) (received : Option Bytes) : Prop :=
  AllInside (helloAccesses hkdf aes verifier client received)

/-! ## The parts -/

/-- What `get_master_key` exports is less than the prime, and fits where the prime does. -/
theorem masterKeyExport_inside (dh secret : Nat) {prime : Nat} (hprime : 0 < prime)
    (hfits : prime < 256 ^ dhKeySize) :
    Access.Inside ⟨dhKeySize, 0, (bytes (powm dh secret prime)).length⟩ := by
  have hlt : powm dh secret prime < 256 ^ dhKeySize := Nat.lt_trans (Nat.mod_lt _ hprime) hfits
  rw [Access.inside_zero_iff, Int.ofNat_le, bytes_length_le_iff]
  exact ⟨Int.natCast_nonneg _, hlt⟩

/-- Decryption keeps the length. -/
theorem length_of_decrypt {key : SessionKey} {n1 : Nonce} {tag : Tag}
    {ciphertext plaintext : Bytes} (h : aes.decrypt key n1 ciphertext tag = some plaintext) :
    ciphertext.length = plaintext.length := by
  have hlength := aes.length_encrypt key n1 plaintext
  rwa [aes.encrypt_of_decrypt h] at hlength

/-- The fields of a hello that `recv` delivered are copied in bounds. -/
theorem fieldAccesses_inside {ciphertextLen : Int} (hpos : 0 ≤ ciphertextLen)
    (hfits : 288 + ciphertextLen ≤ helloPayloadLen) : AllInside (fieldAccesses ciphertextLen) := by
  unfold fieldAccesses
  simp only [allInside_append, allInside_cons, Access.whole_inside_iff, allInside_nil]
  rw [allInside_fields_iff (by omega) (by omega), allInside_fields_iff (by omega) hpos]
  simp only [helloPayloadLen, dhKeySize, nonceSize, tagSize] at hfits ⊢
  simp only [List.forall_mem_cons, List.not_mem_nil, false_implies, implies_true, and_true,
    List.sum_cons, List.sum_nil]
  omega

/-- The plaintext is split in bounds when it is as long as the ciphertext and
holds a signature. -/
theorem plaintextAccesses_inside_iff {ciphertextLen plaintextLen : Int} (hpos : 0 ≤ ciphertextLen)
    (hle : plaintextLen ≤ ciphertextLen) :
    AllInside (plaintextAccesses ciphertextLen plaintextLen) ↔ 256 ≤ plaintextLen := by
  unfold plaintextAccesses
  simp only [allInside_append, allInside_cons, Access.whole_inside_iff, allInside_nil]
  rw [allInside_fields_iff (by omega) hpos]
  simp only [signatureLen, List.forall_mem_cons, List.not_mem_nil, false_implies, implies_true,
    and_true, List.sum_cons, List.sum_nil]
  omega

/-- The pinned file is compared in bounds when the received certificate is not
longer. -/
theorem signValidAccesses_inside_iff (verifier : Verifier) (publicKeyFile : Bytes) :
    AllInside (signValidAccesses verifier publicKeyFile) ↔
      ∃ serverPublicKey, verifier.serverPublicKey = some serverPublicKey ∧
        publicKeyFile.length ≤ serverPublicKey.length := by
  unfold signValidAccesses
  cases hfile : verifier.serverPublicKey with
  | none => simp
  | some serverPublicKey =>
      simp only [Option.some.injEq, exists_eq_left', allInside_append, allInside_cons,
        Access.whole_inside_iff, Access.inside_zero_iff, allInside_nil]
      constructor
      · rintro ⟨⟨_, ⟨_, hle⟩, _⟩, _⟩
        exact Int.ofNat_le.mp hle
      · intro hle
        refine ⟨⟨by omega, ⟨by omega, by omega⟩, by omega, trivial⟩, ?_⟩
        split
        · exact allInside_nil
        · simp only [allInside_append, allInside_cons, Access.whole_inside_iff, allInside_nil]
          rw [allInside_fields_iff (by omega) (by omega)]
          simp only [dhKeySize, nonceSize, List.forall_mem_cons, List.not_mem_nil, false_implies,
            implies_true, and_true, List.sum_cons, List.sum_nil]
          omega

/-- A plaintext that holds a signature is checked in bounds when `dhA` fits and the
certificate is not longer than the pinned file. -/
theorem checkAccesses_inside_iff (verifier : Verifier) (client : ClientState) {plaintext : Bytes}
    (h : signatureLen ≤ plaintext.length) :
    AllInside (checkAccesses verifier client (some plaintext)) ↔
      initializeValues client.prime client.a < 256 ^ dhKeySize ∧
        ∃ serverPublicKey, verifier.serverPublicKey = some serverPublicKey ∧
          plaintext.length - signatureLen ≤ serverPublicKey.length := by
  unfold checkAccesses
  dsimp only
  rw [if_neg (Nat.not_lt.mpr h), allInside_cons, Access.inside_zero_iff,
    signValidAccesses_inside_iff, List.length_drop, Int.ofNat_le, bytes_length_le_iff]
  simp only [Int.natCast_nonneg, true_and]

/-- The accesses for a hello that is long enough: what its length does not decide
is the split of the plaintext and the check. -/
theorem helloInBounds_iff_of_parse (verifier : Verifier) (client : ClientState) {payload : Bytes}
    (hfits : payload.length ≤ helloPayloadLen) {hello : ServerHello}
    (hparse : parseServerHello payload = some hello) {plaintext : Option Bytes}
    (hdecrypt : aes.decrypt (client.deriveSessionKey hkdf hello) hello.n1 hello.ciphertext
      hello.tag = plaintext) :
    HelloInBounds hkdf aes verifier client (some payload) ↔
      AllInside (plaintextAccesses hello.ciphertext.length (dataLen plaintext)) ∧
        AllInside (checkAccesses verifier client plaintext) := by
  have hlength := length_of_parse hparse
  have hciphertextLen : (payload.length : Int) - dhKeySize - nonceSize - tagSize =
      hello.ciphertext.length := by
    simp only [dhKeySize, nonceSize, tagSize]
    omega
  have hrecv : (⟨helloPayloadLen, 0, payload.length⟩ : Access).Inside := by
    rw [Access.inside_zero_iff]
    omega
  have hfields : AllInside (fieldAccesses hello.ciphertext.length) :=
    fieldAccesses_inside (by omega) (by omega)
  have haccesses : helloAccesses hkdf aes verifier client (some payload) =
      ⟨helloPayloadLen, 0, payload.length⟩ :: (fieldAccesses hello.ciphertext.length ++
        plaintextAccesses hello.ciphertext.length (dataLen plaintext) ++
        checkAccesses verifier client plaintext) := by
    unfold helloAccesses
    rw [Option.bind_some, hparse]
    dsimp only [dataLen]
    rw [if_neg (Int.not_lt.mpr (Int.natCast_nonneg _)), hciphertextLen, hdecrypt]
    rfl
  rw [HelloInBounds, haccesses, allInside_cons, allInside_append, allInside_append]
  simp only [hrecv, hfields, true_and]

/-- A hello that is too short is only received. -/
theorem helloInBounds_of_short (verifier : Verifier) (client : ClientState) {payload : Bytes}
    (hfits : payload.length ≤ helloPayloadLen) (hparse : parseServerHello payload = none) :
    HelloInBounds hkdf aes verifier client (some payload) := by
  unfold HelloInBounds helloAccesses
  rw [Option.bind_some, hparse]
  dsimp only [dataLen]
  rw [if_neg (Int.not_lt.mpr (Int.natCast_nonneg _)), List.append_nil, allInside_cons,
    Access.inside_zero_iff]
  exact ⟨⟨by omega, by omega⟩, allInside_nil⟩

/-- For a hello that decrypts, they come down to the lengths of the two parts of
the plaintext. -/
theorem helloInBounds_iff_of_decrypt (verifier : Verifier) (client : ClientState)
    {payload : Bytes} (hfits : payload.length ≤ helloPayloadLen) {hello : ServerHello}
    (hparse : parseServerHello payload = some hello) {plaintext : Bytes}
    (hdecrypt : aes.decrypt (client.deriveSessionKey hkdf hello) hello.n1 hello.ciphertext
      hello.tag = some plaintext) :
    HelloInBounds hkdf aes verifier client (some payload) ↔
      ∃ serverPublicKey, verifier.serverPublicKey = some serverPublicKey ∧
        256 ≤ plaintext.length ∧ plaintext.length ≤ 256 + serverPublicKey.length ∧
        initializeValues client.prime client.a < 256 ^ dhKeySize := by
  have hsame := length_of_decrypt aes hdecrypt
  have hplaintextLen : dataLen (some plaintext) = plaintext.length := rfl
  rw [helloInBounds_iff_of_parse hkdf aes verifier client hfits hparse hdecrypt,
    hplaintextLen, plaintextAccesses_inside_iff (by omega) (by omega)]
  constructor
  · rintro ⟨hlong, hcheck⟩
    obtain ⟨hdhA, serverPublicKey, hfile, hle⟩ :=
      (checkAccesses_inside_iff verifier client (Int.ofNat_le.mp hlong)).mp hcheck
    simp only [signatureLen] at hle
    exact ⟨serverPublicKey, hfile, Int.ofNat_le.mp hlong, by omega, hdhA⟩
  · rintro ⟨serverPublicKey, hfile, hlong, hle, hdhA⟩
    refine ⟨Int.ofNat_le.mpr hlong, ?_⟩
    refine (checkAccesses_inside_iff verifier client hlong).mpr ⟨hdhA, serverPublicKey, hfile, ?_⟩
    simp only [signatureLen]
    omega

/-- **The server hello parser stays in bounds** exactly for a hello that it
rejects as too short, and for one that decrypts to a signature and a certificate
no longer than the pinned file, which can be opened (and `dhA` fits its array). -/
theorem helloInBounds_iff (verifier : Verifier) (client : ClientState)
    (delivered : Option Bytes) :
    HelloInBounds hkdf aes verifier client (recv helloPayloadLen delivered) ↔
      (∀ payload, recv helloPayloadLen delivered = some payload → payload.length < 288) ∨
        ∃ hello plaintext serverPublicKey,
          (recv helloPayloadLen delivered).bind parseServerHello = some hello ∧
          aes.decrypt (client.deriveSessionKey hkdf hello) hello.n1 hello.ciphertext hello.tag =
            some plaintext ∧
          verifier.serverPublicKey = some serverPublicKey ∧ 256 ≤ plaintext.length ∧
          plaintext.length ≤ 256 + serverPublicKey.length ∧
          initializeValues client.prime client.a < 256 ^ dhKeySize := by
  cases hreceived : recv helloPayloadLen delivered with
  | none =>
      refine iff_of_true allInside_nil (Or.inl ?_)
      intro payload h
      exact absurd h (by simp)
  | some payload =>
      have hfits : payload.length ≤ helloPayloadLen := by
        obtain ⟨bytes, _, rfl⟩ := Option.map_eq_some_iff.mp hreceived
        exact List.length_take_le _ _
      simp only [Option.some.injEq, forall_eq', Option.bind_some]
      cases hparse : parseServerHello payload with
      | none =>
          exact iff_of_true (helloInBounds_of_short hkdf aes verifier client hfits hparse)
            (Or.inl (length_lt_of_parse_none hparse))
      | some hello =>
          have hlength := length_of_parse hparse
          rw [or_iff_right (by omega)]
          simp only [Option.some.injEq, exists_and_left, exists_eq_left']
          cases hdecrypt : aes.decrypt (client.deriveSessionKey hkdf hello) hello.n1
              hello.ciphertext hello.tag with
          | none =>
              have hplaintextLen : dataLen (none : Option Bytes) = -1 := rfl
              rw [helloInBounds_iff_of_parse hkdf aes verifier client hfits hparse hdecrypt,
                hplaintextLen, plaintextAccesses_inside_iff (by omega) (by omega)]
              simp
          | some plaintext =>
              simp only [Option.some.injEq, exists_eq_left']
              exact helloInBounds_iff_of_decrypt hkdf aes verifier client hfits hparse hdecrypt

/-- A forged hello of 288 bytes, which does not decrypt, and a certificate that is
one byte longer than the pinned key. -/
theorem hellos_out_of_bounds :
    let hkdf : DhBytes → Salt → SessionKey := fun _ _ => List.Vector.replicate _ 0
    let verifier : Verifier := ⟨some (ascii "KEY"), [], true, true, fun _ _ => 0⟩
    let zeros : DhBytes := List.Vector.replicate _ 0
    let nonce : Nonce := List.Vector.replicate _ 0
    let client : ClientState := ⟨23, 3, nonce, ⟨zeros, zeros, zeros, zeros⟩⟩
    let long := zeros.toList ++ sendEncyptedData clearAes (hkdf zeros (createSalt nonce nonce)) nonce
      (List.replicate 256 0 ++ ascii "KEYS")
    ¬ HelloInBounds hkdf clearAes verifier client
        (recv helloPayloadLen (some (List.replicate 272 0 ++ List.replicate 16 1))) ∧
      ¬ HelloInBounds hkdf clearAes verifier client (recv helloPayloadLen (some long)) := by
  unfold HelloInBounds
  decide +kernel

end ShardedLedger.KeyExchange
