import ShardedLedger.KeyExchange.Agreement
set_option autoImplicit false

/-!
# KeyExchange: the signed transcript

Both sides build the byte string that the signature is about on their own: the
server from what it decoded and drew, the client from what it drew and what the
server hello brought.  In an honest handshake with numbers of full width the two
are the same, and the client accepts.
-/

namespace ShardedLedger.KeyExchange

open CString BigEndian Channel

/-- The byte string that `send_server_hello` passes to `sign_data`. -/
def serverTranscript (identity : ServerIdentity) (buffers : ServerBuffers) (hello : ClientHello)
    (b : Nat) (n1 : Nonce) : Bytes :=
  signedData hello.n0 n1 (mpzExport buffers.dhABytes hello.dhA)
    (mpzExport buffers.dhBBytes (initializeValues hello.prime b)) identity.certificate

/-- The byte string that `is_server_response_sign_valid` passes to
`validate_signed_data` when the pinned file is `certificate`. -/
def clientTranscript (client : ClientState) (hello : ServerHello) (certificate : Bytes) : Bytes :=
  signedData client.n0 hello.n1
    (mpzExport client.buffers.signedDhABytes (initializeValues client.prime client.a))
    hello.dhBBytes certificate

variable (hkdf : DhBytes → Salt → SessionKey) (aes : AesGcm)

/-- Verification of a matching certificate is a question about the transcript. -/
theorem verdict_of_decrypt (verifier : Verifier) (client : ClientState) (hello : ServerHello)
    {signature certificate : Bytes} (hlength : signature.length = signatureLen)
    (hpinned : verifier.serverPublicKey = some certificate)
    (hdecrypt : aes.decrypt (client.deriveSessionKey hkdf hello) hello.n1 hello.ciphertext
      hello.tag = some (signature ++ certificate)) :
    client.verdict hkdf aes verifier hello =
      validateSignedData verifier (clientTranscript client hello certificate) signature := by
  unfold ClientState.verdict isServerResponseSignValid
  rw [hdecrypt]
  dsimp only
  rw [if_neg (by rw [List.length_append]; omega), hpinned]
  dsimp only
  rw [List.drop_left' hlength, List.take_left' hlength, if_neg (not_not.mpr List.take_left)]
  rfl

/-! ## When the client accepts a session of the server -/

/-- The server decoded the client's public number and nonce, public numbers and
shared secret have 256 significant bytes, and both sides compute the same secret.
The prime that the server decoded is not mentioned. -/
structure NumbersMatch (client : ClientState) (clientHello : ClientHello) (b : Nat) : Prop where
  dhA_eq : clientHello.dhA = initializeValues client.prime client.a
  n0_eq : clientHello.n0 = client.n0
  dhA_ge : 256 ^ 255 ≤ initializeValues client.prime client.a
  dhA_lt : initializeValues client.prime client.a < 256 ^ dhKeySize
  dhB_ge : 256 ^ 255 ≤ initializeValues clientHello.prime b
  dhB_lt : initializeValues clientHello.prime b < 256 ^ dhKeySize
  secret_eq : powm clientHello.dhA b clientHello.prime =
    powm (initializeValues clientHello.prime b) client.a client.prime
  secret_ge : 256 ^ 255 ≤ powm clientHello.dhA b clientHello.prime
  secret_lt : powm clientHello.dhA b clientHello.prime < 256 ^ dhKeySize

section Session

variable (identity : ServerIdentity) (buffers : ServerBuffers) (clientHello : ClientHello)
  (b : Nat) (n1 : Nonce)

/-- The signature in the server hello. -/
def signatureOf : Bytes := identity.signData (serverTranscript identity buffers clientHello b n1)

/-- The fields of the server hello, as the client decodes them. -/
def helloOf : ServerHello :=
  let encrypted := aes.encrypt
    (sendServerHello hkdf aes identity buffers clientHello b n1).sessionKey n1
    (signatureOf identity buffers clientHello b n1 ++ identity.certificate)
  { dhBBytes := mpzExport buffers.dhBBytes (initializeValues clientHello.prime b)
    n1 := n1
    tag := encrypted.2
    ciphertext := encrypted.1 }

/-- A server hello with at most 1024 bytes of signature and certificate passes one
`recv` whole. -/
theorem parse_recv_sent
    (hlength : (signatureOf identity buffers clientHello b n1).length +
      identity.certificate.length ≤ 1024) :
    (recv helloPayloadLen
      (some (sendServerHello hkdf aes identity buffers clientHello b n1).payload)).bind
        parseServerHello = some (helloOf hkdf aes identity buffers clientHello b n1) := by
  have hparse : parseServerHello
      (sendServerHello hkdf aes identity buffers clientHello b n1).payload =
        some (helloOf hkdf aes identity buffers clientHello b n1) :=
    parseServerHello_send hkdf aes identity buffers clientHello b n1
  have hpayload := length_of_parse hparse
  have hciphertext : (helloOf hkdf aes identity buffers clientHello b n1).ciphertext.length =
      (signatureOf identity buffers clientHello b n1 ++ identity.certificate).length :=
    aes.length_encrypt _ _ _
  rw [List.length_append] at hciphertext
  rw [recv, Option.map_some, List.take_of_length_le, Option.bind_some, hparse]
  simp only [helloPayloadLen, dhKeySize, nonceSize, tagSize]
  omega

variable {client : ClientState} {identity buffers clientHello b n1}

/-- Both sides derive the same session key. -/
theorem NumbersMatch.sessionKey_eq (h : NumbersMatch client clientHello b) :
    client.deriveSessionKey hkdf (helloOf hkdf aes identity buffers clientHello b n1) =
      (sendServerHello hkdf aes identity buffers clientHello b n1).sessionKey := by
  have hdhB : mpzImport (helloOf hkdf aes identity buffers clientHello b n1).dhBBytes =
      initializeValues clientHello.prime b := mpzImport_mpzExport_of_full h.dhB_ge h.dhB_lt _
  have hmaster : getMasterKey (initializeValues clientHello.prime b) client.a client.prime
      client.buffers.masterKey =
        getMasterKey clientHello.dhA b clientHello.prime buffers.masterKey := by
    unfold getMasterKey
    rw [← h.secret_eq]
    exact mpzExport_of_full h.secret_ge h.secret_lt _ _
  unfold ClientState.deriveSessionKey generateSessionKey
  rw [hdhB, hmaster, ← h.n0_eq]
  rfl

/-- Both sides build the same transcript. -/
theorem NumbersMatch.transcript_eq (h : NumbersMatch client clientHello b) :
    clientTranscript client (helloOf hkdf aes identity buffers clientHello b n1)
        identity.certificate =
      serverTranscript identity buffers clientHello b n1 := by
  unfold clientTranscript serverTranscript
  rw [h.dhA_eq, h.n0_eq,
    mpzExport_of_full h.dhA_ge h.dhA_lt client.buffers.signedDhABytes buffers.dhABytes]
  rfl

/-- So the hello decrypts to signature and certificate. -/
theorem NumbersMatch.decrypt_eq (h : NumbersMatch client clientHello b) :
    let hello := helloOf hkdf aes identity buffers clientHello b n1
    aes.decrypt (client.deriveSessionKey hkdf hello) hello.n1 hello.ciphertext hello.tag =
      some (signatureOf identity buffers clientHello b n1 ++ identity.certificate) := by
  intro hello
  rw [h.sessionKey_eq hkdf aes]
  exact aes.decrypt_encrypt _ _ _

/-- And the client accepts it. -/
theorem NumbersMatch.verdict_eq (h : NumbersMatch client clientHello b) {verifier : Verifier}
    (hsignature : (signatureOf identity buffers clientHello b n1).length = signatureLen)
    (hpinned : verifier.serverPublicKey = some identity.certificate)
    (hreads : verifier.readsPublicKey = true)
    (hverifies : verifier.digestVerifyFinal (serverTranscript identity buffers clientHello b n1)
      (signatureOf identity buffers clientHello b n1) = 1) :
    client.verdict hkdf aes verifier (helloOf hkdf aes identity buffers clientHello b n1) =
      .returns 1 := by
  rw [verdict_of_decrypt hkdf aes verifier client _ hsignature hpinned (h.decrypt_eq hkdf aes),
    h.transcript_eq, validateSignedData, hreads]
  cases verifier.reopens with
  | false => rfl
  | true => exact congrArg Outcome.returns hverifies

end Session

/-! ## The honest handshake -/

/-- The client hello passes one `recv` whole. -/
theorem recv_sendClientHello (buffers : ClientBuffers) (prime dhA : Nat) (n0 : Nonce) :
    recv (dhKeySize + dhKeySize + nonceSize) (some (sendClientHello buffers prime dhA n0)) =
      some (sendClientHello buffers prime dhA n0) := by
  have hlength : (sendClientHello buffers prime dhA n0).length =
      dhKeySize + dhKeySize + nonceSize := by
    simp only [sendClientHello, List.length_append, List.Vector.toList_length]
  rw [recv, Option.map_some, ← hlength, List.take_length]

namespace Handshake

variable (handshake : Handshake)

/-- The client hello as the server reads it. -/
def clientHello : ClientHello :=
  receiveClientHello handshake.unset (recv (dhKeySize + dhKeySize + nonceSize)
    (some handshake.client.hello))

/-- What the server signs. -/
def transcript : Bytes :=
  serverTranscript handshake.identity handshake.serverBuffers handshake.clientHello handshake.b
    handshake.n1

/-- The signature in the server hello. -/
def signature : Bytes := handshake.identity.signData handshake.transcript

/-- Prime, public numbers and shared secret have 256 significant bytes. -/
structure NumbersFull : Prop where
  prime_ge : 256 ^ 255 ≤ handshake.client.prime
  prime_lt : handshake.client.prime < 256 ^ dhKeySize
  dhA_ge : 256 ^ 255 ≤ initializeValues handshake.client.prime handshake.client.a
  dhB_ge : 256 ^ 255 ≤ initializeValues handshake.client.prime handshake.b
  secret_ge : 256 ^ 255 ≤ powm dhG (handshake.client.a * handshake.b) handshake.client.prime

/-- The server answers the hello it read. -/
theorem server_eq :
    handshake.server hkdf aes =
      sendServerHello hkdf aes handshake.identity handshake.serverBuffers handshake.clientHello
        handshake.b handshake.n1 := by
  unfold server serverGetSessionKey clientHello
  rw [ClientState.hello, recv_sendClientHello]

variable {handshake}

theorem NumbersFull.pos (h : handshake.NumbersFull) : 0 < handshake.client.prime :=
  Nat.lt_of_lt_of_le (Nat.pow_pos (by decide)) h.prime_ge

theorem NumbersFull.powm_lt (h : handshake.NumbersFull) (base exponent : Nat) :
    powm base exponent handshake.client.prime < 256 ^ dhKeySize :=
  KeyExchange.powm_lt h.pos h.prime_lt base exponent

/-- The server reads the numbers that the client drew. -/
theorem NumbersFull.clientHello_eq (h : handshake.NumbersFull) :
    handshake.clientHello =
      { prime := handshake.client.prime
        dhA := initializeValues handshake.client.prime handshake.client.a
        n0 := handshake.client.n0 } := by
  have hdhA : initializeValues handshake.client.prime handshake.client.a < 256 ^ dhKeySize :=
    h.powm_lt _ _
  rw [clientHello, ClientState.hello, recv_sendClientHello, receiveClientHello_send,
    mpzImport_mpzExport_of_full h.prime_ge h.prime_lt, mpzImport_mpzExport_of_full h.dhA_ge hdhA]

/-- With the client's prime both sides compute the same secret. -/
theorem NumbersFull.numbersMatch (h : handshake.NumbersFull) :
    NumbersMatch handshake.client handshake.clientHello handshake.b := by
  have hserver : powm (initializeValues handshake.client.prime handshake.client.a) handshake.b
      handshake.client.prime =
        powm dhG (handshake.client.a * handshake.b) handshake.client.prime := by
    unfold initializeValues powm
    rw [← Nat.pow_mod, Nat.pow_mul]
  have hclient : powm (initializeValues handshake.client.prime handshake.b) handshake.client.a
      handshake.client.prime =
        powm dhG (handshake.client.a * handshake.b) handshake.client.prime := by
    unfold initializeValues powm
    rw [← Nat.pow_mod, Nat.mul_comm, Nat.pow_mul]
  rw [h.clientHello_eq]
  exact
    { dhA_eq := rfl
      n0_eq := rfl
      dhA_ge := h.dhA_ge
      dhA_lt := h.powm_lt _ _
      dhB_ge := h.dhB_ge
      dhB_lt := h.powm_lt _ _
      secret_eq := hserver.trans hclient.symm
      secret_ge := hserver ▸ h.secret_ge
      secret_lt := h.powm_lt _ _ }

end Handshake

/-- **An honest server is accepted.**  Its hello, received whole, is decoded to
the fields the server put in; it decrypts to the signature and the certificate;
the client verifies the byte string that the server signed, and accepts. -/
theorem honest_server_accepted (handshake : Handshake) (verifier : Verifier)
    (hfull : handshake.NumbersFull) (hsignature : handshake.signature.length = 256)
    (hcertificate : handshake.identity.certificate.length ≤ 768)
    (hpinned : verifier.serverPublicKey = some handshake.identity.certificate)
    (hreads : verifier.readsPublicKey = true)
    (hverifies : ∀ data, verifier.digestVerifyFinal data (handshake.identity.signData data) = 1) :
    let server := handshake.server hkdf aes
    let encrypted := aes.encrypt server.sessionKey handshake.n1
      (handshake.signature ++ handshake.identity.certificate)
    ∃ hello plaintext,
      (recv helloPayloadLen (some server.payload)).bind parseServerHello = some hello ∧
      hello = ⟨mpzExport handshake.serverBuffers.dhBBytes
          (initializeValues handshake.client.prime handshake.b), handshake.n1, encrypted.2,
        encrypted.1⟩ ∧
      aes.decrypt (handshake.client.deriveSessionKey hkdf hello) hello.n1 hello.ciphertext
        hello.tag = some plaintext ∧
      plaintext.take signatureLen = handshake.signature ∧
      plaintext.drop signatureLen = handshake.identity.certificate ∧
      clientTranscript handshake.client hello handshake.identity.certificate =
        handshake.transcript ∧
      handshake.client.verdict hkdf aes verifier hello = .returns 1 := by
  intro server encrypted
  have hmatch := hfull.numbersMatch
  have hprime : handshake.clientHello.prime = handshake.client.prime :=
    congrArg ClientHello.prime hfull.clientHello_eq
  have hserver : server = _ := handshake.server_eq hkdf aes
  rw [hserver, ← hprime]
  refine ⟨helloOf hkdf aes handshake.identity handshake.serverBuffers handshake.clientHello
    handshake.b handshake.n1, _, ?_, ?_, hmatch.decrypt_eq hkdf aes, List.take_left' hsignature,
    List.drop_left' hsignature, hmatch.transcript_eq hkdf aes, ?_⟩
  · refine parse_recv_sent hkdf aes _ _ _ _ _ ?_
    have hlength : (signatureOf handshake.identity handshake.serverBuffers handshake.clientHello
      handshake.b handshake.n1).length = 256 := hsignature
    omega
  · simp only [encrypted, hserver]
    rfl
  · exact hmatch.verdict_eq hkdf aes hsignature hpinned hreads (hverifies _)

/-- The one signature of the example. -/
def zeroSignature : Bytes := List.replicate 256 0

/-- A handshake of full-width numbers, with a server that signs so. -/
def honestHandshake : Handshake :=
  { transporting largePrime 883 884 (List.Vector.replicate _ 0) (List.Vector.replicate _ 0) with
    identity := ⟨ascii "KEY", fun _ => zeroSignature⟩ }

/-- The verifier of this signature. -/
def zerosVerifier : Verifier :=
  ⟨some (ascii "KEY"), [], true, true, fun _ signature => if signature = zeroSignature then 1 else 0⟩

/-- The theorem at this handshake. -/
theorem honest_server_accepted_largePrime :
    ∃ hello,
      (recv helloPayloadLen (some (honestHandshake.server (fun _ _ => List.Vector.replicate _ 7)
        clearAes).payload)).bind parseServerHello = some hello ∧
      honestHandshake.client.verdict (fun _ _ => List.Vector.replicate _ 7) clearAes zerosVerifier
        hello = .returns 1 := by
  have hfull : honestHandshake.NumbersFull :=
    ⟨by decide +kernel, by decide +kernel, by decide +kernel, by decide +kernel,
      by decide +kernel⟩
  have hverifies : ∀ data, zerosVerifier.digestVerifyFinal data
      (honestHandshake.identity.signData data) = 1 := by
    intro data
    unfold zerosVerifier honestHandshake
    simp only [if_true]
  obtain ⟨hello, _, hparse, _, _, _, _, _, haccepted⟩ := honest_server_accepted
    (fun _ _ => List.Vector.replicate _ 7) clearAes honestHandshake zerosVerifier hfull
    List.length_replicate (by decide) rfl rfl hverifies
  exact ⟨hello, hparse, haccepted⟩

end ShardedLedger.KeyExchange
