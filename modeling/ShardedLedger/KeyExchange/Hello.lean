import ShardedLedger.Foundation.BigEndian
import ShardedLedger.Channel.Record
set_option autoImplicit false

/-!
# KeyExchange: the two hellos (`key_exchange.c`, `helper_func.c`, `certificates.c`)

The client draws prime, secret and nonce and sends them (the secret as `dhA`) in
the client hello; the server answers with `dhB`, its nonce and, encrypted under
the new session key, its signature and certificate.

GMP numbers are natural numbers.  What a run draws at random (secrets, nonces)
and what stands in a local array before it is written (`ClientBuffers`,
`ServerBuffers`) are arguments.  HKDF, AES-GCM, the signing key and OpenSSL's
verification are parameters.
-/

namespace ShardedLedger.KeyExchange

open CString BigEndian Channel

/-! ## Diffie-Hellman numbers (`helper_func.c`) -/

/-- `DH_KEY_SIZE`. -/
abbrev dhKeySize : Nat := 256

/-- `DH_G`. -/
def dhG : Nat := 5

/-- A number as it is transported. -/
abbrev DhBytes : Type := Buf dhKeySize

abbrev Salt : Type := Buf (nonceSize + nonceSize)

/-- `mpz_powm`.  GMP aborts for the modulus zero. -/
def powm (base exponent modulus : Nat) : Nat := base ^ exponent % modulus

/-- `initialize_values`: the public number of the secret it draws. -/
def initializeValues (prime secret : Nat) : Nat := powm dhG secret prime

/-- `get_master_key`: the content of `master_key_bytes` afterwards. -/
def getMasterKey (dh secret prime : Nat) (masterKeyBytes : DhBytes) : DhBytes :=
  mpzExport masterKeyBytes (powm dh secret prime)

/-- `create_salt`. -/
def createSalt (n0 n1 : Nonce) : Salt := ⟨n0.toList ++ n1.toList, by simp⟩

variable (hkdf : DhBytes → Salt → SessionKey)

/-- `generate_session_key`; `create_session_key` is the parameter `hkdf`. -/
def generateSessionKey (dh secret prime : Nat) (masterKeyBytes : DhBytes) (n0 n1 : Nonce) :
    SessionKey :=
  hkdf (getMasterKey dh secret prime masterKeyBytes) (createSalt n0 n1)

/-! ## Client hello -/

/-- What the arrays of the client side hold before they are written. -/
structure ClientBuffers where
  /-- `dhA_bytes` of `send_client_hello`. -/
  dhABytes : DhBytes
  primeBytes : DhBytes
  /-- `master_key` of `client_get_session_key`. -/
  masterKey : DhBytes
  /-- `dhA_bytes` of `receive_server_hello`. -/
  signedDhABytes : DhBytes

/-- The payload of `send_client_hello`. -/
def sendClientHello (buffers : ClientBuffers) (prime dhA : Nat) (n0 : Nonce) : Bytes :=
  (mpzExport buffers.primeBytes prime).toList ++ (mpzExport buffers.dhABytes dhA).toList ++
    n0.toList

/-- The `n` bytes of a payload from `offset` on. -/
def field (n offset : Nat) (payload : Bytes) (h : offset + n ≤ payload.length) : Buf n :=
  ⟨(payload.drop offset).take n, by rw [List.length_take, List.length_drop]; omega⟩

theorem first_field_fits {k m n : Nat} {payload : Bytes} (h : k + m + n ≤ payload.length) :
    0 + k ≤ payload.length := by omega

theorem second_field_fits {k m n : Nat} {payload : Bytes} (h : k + m + n ≤ payload.length) :
    k + m ≤ payload.length := by omega

/-- The values `receive_client_hello` hands back. -/
structure ClientHello where
  prime : Nat
  dhA : Nat
  n0 : Nonce

/-- `receive_client_hello` from the result of its `recv` on.  A hello that is too
short leaves the values as they were, which is what `unset` stands for. -/
def receiveClientHello (unset : ClientHello) (received : Option Bytes) : ClientHello :=
  match received with
  | none => unset
  | some payload =>
      if h : dhKeySize + dhKeySize + nonceSize ≤ payload.length then
        { prime := mpzImport (field dhKeySize 0 payload (first_field_fits h))
          dhA := mpzImport (field dhKeySize dhKeySize payload (second_field_fits h))
          n0 := field nonceSize (dhKeySize + dhKeySize) payload h }
      else unset

/-! ## Server hello -/

/-- What the server signs with its private key, and the public key it attaches. -/
structure ServerIdentity where
  /-- The public key that `get_public_key` derives, in PEM. -/
  certificate : Bytes
  /-- `sign_data`. -/
  signData : Bytes → Bytes

/-- The signed data: both nonces, both public numbers and the certificate. -/
def signedData (n0 n1 : Nonce) (dhABytes dhBBytes : DhBytes) (certificate : Bytes) : Bytes :=
  n0.toList ++ n1.toList ++ dhABytes.toList ++ dhBBytes.toList ++ certificate

/-- What the arrays of the server side hold before they are written. -/
structure ServerBuffers where
  dhBBytes : DhBytes
  /-- `master_key` of `server_get_session_key`. -/
  masterKey : DhBytes
  dhABytes : DhBytes

/-- The session key that `send_server_hello` derives, and the payload it sends. -/
structure SentServerHello where
  sessionKey : SessionKey
  payload : Bytes

variable (aes : AesGcm)

/-- `send_server_hello`; `b` and `n1` are drawn in it. -/
def sendServerHello (identity : ServerIdentity) (buffers : ServerBuffers) (hello : ClientHello)
    (b : Nat) (n1 : Nonce) : SentServerHello :=
  let dhBBytes := mpzExport buffers.dhBBytes (initializeValues hello.prime b)
  let sessionKey :=
    generateSessionKey hkdf hello.dhA b hello.prime buffers.masterKey hello.n0 n1
  let dhABytes := mpzExport buffers.dhABytes hello.dhA
  let signature :=
    identity.signData (signedData hello.n0 n1 dhABytes dhBBytes identity.certificate)
  let encrypted := aes.encrypt sessionKey n1 (signature ++ identity.certificate)
  { sessionKey := sessionKey
    payload := dhBBytes.toList ++ n1.toList ++ encrypted.2.toList ++ encrypted.1 }

/-- `server_get_session_key`. -/
def serverGetSessionKey (identity : ServerIdentity) (buffers : ServerBuffers)
    (unset : ClientHello) (received : Option Bytes) (b : Nat) (n1 : Nonce) : SentServerHello :=
  sendServerHello hkdf aes identity buffers (receiveClientHello unset received) b n1

/-! ## Verification (`certificates.c`) -/

/-- How a call comes out. -/
inductive Outcome (α : Type) where
  | returns (value : α)
  /-- The process ends with `exit`. -/
  | exits
  /-- The behaviour of the call is undefined. -/
  | undefined
  deriving DecidableEq

/-- What the file system and OpenSSL answer while a signature is verified. -/
structure Verifier where
  /-- `./keys/server.pem` as `get_public_key_file` reads it; `none` when it
  cannot be opened. -/
  serverPublicKey : Option Bytes
  /-- What stands in memory behind that copy of the file. -/
  behind : Bytes
  /-- Whether `validate_signed_data` can open the file again. -/
  reopens : Bool
  /-- Whether `PEM_read_PUBKEY` finds a public key in it. -/
  readsPublicKey : Bool
  /-- `EVP_DigestVerifyFinal` for the data and the signature. -/
  digestVerifyFinal : Bytes → Bytes → Int

/-- `validate_signed_data`. -/
def validateSignedData (verifier : Verifier) (data signature : Bytes) : Outcome Int :=
  if !verifier.reopens then .returns 1
  else if !verifier.readsPublicKey then .exits
  else .returns (verifier.digestVerifyFinal data signature)

/-- `is_server_response_sign_valid`.  The comparison runs over the length of the
received key `publicKeyFile`. -/
def isServerResponseSignValid (verifier : Verifier) (n0 n1 : Nonce)
    (dhABytes dhBBytes : DhBytes) (signature publicKeyFile : Bytes) : Outcome Int :=
  match verifier.serverPublicKey with
  -- `fseek` on a null pointer
  | none => .undefined
  | some serverPublicKey =>
      if (serverPublicKey ++ verifier.behind).take publicKeyFile.length ≠ publicKeyFile then
        .returns 0
      else
        validateSignedData verifier (signedData n0 n1 dhABytes dhBBytes serverPublicKey) signature

/-! ## Receiving the server hello -/

/-- `client_payload_len` of `receive_server_hello`. -/
def helloPayloadLen : Nat := dhKeySize + nonceSize + tagSize + 1024

/-- `signature_len`. -/
def signatureLen : Nat := 256

/-- The fields of a server hello. -/
structure ServerHello where
  dhBBytes : DhBytes
  n1 : Nonce
  tag : Tag
  ciphertext : Bytes

/-- The fields of a payload; `none` when it is too short. -/
def parseServerHello (payload : Bytes) : Option ServerHello :=
  if h : dhKeySize + nonceSize + tagSize ≤ payload.length then
    some
      { dhBBytes := field dhKeySize 0 payload (first_field_fits h)
        n1 := field nonceSize dhKeySize payload (second_field_fits h)
        tag := field tagSize (dhKeySize + nonceSize) payload h
        ciphertext := payload.drop (dhKeySize + nonceSize + tagSize) }
  else none

/-- What the client side of a handshake goes by. -/
structure ClientState where
  prime : Nat
  /-- The secret. -/
  a : Nat
  n0 : Nonce
  buffers : ClientBuffers

/-- The session key that `receive_server_hello` derives. -/
def ClientState.deriveSessionKey (client : ClientState) (hello : ServerHello) : SessionKey :=
  generateSessionKey hkdf (mpzImport hello.dhBBytes) client.a client.prime
    client.buffers.masterKey client.n0 hello.n1

/-- The decryption and the check of the signature in `receive_server_hello`.
Less than a signature's length of plaintext, or a failed decryption with its
length -1, makes the length of the array `server_public_key` negative. -/
def ClientState.verdict (verifier : Verifier) (client : ClientState) (hello : ServerHello) :
    Outcome Int :=
  match aes.decrypt (client.deriveSessionKey hkdf hello) hello.n1 hello.ciphertext hello.tag with
  | none => .undefined
  | some plaintext =>
      if plaintext.length < signatureLen then .undefined
      else
        isServerResponseSignValid verifier client.n0 hello.n1
          (mpzExport client.buffers.signedDhABytes (initializeValues client.prime client.a))
          hello.dhBBytes (plaintext.take signatureLen) (plaintext.drop signatureLen)

/-- `receive_server_hello` from the result of its `recv` on: the content of
`session_key` afterwards, which was `sessionKey` before.  An invalid signature
is printed, and the function goes on. -/
def receiveServerHello (verifier : Verifier) (client : ClientState) (sessionKey : SessionKey)
    (received : Option Bytes) : Outcome SessionKey :=
  match received.bind parseServerHello with
  | none => .returns sessionKey
  | some hello =>
      match client.verdict hkdf aes verifier hello with
      | .returns _ => .returns (client.deriveSessionKey hkdf hello)
      | .exits => .exits
      | .undefined => .undefined

/-- The client hello of `client_get_session_key`. -/
def ClientState.hello (client : ClientState) : Bytes :=
  sendClientHello client.buffers client.prime (initializeValues client.prime client.a) client.n0

/-- `client_get_session_key`, after the client hello has gone out. -/
def clientGetSessionKey (verifier : Verifier) (client : ClientState) (sessionKey : SessionKey)
    (received : Option Bytes) : Outcome SessionKey :=
  receiveServerHello hkdf aes verifier client sessionKey received

/-! ## Hellos and their parsers -/

/-- A field of a payload is what stands there. -/
theorem field_eq {n : Nat} {payload : Bytes} {content : Buf n} (front rest : Bytes)
    (hpayload : payload = front ++ (content.toList ++ rest)) {offset : Nat}
    (hoffset : front.length = offset) (h : offset + n ≤ payload.length) :
    field n offset payload h = content := by
  apply List.Vector.toList_injective
  change (payload.drop offset).take n = content.toList
  rw [hpayload, List.drop_left' hoffset]
  exact List.take_left' content.toList_length

/-- What is parsed has a ciphertext of the remaining length. -/
theorem length_of_parse {payload : Bytes} {hello : ServerHello}
    (h : parseServerHello payload = some hello) :
    payload.length = 288 + hello.ciphertext.length := by
  unfold parseServerHello at h
  split at h
  · rename_i hlength
    obtain rfl := Option.some.inj h
    simp only [dhKeySize, nonceSize, tagSize] at hlength ⊢
    rw [List.length_drop]
    omega
  · simp at h

theorem length_lt_of_parse_none {payload : Bytes} (h : parseServerHello payload = none) :
    payload.length < 288 := by
  unfold parseServerHello at h
  split at h
  · simp at h
  · rename_i hshort
    exact Nat.lt_of_not_le hshort

/-- The server reads, from a whole client hello, what the transported arrays hold. -/
theorem receiveClientHello_send (unset : ClientHello) (buffers : ClientBuffers)
    (prime dhA : Nat) (n0 : Nonce) :
    receiveClientHello unset (some (sendClientHello buffers prime dhA n0)) =
      { prime := mpzImport (mpzExport buffers.primeBytes prime)
        dhA := mpzImport (mpzExport buffers.dhABytes dhA)
        n0 := n0 } := by
  have hlength : dhKeySize + dhKeySize + nonceSize ≤
      (sendClientHello buffers prime dhA n0).length := by
    simp [sendClientHello, Nat.add_assoc]
  simp only [receiveClientHello, dif_pos hlength]
  congr 1
  · exact congrArg mpzImport (field_eq []
      ((mpzExport buffers.dhABytes dhA).toList ++ n0.toList) (by simp [sendClientHello]) rfl _)
  · exact congrArg mpzImport (field_eq (mpzExport buffers.primeBytes prime).toList n0.toList
      (by simp [sendClientHello]) (by simp) _)
  · exact field_eq ((mpzExport buffers.primeBytes prime).toList ++
      (mpzExport buffers.dhABytes dhA).toList) [] (by simp [sendClientHello])
      (by simp) hlength

/-- The client reads, from a whole server hello, the fields the server put in. -/
theorem parseServerHello_send (identity : ServerIdentity) (buffers : ServerBuffers)
    (hello : ClientHello) (b : Nat) (n1 : Nonce) :
    let sent := sendServerHello hkdf aes identity buffers hello b n1
    let dhBBytes := mpzExport buffers.dhBBytes (initializeValues hello.prime b)
    let dhABytes := mpzExport buffers.dhABytes hello.dhA
    let encrypted := aes.encrypt sent.sessionKey n1
      (identity.signData (signedData hello.n0 n1 dhABytes dhBBytes identity.certificate) ++
        identity.certificate)
    parseServerHello sent.payload =
      some { dhBBytes := dhBBytes, n1 := n1, tag := encrypted.2, ciphertext := encrypted.1 } := by
  intro sent dhBBytes dhABytes encrypted
  have hpayload : sent.payload =
      dhBBytes.toList ++ n1.toList ++ encrypted.2.toList ++ encrypted.1 := rfl
  have hlength : dhKeySize + nonceSize + tagSize ≤ sent.payload.length := by
    rw [hpayload]
    simp only [List.length_append, List.Vector.toList_length]
    omega
  simp only [parseServerHello, dif_pos hlength]
  congr 2
  · exact field_eq [] (n1.toList ++ encrypted.2.toList ++ encrypted.1)
      (by simp [hpayload]) rfl _
  · exact field_eq dhBBytes.toList (encrypted.2.toList ++ encrypted.1)
      (by simp [hpayload]) (by simp) _
  · exact field_eq (dhBBytes.toList ++ n1.toList) encrypted.1 (by simp [hpayload]) (by simp) _
  · rw [hpayload]
    exact List.drop_left' (by simp [Nat.add_assoc])

end ShardedLedger.KeyExchange
