import ShardedLedger.Foundation.BigEndian
import ShardedLedger.Foundation.SecureChannel
set_option autoImplicit false

/-!
# Channel: encrypted records (`shared_functions/helper_func.c`)

A record is nonce, tag and ciphertext, one after the other, without a length.
`send_encypted_data` builds one and passes it to a single `send`;
`receive_encypted_data` makes a single `recv` of up to 2080 bytes and takes what
that call returns for one record.

AES-256-GCM of OpenSSL is the parameter `aes`.  The nonce, which
`get_random_bytes` fills with a drawn number, is an argument.
-/

namespace ShardedLedger.Channel

open CString BigEndian SecureChannel

/-- `DH_NONCE_SIZE`. -/
abbrev nonceSize : Nat := 16

/-- `AES_TAG_SIZE`. -/
abbrev tagSize : Nat := 16

/-- `AES_KEY_SIZE`. -/
abbrev keySize : Nat := 32

abbrev Nonce : Type := Buf nonceSize

abbrev Tag : Type := Buf tagSize

abbrev SessionKey : Type := Buf keySize

/-- AES-256-GCM with 16-byte nonces and tags: `aes_encrypt` and `aes_decrypt`. -/
abbrev AesGcm : Type := Aead SessionKey Nonce Tag

/-- A scheme to run examples with: the message in the clear, under a tag of its
length masked with key and nonce. -/
def clearAes : AesGcm :=
  Aead.ofTag fun key nonce message =>
    List.Vector.ofFn fun i : Fin tagSize =>
      UInt8.ofNat (message.length / 256 ^ i.val) ^^^
        key.get ⟨i.val, Nat.lt_of_lt_of_le i.isLt (by decide)⟩ ^^^ nonce.get i

/-- `get_random_bytes`: the content of `bytes` afterwards, when
`mpz_urandomb` draws `randomNumber`. -/
def getRandomBytes {length : Nat} (bytes : Buf length) (randomNumber : Nat) : Buf length :=
  mpzExport bytes randomNumber

variable (aes : AesGcm)

/-- The payload that `send_encypted_data` sends for `data`. -/
def sendEncyptedData (sessionKey : SessionKey) (nonce : Nonce) (data : Bytes) : Bytes :=
  let sealedData := aes.encrypt sessionKey nonce data
  nonce.toList ++ sealedData.2.toList ++ sealedData.1

/-- `expected_payload_len`: the size of the receive buffer. -/
def expectedPayloadLen : Nat := nonceSize + tagSize + 2048

/-- `recv(socket, buffer, size, 0)` when the bytes `pending` are waiting as one
segment; `none` is an error. -/
def recv (size : Nat) (pending : Option Bytes) : Option Bytes := pending.map (List.take size)

/-- `receive_encypted_data` from the result of its `recv` on; `none` is the
length -1. -/
def receiveEncyptedData (sessionKey : SessionKey) (received : Option Bytes) : Option Bytes :=
  match received with
  | none => none
  | some payload =>
      if h : nonceSize + tagSize ≤ payload.length then
        let nonce : Nonce := ⟨payload.take nonceSize, by rw [List.length_take]; omega⟩
        let tag : Tag :=
          ⟨(payload.drop nonceSize).take tagSize, by
            rw [List.length_take, List.length_drop]; omega⟩
        aes.decrypt sessionKey nonce (payload.drop (nonceSize + tagSize)) tag
      else none

/-! ## Records and their parser -/

@[simp] theorem sendEncyptedData_length (sessionKey : SessionKey) (nonce : Nonce) (data : Bytes) :
    (sendEncyptedData aes sessionKey nonce data).length = 32 + data.length := by
  simp only [sendEncyptedData, List.length_append, List.Vector.toList_length,
    aes.length_encrypt, nonceSize, tagSize]

/-- A record opens to the data it was made from. -/
theorem receive_send (sessionKey : SessionKey) (nonce : Nonce) (data : Bytes) :
    receiveEncyptedData aes sessionKey (some (sendEncyptedData aes sessionKey nonce data)) =
      some data := by
  have hlength : nonceSize + tagSize ≤ (sendEncyptedData aes sessionKey nonce data).length := by
    rw [sendEncyptedData_length]
    simp only [nonceSize, tagSize]
    omega
  have hnonce : (sendEncyptedData aes sessionKey nonce data).take nonceSize = nonce.toList := by
    simp only [sendEncyptedData, List.append_assoc]
    exact List.take_left' (by simp)
  have hrest : (sendEncyptedData aes sessionKey nonce data).drop nonceSize =
      (aes.encrypt sessionKey nonce data).2.toList ++ (aes.encrypt sessionKey nonce data).1 := by
    simp only [sendEncyptedData, List.append_assoc]
    exact List.drop_left' (by simp)
  have hcipher : (sendEncyptedData aes sessionKey nonce data).drop (nonceSize + tagSize) =
      (aes.encrypt sessionKey nonce data).1 := by
    rw [← List.drop_drop, hrest]
    exact List.drop_left' (by simp)
  have htag : ((sendEncyptedData aes sessionKey nonce data).drop nonceSize).take tagSize =
      (aes.encrypt sessionKey nonce data).2.toList := by
    rw [hrest]
    exact List.take_left' (by simp)
  simp only [receiveEncyptedData, dif_pos hlength, hnonce, htag, hcipher]
  exact aes.decrypt_encrypt sessionKey nonce data

/-- What the parser accepts is a record: it is what sending the plaintext under
some nonce produces. -/
theorem exists_send_of_receive {sessionKey : SessionKey} {payload data : Bytes}
    (h : receiveEncyptedData aes sessionKey (some payload) = some data) :
    ∃ nonce, payload = sendEncyptedData aes sessionKey nonce data := by
  simp only [receiveEncyptedData] at h
  split at h
  · rename_i hlength
    have hencrypt := aes.encrypt_of_decrypt h
    refine ⟨⟨payload.take nonceSize, by rw [List.length_take]; omega⟩, ?_⟩
    simp only [sendEncyptedData, hencrypt]
    change payload = payload.take nonceSize ++ (payload.drop nonceSize).take tagSize ++
      payload.drop (nonceSize + tagSize)
    rw [← List.drop_drop, List.append_assoc, List.take_append_drop, List.take_append_drop]
  · simp at h

/-- An accepted payload is 32 bytes longer than its plaintext. -/
theorem length_of_receive {sessionKey : SessionKey} {payload data : Bytes}
    (h : receiveEncyptedData aes sessionKey (some payload) = some data) :
    payload.length = 32 + data.length := by
  obtain ⟨nonce, rfl⟩ := exists_send_of_receive aes h
  exact sendEncyptedData_length aes sessionKey nonce data

/-- A single `recv` yields at most 2048 bytes of plaintext. -/
theorem length_of_receive_recv {sessionKey : SessionKey} {pending : Option Bytes} {data : Bytes}
    (h : receiveEncyptedData aes sessionKey (recv expectedPayloadLen pending) = some data) :
    data.length ≤ 2048 := by
  cases pending with
  | none => simp [recv, receiveEncyptedData] at h
  | some payload =>
      have hlength := length_of_receive aes h
      have hcut : (payload.take expectedPayloadLen).length ≤ expectedPayloadLen :=
        List.length_take_le _ _
      simp only [expectedPayloadLen, nonceSize, tagSize] at hcut hlength
      omega

/-- A record of at most 2048 bytes of plaintext passes one `recv` whole. -/
theorem recv_send {data : Bytes} (h : data.length ≤ 2048) (sessionKey : SessionKey)
    (nonce : Nonce) :
    recv expectedPayloadLen (some (sendEncyptedData aes sessionKey nonce data)) =
      some (sendEncyptedData aes sessionKey nonce data) := by
  have hfits : (sendEncyptedData aes sessionKey nonce data).length ≤ expectedPayloadLen := by
    rw [sendEncyptedData_length]
    simp only [expectedPayloadLen, nonceSize, tagSize]
    omega
  simp only [recv, Option.map_some, List.take_of_length_le hfits]

end ShardedLedger.Channel
