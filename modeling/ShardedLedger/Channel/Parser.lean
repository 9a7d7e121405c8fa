import ShardedLedger.Channel.Record
import ShardedLedger.Foundation.Bounds
set_option autoImplicit false

/-!
# Channel: the record parser and its buffers

`receive_encypted_data` accepts exactly what `send_encypted_data` sends.  Its
length, which is a subtraction, is checked before it becomes the size of two
arrays; both callers write a NUL behind a plaintext that is not empty.
-/

namespace ShardedLedger.Channel

open CString Bounds

variable (aes : AesGcm)

/-- The bytes are nonce, tag and ciphertext, and the last two are the encryption
of the data. -/
def IsRecord (sessionKey : SessionKey) (data payload : Bytes) : Prop :=
  ∃ (nonce : Nonce) (tag : Tag) (ciphertext : Bytes),
    payload = nonce.toList ++ tag.toList ++ ciphertext ∧
      aes.encrypt sessionKey nonce data = (ciphertext, tag)

/-- `data_len` after `receive_encypted_data` has returned. -/
def dataLen (received : Option Bytes) : Int :=
  match received with
  | none => -1
  | some data => data.length

/-- The accesses of `receive_encypted_data`, from its `recv` on. -/
def receiveAccesses (received : Option Bytes) : List Access :=
  let payloadLen : Int := dataLen received
  -- an error is a length, too, and nothing is written
  (if payloadLen < 0 then [] else [⟨expectedPayloadLen, 0, payloadLen⟩]) ++
    if payloadLen < nonceSize + tagSize then []
    else
      let ciphertextLen := payloadLen - nonceSize - tagSize
      let plaintextCapacity := ciphertextLen * 2
      -- the three `memcpy`
      fields expectedPayloadLen 0 [nonceSize, tagSize, ciphertextLen] ++
        [.whole nonceSize, .whole tagSize, .whole ciphertextLen] ++
      -- `aes_decrypt` reads the three arrays again, and writes the plaintext
        [.whole nonceSize, .whole tagSize, .whole ciphertextLen] ++
        fields plaintextCapacity 0 [ciphertextLen, 0]

/-- `decrypted_data[data_len] = '\0'` of both callers, in the array that
`receive_encypted_data` allocated for a payload of this length. -/
def terminate (received : Option Bytes) (dataLen : Int) : Access :=
  ⟨(Channel.dataLen received - nonceSize - tagSize) * 2, dataLen, 1⟩

theorem isRecord_iff_send (sessionKey : SessionKey) (data payload : Bytes) :
    IsRecord aes sessionKey data payload ↔
      ∃ nonce, payload = sendEncyptedData aes sessionKey nonce data := by
  constructor
  · rintro ⟨nonce, tag, ciphertext, rfl, hencrypt⟩
    exact ⟨nonce, by simp only [sendEncyptedData, hencrypt]⟩
  · rintro ⟨nonce, rfl⟩
    exact ⟨nonce, _, _, rfl, rfl⟩

/-- The parser accepts the records and nothing else. -/
theorem receive_eq_some_iff (sessionKey : SessionKey) (received : Option Bytes) (data : Bytes) :
    receiveEncyptedData aes sessionKey received = some data ↔
      ∃ payload, received = some payload ∧ IsRecord aes sessionKey data payload := by
  cases received with
  | none => simp [receiveEncyptedData]
  | some payload =>
      simp only [Option.some.injEq, exists_eq_left', isRecord_iff_send]
      constructor
      · exact exists_send_of_receive aes
      · rintro ⟨nonce, rfl⟩
        exact receive_send aes sessionKey nonce data

/-- The accesses for at most as many bytes as `recv` is asked for. -/
theorem receiveAccesses_inside {payload : Bytes} (h : payload.length ≤ expectedPayloadLen) :
    AllInside (receiveAccesses (some payload)) := by
  unfold receiveAccesses dataLen
  dsimp only
  rw [if_neg (by omega), allInside_append, allInside_cons, Access.inside_zero_iff]
  refine ⟨⟨⟨by omega, by omega⟩, allInside_nil⟩, ?_⟩
  split
  · exact allInside_nil
  · rename_i hlong
    simp only [nonceSize, tagSize, expectedPayloadLen] at hlong h ⊢
    simp only [allInside_append, allInside_cons, Access.whole_inside_iff, allInside_nil]
    rw [allInside_fields_iff (by omega) (by omega), allInside_fields_iff (by omega) (by omega)]
    simp only [List.forall_mem_cons, List.not_mem_nil, false_implies, implies_true, and_true,
      List.sum_cons, List.sum_nil]
    omega

/-- **The record parser.**  For every result of its `recv` it returns a plaintext
exactly when the bytes are a record of it, which is what `send_encypted_data`
sends under some nonce; otherwise it reports the length -1.  All its accesses
stay inside their arrays, and so does the NUL behind a plaintext. -/
theorem parses_exactly_records (sessionKey : SessionKey) (pending : Option Bytes) :
    let received := recv expectedPayloadLen pending
    let result := receiveEncyptedData aes sessionKey received
    (∀ data, result = some data ↔
      ∃ payload, received = some payload ∧ IsRecord aes sessionKey data payload) ∧
    (∀ data payload, IsRecord aes sessionKey data payload ↔
      ∃ nonce, payload = sendEncyptedData aes sessionKey nonce data) ∧
    (dataLen result = -1 ↔
      ∀ data payload, received = some payload → ¬ IsRecord aes sessionKey data payload) ∧
    AllInside (receiveAccesses received) ∧
    (0 < dataLen result → (terminate received (dataLen result)).Inside) := by
  intro received result
  have hiff := receive_eq_some_iff aes sessionKey received
  refine ⟨hiff, isRecord_iff_send aes sessionKey, ?_, ?_, ?_⟩
  · cases hresult : result with
    | none =>
        refine iff_of_true rfl ?_
        intro data payload hreceived hrecord
        have hsome := (hiff data).mpr ⟨payload, hreceived, hrecord⟩
        exact absurd (hresult.symm.trans hsome) (by simp)
    | some data =>
        obtain ⟨payload, hreceived, hrecord⟩ := (hiff data).mp hresult
        refine iff_of_false ?_ ?_
        · unfold dataLen
          dsimp only
          omega
        · intro h
          exact h data payload hreceived hrecord
  · cases pending with
    | none =>
        exact allInside_nil
    | some payload =>
        exact receiveAccesses_inside (List.length_take_le _ _)
  · intro hpos
    cases hresult : result with
    | none =>
        rw [hresult] at hpos
        exact absurd hpos (by decide)
    | some data =>
        obtain ⟨payload, hreceived, hrecord⟩ := (hiff data).mp hresult
        obtain ⟨nonce, hsend⟩ := (isRecord_iff_send aes sessionKey data payload).mp hrecord
        have hlength : payload.length = 32 + data.length := by
          rw [hsend, sendEncyptedData_length]
        rw [hresult] at hpos
        rw [hreceived]
        simp only [dataLen] at hpos
        simp only [terminate, dataLen, Access.Inside, hlength, nonceSize, tagSize]
        omega

end ShardedLedger.Channel
