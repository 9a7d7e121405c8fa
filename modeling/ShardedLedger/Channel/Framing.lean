import ShardedLedger.Channel.Record
set_option autoImplicit false

/-!
# Channel: records on a byte stream

The connection is a TCP stream: the bytes of successive `send` calls arrive in
order, but a `recv` returns any non-empty number of them.  A record does not say
how long it is, so the receiver finds the record borders only where the stream
happens to be cut at them.  `receives_exactly_iff` says that it needs to be cut
at exactly those.
-/

namespace ShardedLedger.Channel

open CString

/-- The results of successive `recv` calls on a stream: all its bytes in order,
in non-empty pieces no longer than the receive buffer. -/
structure Segmentation (stream : Bytes) (segments : List Bytes) : Prop where
  flatten_eq : segments.flatten = stream
  nonempty : ∀ s ∈ segments, s ≠ []
  bounded : ∀ s ∈ segments, s.length ≤ expectedPayloadLen

variable (aes : AesGcm) (sessionKey : SessionKey)

/-- The payloads of successive `send_encypted_data` calls, each with its nonce. -/
def recordsOf (messages : List (Nonce × Bytes)) : List Bytes :=
  messages.map fun m => sendEncyptedData aes sessionKey m.1 m.2

/-- What successive `receive_encypted_data` calls return. -/
def receiveAll (segments : List Bytes) : List (Option Bytes) :=
  segments.map fun s => receiveEncyptedData aes sessionKey (some s)

/-- The calls return the messages, in order, with none lost, split, merged or
rejected. -/
def ReceivesExactly (messages : List (Nonce × Bytes)) (segments : List Bytes) : Prop :=
  receiveAll aes sessionKey segments = messages.map fun m => some m.2

/-- One whole record per `recv` delivers every message. -/
theorem receivesExactly_recordsOf (messages : List (Nonce × Bytes)) :
    ReceivesExactly aes sessionKey messages (recordsOf aes sessionKey messages) := by
  simp only [ReceivesExactly, receiveAll, recordsOf, List.map_map]
  refine List.map_congr_left fun m _ => ?_
  exact receive_send aes sessionKey m.1 m.2

/-- Segments that deliver the messages are as long as their records. -/
theorem lengths_of_receivesExactly {messages : List (Nonce × Bytes)} {segments : List Bytes}
    (h : ReceivesExactly aes sessionKey messages segments) :
    segments.map List.length = (recordsOf aes sessionKey messages).map List.length := by
  induction segments generalizing messages with
  | nil =>
      cases messages with
      | nil => rfl
      | cons m messages => simp [ReceivesExactly, receiveAll] at h
  | cons s segments ih =>
      cases messages with
      | nil => simp [ReceivesExactly, receiveAll] at h
      | cons m messages =>
          simp only [ReceivesExactly, receiveAll, List.map_cons, List.cons.injEq] at h
          obtain ⟨hfirst, hrest⟩ := h
          have hlength := length_of_receive aes hfirst
          simp only [recordsOf, List.map_cons, sendEncyptedData_length, List.cons.injEq]
          exact ⟨hlength, ih hrest⟩

/-- A cut of the stream delivers the messages exactly when it is the cut into
records. -/
theorem receivesExactly_iff_eq {messages : List (Nonce × Bytes)} {segments : List Bytes}
    (hcut : Segmentation (recordsOf aes sessionKey messages).flatten segments) :
    ReceivesExactly aes sessionKey messages segments ↔
      segments = recordsOf aes sessionKey messages := by
  constructor
  · intro h
    exact List.eq_iff_flatten_eq.mpr
      ⟨hcut.flatten_eq, lengths_of_receivesExactly aes sessionKey h⟩
  · rintro rfl
    exact receivesExactly_recordsOf aes sessionKey messages

/-- The cut into records is one that `recv` can make when no record exceeds the
receive buffer. -/
theorem segmentation_recordsOf {messages : List (Nonce × Bytes)}
    (h : ∀ m ∈ messages, m.2.length ≤ 2048) :
    Segmentation (recordsOf aes sessionKey messages).flatten
      (recordsOf aes sessionKey messages) := by
  refine ⟨rfl, ?_, ?_⟩
  · intro s hs hnil
    obtain ⟨m, _, rfl⟩ := List.mem_map.mp hs
    have hlength := sendEncyptedData_length aes sessionKey m.1 m.2
    rw [hnil, List.length_nil] at hlength
    omega
  · intro s hs
    obtain ⟨m, hm, rfl⟩ := List.mem_map.mp hs
    have := h m hm
    rw [sendEncyptedData_length]
    simp only [expectedPayloadLen, nonceSize, tagSize]
    omega

/-- **Records on a stream.**  For every cut of the stream, the receiver's calls
return exactly the messages sent if and only if every `recv` returned exactly
one whole record; such a cut exists if and only if every message has at most
2048 bytes. -/
theorem receives_exactly_iff (messages : List (Nonce × Bytes)) :
    (∀ segments, Segmentation (recordsOf aes sessionKey messages).flatten segments →
      (ReceivesExactly aes sessionKey messages segments ↔
        segments = recordsOf aes sessionKey messages)) ∧
    ((∃ segments, Segmentation (recordsOf aes sessionKey messages).flatten segments ∧
        ReceivesExactly aes sessionKey messages segments) ↔
      ∀ m ∈ messages, m.2.length ≤ 2048) := by
  refine ⟨fun segments hcut => receivesExactly_iff_eq aes sessionKey hcut, ?_⟩
  constructor
  · rintro ⟨segments, hcut, hexact⟩ m hm
    have heq := (receivesExactly_iff_eq aes sessionKey hcut).mp hexact
    have hmem : sendEncyptedData aes sessionKey m.1 m.2 ∈ segments := by
      rw [heq]
      exact List.mem_map_of_mem hm
    have hbound := hcut.bounded _ hmem
    rw [sendEncyptedData_length] at hbound
    simp only [expectedPayloadLen, nonceSize, tagSize] at hbound
    omega
  · intro h
    exact ⟨_, segmentation_recordsOf aes sessionKey h,
      receivesExactly_recordsOf aes sessionKey messages⟩

/-- The record of a reply, cut inside its tag. -/
theorem cut_record_not_received :
    let key : SessionKey := List.Vector.replicate _ 7
    let nonce : Nonce := List.Vector.replicate _ 1
    let message := ascii "DATA_STORED"
    let record := sendEncyptedData clearAes key nonce message
    Segmentation (recordsOf clearAes key [(nonce, message)]).flatten
        [record.take 20, record.drop 20] ∧
      ¬ ReceivesExactly clearAes key [(nonce, message)] [record.take 20, record.drop 20] := by
  refine ⟨⟨by decide, by decide, by decide⟩, ?_⟩
  unfold ReceivesExactly
  decide

end ShardedLedger.Channel
