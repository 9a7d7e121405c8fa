import ShardedLedger.KeyExchange.Hello
import ShardedLedger.Server.HandleClient
set_option autoImplicit false

/-!
# Channel: a session over an active network

Two endpoints share a session key; between them stands a network that drops,
delays, repeats, reorders and reflects records and injects bytes of its own.  A
record carries no number and no direction.  So what an endpoint accepts is known
to come from one of the two (`accepted_was_sent`), and nothing more: which of
the records, how often and in which order is up to the network
(`network_chooses`).

The server hello ends in a record, too: its nonce, tag and ciphertext are what
`send_encypted_data` would make of the one signature that `sign_data` made for it
and the certificate (`hello_ends_in_record`).
-/

namespace ShardedLedger.Channel

open CString SecureChannel KeyExchange

/-- A step of a session: an endpoint sends data under a fresh nonce, or the
network delivers bytes to one `recv`. -/
abbrev SessionEvent : Type := SecureChannel.Event Nonce Bytes Bytes

variable (aes : AesGcm) (sessionKey : SessionKey)

/-- `receive_encypted_data` on delivered bytes. -/
def openRecord (payload : Bytes) : Option Bytes :=
  receiveEncyptedData aes sessionKey (some payload)

/-- What was sent and accepted in a session. -/
def session (events : List SessionEvent) : History Bytes Bytes :=
  SecureChannel.run (sendEncyptedData aes sessionKey) (openRecord aes sessionKey) events

/-- AES-GCM is ideal in the session: what opens was encrypted before under its
key, by an endpoint or in the hello. -/
def IdealSession (setup : List Bytes) (events : List SessionEvent) : Prop :=
  Authentic (sendEncyptedData aes sessionKey) (openRecord aes sessionKey) setup events

theorem openRecord_send (nonce : Nonce) (data : Bytes) :
    openRecord aes sessionKey (sendEncyptedData aes sessionKey nonce data) = some data :=
  receive_send aes sessionKey nonce data

/-- Sending needs no assumption. -/
theorem idealSession_send (setup : List Bytes) (side : Side) (nonce : Nonce) (data : Bytes) :
    IdealSession aes sessionKey setup [.send side nonce data] := by
  intro before event after hsplit
  cases before with
  | nil =>
      obtain rfl := (List.cons.inj hsplit).1
      trivial
  | cons e rest => simp at hsplit

/-- Over the same network any selection of the records sent so far, in any order
and number, is accepted by either endpoint. -/
theorem network_chooses {setup : List Bytes} {events : List SessionEvent}
    (hideal : IdealSession aes sessionKey setup events) (side : Side) (records : List Bytes)
    (hknown : ∀ r ∈ records, r ∈ setup ∨
      ∃ origin, r ∈ (session aes sessionKey events).records origin) :
    IdealSession aes sessionKey setup (events ++ records.map (.deliver side)) ∧
      (session aes sessionKey (events ++ records.map (.deliver side))).accepted side =
        (session aes sessionKey events).accepted side ++
          records.filterMap (openRecord aes sessionKey) :=
  exists_authentic_run _ _ hideal side records hknown

/-! ## The record in the hello -/

section Hello

variable (hkdf : DhBytes → Salt → SessionKey) (identity : ServerIdentity)
  (buffers : ServerBuffers) (hello : ClientHello) (b : Nat) (n1 : Nonce)

/-- The plaintext in the hello: what `sign_data` returns for the nonces, `dhA`, `dhB`
and the certificate, and the certificate. -/
def helloPlaintext : Bytes :=
  identity.signData (signedData hello.n0 n1 (BigEndian.mpzExport buffers.dhABytes hello.dhA)
    (BigEndian.mpzExport buffers.dhBBytes (initializeValues hello.prime b))
    identity.certificate) ++ identity.certificate

/-- Behind `dhB` the server hello is a record under the new session key. -/
theorem hello_ends_in_record :
    (sendServerHello hkdf aes identity buffers hello b n1).payload.drop dhKeySize =
      sendEncyptedData aes (sendServerHello hkdf aes identity buffers hello b n1).sessionKey n1
        (helloPlaintext identity buffers hello b n1) := by
  let sent := sendServerHello hkdf aes identity buffers hello b n1
  let dhBBytes := BigEndian.mpzExport buffers.dhBBytes (initializeValues hello.prime b)
  have hpayload : sent.payload = dhBBytes.toList ++
      sendEncyptedData aes sent.sessionKey n1 (helloPlaintext identity buffers hello b n1) := by
    simp only [sendEncyptedData, ← List.append_assoc]
    rfl
  change sent.payload.drop dhKeySize = _
  rw [hpayload]
  exact List.drop_left' (by simp)

/-- **Origin.**  In a session after a handshake, over a network that forges
nothing: whatever an endpoint accepts was sent before by one of the two
endpoints, or it is the plaintext of the hello.  Where the records it accepted
are a part, or the beginning, of the records of its peer, the accepted data are
a part, or the beginning, of what the peer sent. -/
theorem accepted_was_sent (events : List SessionEvent)
    (hideal : IdealSession aes (sendServerHello hkdf aes identity buffers hello b n1).sessionKey
      [(sendServerHello hkdf aes identity buffers hello b n1).payload.drop dhKeySize] events) :
    let key := (sendServerHello hkdf aes identity buffers hello b n1).sessionKey
    (∀ before side record after data,
      events = before ++ .deliver side record :: after →
      receiveEncyptedData aes key (some record) = some data →
        (∃ origin, data ∈ (session aes key before).sent origin) ∨
          data = helloPlaintext identity buffers hello b n1) ∧
    ∀ side : Side,
      (((session aes key events).opened side).Sublist ((session aes key events).records side.peer) →
        ((session aes key events).accepted side).Sublist
          ((session aes key events).sent side.peer)) ∧
      ((session aes key events).opened side <+: (session aes key events).records side.peer →
        (session aes key events).accepted side <+: (session aes key events).sent side.peer) := by
  intro key
  have hround := openRecord_send aes key
  have hrecord := hello_ends_in_record aes hkdf identity buffers hello b n1
  refine ⟨?_, fun side => ⟨?_, ?_⟩⟩
  · intro before side record after data hsplit hopen
    rcases sent_before_of_accepted _ _ hround hideal hsplit hopen with hsetup | horigin
    · have hplain : openRecord aes key ((sendServerHello hkdf aes identity buffers hello b
          n1).payload.drop dhKeySize) = some (helloPlaintext identity buffers hello b n1) := by
        rw [hrecord]
        exact hround n1 _
      obtain ⟨record', hmem, hopen'⟩ := List.mem_filterMap.mp hsetup
      rw [List.mem_singleton.mp hmem, hplain] at hopen'
      exact Or.inr (Option.some.inj hopen').symm
    · exact Or.inl horigin
  · exact accepted_sublist_sent _ _ hround events
  · exact accepted_initial_sent _ _ hround events

end Hello

/-- The theorem at a session in which one record is sent and delivered. -/
theorem accepted_was_sent_one_record :
    let hkdf : DhBytes → Salt → SessionKey := fun _ _ => List.Vector.replicate _ 7
    let zeros : DhBytes := List.Vector.replicate _ 0
    let nonce : Nonce := List.Vector.replicate _ 1
    let hello := sendServerHello hkdf clearAes ⟨ascii "KEY", fun _ => []⟩ ⟨zeros, zeros, zeros⟩
      ⟨23, 2, nonce⟩ 3 nonce
    let record := sendEncyptedData clearAes hello.sessionKey nonce (ascii "a")
    let send : SessionEvent := .send .left nonce (ascii "a")
    let history := session clearAes hello.sessionKey [send, .deliver .right record]
    ((∃ origin, ascii "a" ∈ (session clearAes hello.sessionKey [send]).sent origin) ∨
        ascii "a" = helloPlaintext ⟨ascii "KEY", fun _ => []⟩ ⟨zeros, zeros, zeros⟩
          ⟨23, 2, nonce⟩ 3 nonce) ∧
      history.accepted .right <+: history.sent .left := by
  intro hkdf zeros nonce hello record send history
  have hrecords : (session clearAes hello.sessionKey [send]).records .left = [record] := rfl
  have hideal := (network_chooses clearAes hello.sessionKey
    (idealSession_send clearAes hello.sessionKey [hello.payload.drop dhKeySize] .left nonce
      (ascii "a")) .right [record] (by
        intro r hr
        refine Or.inr ⟨.left, ?_⟩
        rw [hrecords]
        exact hr)).1
  have h := accepted_was_sent clearAes hkdf ⟨ascii "KEY", fun _ => []⟩ ⟨zeros, zeros, zeros⟩
    ⟨23, 2, nonce⟩ 3 nonce [send, .deliver .right record] hideal
  have hopen := openRecord_send clearAes hello.sessionKey nonce (ascii "a")
  have hhistory : history = step (sendEncyptedData clearAes hello.sessionKey)
      (openRecord clearAes hello.sessionKey) (session clearAes hello.sessionKey [send])
      (.deliver .right record) := rfl
  rw [step_deliver_of_open _ _ hopen] at hhistory
  have hopened : history.opened .right = [record] := by rw [hhistory]; rfl
  have hkept : history.records .left = [record] := by rw [hhistory]; rfl
  refine ⟨h.1 [send] .right record [] (ascii "a") rfl hopen, (h.2 .right).2 ?_⟩
  change history.opened .right <+: history.records .left
  rw [hopened, hkept]

/-- The router stores `a` once; the network delivers the record twice to the shard
and once back to the router.  The shard stores two blocks, and the router
accepts its own message. -/
theorem replayed_and_reflected :
    let key : SessionKey := List.Vector.replicate _ 7
    let nonce : Nonce := List.Vector.replicate _ 1
    let record := sendEncyptedData clearAes key nonce (ascii "a")
    let events : List SessionEvent := [.send .left nonce (ascii "a"), .deliver .right record,
      .deliver .right record, .deliver .left record]
    let shard := Server.Shard.start key (Stream'.const nonce) (Stream'.const (some Server.zeroBlock))
    IdealSession clearAes key [] events ∧
      ¬ (session clearAes key events).accepted .right <+: (session clearAes key events).sent .left ∧
      ¬ (session clearAes key events).accepted .left <+: (session clearAes key events).sent .right ∧
      ((shard.serve Sha256.sha256 clearAes (some record)).serve Sha256.sha256 clearAes
        (some record)).blockchain.map (fun b => b.data.str) = [ascii "a", ascii "a"] := by
  intro key nonce record events shard
  refine ⟨?_, by decide, by decide, by decide +kernel⟩
  have hsend := idealSession_send clearAes key [] .left nonce (ascii "a")
  have hrecords : (session clearAes key [.send .left nonce (ascii "a")]).records .left =
      [record] := rfl
  have hreplayed := (network_chooses clearAes key hsend .right [record, record] (by
    intro r hr
    refine Or.inr ⟨.left, ?_⟩
    rw [hrecords]
    simpa using hr)).1
  refine (network_chooses clearAes key hreplayed .left [record] ?_).1
  intro r hr
  refine Or.inr ⟨.left, ?_⟩
  rw [session, run_append_deliveries_records]
  exact hrecords ▸ hr

end ShardedLedger.Channel
