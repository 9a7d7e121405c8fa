import ShardedLedger.Client.Main
import ShardedLedger.KeyExchange.Hello
import ShardedLedger.Router.HandleClient
set_option autoImplicit false

/-!
# KeyExchange: what the client side does with a server hello it should refuse

`receive_server_hello` has a failure exit for a short hello and one for an
invalid signature.  Neither reaches its callers: the client and the router go on
with whatever the session key array holds.  Only undefined behaviour that kills
the process, or an unreadable pinned key, keeps them from using it.

`failsClosed_iff` says for both endpoints exactly when data is exchanged only
after an accepted hello.
-/

namespace ShardedLedger.KeyExchange

open CString Channel Router

/-- The client side of one handshake, with all it meets. -/
structure ClientHandshake where
  client : ClientState
  verifier : Verifier
  /-- What the session key array holds before. -/
  sessionKey : SessionKey
  /-- What `recv` returns in `receive_server_hello`. -/
  received : Option Bytes
  /-- Where the behaviour is undefined: the content of the array with which the
  process goes on, `none` when it is killed. -/
  afterUndefined : Option SessionKey

variable (hkdf : DhBytes → Salt → SessionKey) (aes : AesGcm)

namespace ClientHandshake

variable (handshake : ClientHandshake)

/-- The session key with which the caller of `client_get_session_key` goes on,
if it does. -/
def continuesWith : Option SessionKey :=
  match clientGetSessionKey hkdf aes handshake.verifier handshake.client handshake.sessionKey
      handshake.received with
  | .returns sessionKey => some sessionKey
  | .exits => none
  | .undefined => handshake.afterUndefined

/-- The hello has at least 288 bytes, it decrypts under the derived key, and
certificate and signature are accepted. -/
def HelloAccepted : Prop :=
  ∃ hello, handshake.received.bind parseServerHello = some hello ∧
    ∃ valid, handshake.client.verdict hkdf aes handshake.verifier hello = .returns valid ∧
      valid ≠ 0

/-- The check of the hello does not return: the process exits because the pinned
file holds no public key, or it is killed where its behaviour is undefined. -/
def Stops : Prop :=
  ∃ hello, handshake.received.bind parseServerHello = some hello ∧
    (handshake.client.verdict hkdf aes handshake.verifier hello = .exits ∨
      handshake.client.verdict hkdf aes handshake.verifier hello = .undefined ∧
        handshake.afterUndefined = none)

/-- The caller goes on unless the check does not return. -/
theorem continuesWith_eq_none_iff :
    handshake.continuesWith hkdf aes = none ↔ handshake.Stops hkdf aes := by
  unfold continuesWith Stops clientGetSessionKey receiveServerHello
  cases hparse : handshake.received.bind parseServerHello with
  | none => simp
  | some hello =>
      cases hverdict : handshake.client.verdict hkdf aes handshake.verifier hello with
      | returns valid => simp [hverdict]
      | exits => simp [hverdict]
      | undefined => simp [hverdict]

end ClientHandshake

/-! ## The client -/

/-- The calls of the client after the handshake. -/
def clientMain (handshake : ClientHandshake) (nonces : Stream' Nonce)
    (iterations : List Client.Iteration) : List Client.Call :=
  match handshake.continuesWith hkdf aes with
  | none => []
  | some sessionKey => Client.commandLoop aes sessionKey nonces iterations

/-- Whatever is typed and received, the client sends and accepts data only after
an accepted hello. -/
def ClientFailsClosed (handshake : ClientHandshake) : Prop :=
  ∀ nonces iterations, (∃ call ∈ clientMain hkdf aes handshake nonces iterations,
    call.UsesSession) → handshake.HelloAccepted hkdf aes

theorem clientFailsClosed_iff (handshake : ClientHandshake) :
    ClientFailsClosed hkdf aes handshake ↔
      handshake.HelloAccepted hkdf aes ∨ handshake.Stops hkdf aes := by
  rw [← ClientHandshake.continuesWith_eq_none_iff]
  constructor
  · intro h
    cases hkey : handshake.continuesWith hkdf aes with
    | none => exact Or.inr rfl
    | some sessionKey =>
        -- whoever types `exit` makes the client send
        let nonce : Nonce := List.Vector.replicate _ 0
        refine Or.inl (h (Stream'.const nonce) [⟨ascii "exit", 0, none⟩] ?_)
        refine ⟨.send (sendEncyptedData aes sessionKey nonce (ascii "EXIT")), ?_, trivial⟩
        simp only [clientMain, hkey]
        exact List.mem_cons_self
  · rintro (haccepted | hstops) nonces iterations hcall
    · exact haccepted
    · simp only [clientMain, hstops] at hcall
      obtain ⟨call, hmem, _⟩ := hcall
      exact absurd hmem List.not_mem_nil

/-! ## The router -/

/-- A network that answers the router with arbitrary bytes and keeps what it was
sent. -/
structure Network where
  replies : Stream' (Option Bytes)
  sent : List (Fin numServers × Bytes)

/-- One exchange with the network. -/
def Network.exchange : Exchange Network := fun serverIndex payload network =>
  (network.replies.head, ⟨network.replies.tail, network.sent ++ [(serverIndex, payload)]⟩)

/-- `connect_and_key_exchange_with_servers`: the session keys with which the
router goes on, if it does. -/
def connectAndKeyExchangeWithServers (handshakes : Fin numServers → ClientHandshake) :
    Option (Fin numServers → SessionKey) :=
  match (handshakes 0).continuesWith hkdf aes, (handshakes 1).continuesWith hkdf aes,
      (handshakes 2).continuesWith hkdf aes with
  | some key0, some key1, some key2 => some ![key0, key1, key2]
  | _, _, _ => none

/-- What the router sends to the servers after the handshakes, each payload with
the server it goes to. -/
def routerMain (handshakes : Fin numServers → ClientHandshake) (nonces : Stream' Nonce)
    (replies : Stream' (Option Bytes)) (events : List Event) : List (Fin numServers × Bytes) :=
  match connectAndKeyExchangeWithServers hkdf aes handshakes with
  | none => []
  | some serverSessionKeys =>
      (run aes serverSessionKeys Network.exchange ⟨none, 0, nonces, ⟨replies, []⟩, []⟩
        events).servers.sent

/-- Whatever clients and network do, the router exchanges data with a server
only after an accepted hello. -/
def RouterFailsClosed (handshakes : Fin numServers → ClientHandshake) : Prop :=
  ∀ nonces replies events serverIndex,
    (∃ payload, (serverIndex, payload) ∈ routerMain hkdf aes handshakes nonces replies events) →
      (handshakes serverIndex).HelloAccepted hkdf aes

theorem connectAndKeyExchangeWithServers_eq_none_iff
    (handshakes : Fin numServers → ClientHandshake) :
    connectAndKeyExchangeWithServers hkdf aes handshakes = none ↔
      ∃ i, (handshakes i).Stops hkdf aes := by
  simp only [← ClientHandshake.continuesWith_eq_none_iff, Fin.exists_fin_succ]
  unfold connectAndKeyExchangeWithServers
  cases h0 : (handshakes 0).continuesWith hkdf aes with
  | none => simp
  | some key0 =>
      cases h1 : (handshakes 1).continuesWith hkdf aes with
      | none => simp [h1]
      | some key1 =>
          cases h2 : (handshakes 2).continuesWith hkdf aes with
          | none => simp [h2]
          | some key2 => simp [h1, h2]

/-- A retrieval reaches every server of the loop. -/
theorem sent_retrieveLoop (keys : Fin numServers → SessionKey) (m : Bytes)
    (servers : List (Fin numServers)) (formatted : Bytes) (state : RouterState Network) :
    state.servers.sent ⊆
        (retrieveLoop aes keys Network.exchange m servers formatted state).2.servers.sent ∧
      ∀ i ∈ servers, ∃ payload, (i, payload) ∈
        (retrieveLoop aes keys Network.exchange m servers formatted state).2.servers.sent := by
  induction servers generalizing formatted state with
  | nil => exact ⟨fun _ h => h, by simp⟩
  | cons i rest ih =>
      obtain ⟨hsub, hrest⟩ := ih (strncat (Server.roomLeft formattedResponseSize formatted)
        formatted (formattedServerResponse i
          (sendCommandToServer aes keys Network.exchange i m state).1))
        (sendCommandToServer aes keys Network.exchange i m state).2
      have hsent : (sendCommandToServer aes keys Network.exchange i m state).2.servers.sent =
          state.servers.sent ++ [(i, sendEncyptedData aes (keys i) state.nonces.head (cstr m))] :=
        rfl
      rw [hsent] at hsub
      refine ⟨fun x hx => hsub (List.mem_append_left _ hx), ?_⟩
      intro j hj
      rcases List.mem_cons.mp hj with rfl | hj
      · exact ⟨_, hsub (List.mem_append_right _ List.mem_cons_self)⟩
      · exact hrest j hj

theorem routerFailsClosed_iff (handshakes : Fin numServers → ClientHandshake) :
    RouterFailsClosed hkdf aes handshakes ↔
      (∀ i, (handshakes i).HelloAccepted hkdf aes) ∨ ∃ i, (handshakes i).Stops hkdf aes := by
  rw [← connectAndKeyExchangeWithServers_eq_none_iff]
  constructor
  · intro h
    cases hkeys : connectAndKeyExchangeWithServers hkdf aes handshakes with
    | none => exact Or.inr rfl
    | some keys =>
        refine Or.inl fun i => ?_
        -- a client that retrieves makes the router send to every server
        let key : SessionKey := List.Vector.replicate _ 0
        let nonce : Nonce := List.Vector.replicate _ 0
        let record := sendEncyptedData aes key nonce (ascii "RETRIEVE")
        refine h (Stream'.const nonce) (Stream'.const none)
          [.accept key, .deliver (some record)] i ?_
        let serving : RouterState Network :=
          ⟨some key, 0, Stream'.const nonce, ⟨Stream'.const none, []⟩, []⟩
        have hmessage : message aes serving.session (.deliver (some record)) =
            some (ascii "RETRIEVE") := by
          simp only [message, serving]
          rw [recv_send aes (by decide), receive_send]
          rfl
        obtain ⟨sessionKey, _, hstep⟩ := step_of_message aes keys Network.exchange hmessage
        rw [handleRequest_retrieve aes keys Network.exchange sessionKey rfl] at hstep
        have hrun : routerMain hkdf aes handshakes (Stream'.const nonce) (Stream'.const none)
            [.accept key, .deliver (some record)] =
            (step aes keys Network.exchange serving (.deliver (some record))).servers.sent := by
          simp only [routerMain, hkeys]
          rfl
        rw [hrun, hstep]
        exact (sent_retrieveLoop aes keys _ _ _ _).2 i (List.mem_finRange i)
  · rintro (haccepted | hstops) nonces replies events i hsent
    · exact haccepted i
    · simp only [routerMain, hstops] at hsent
      obtain ⟨payload, hmem⟩ := hsent
      exact absurd hmem List.not_mem_nil

/-- **Failing closed.**  The client, and the router towards its servers, exchange
data only after accepted hellos if and only if the hellos were acceptable, or
the check of one of them did not return. -/
theorem failsClosed_iff (handshake : ClientHandshake)
    (handshakes : Fin numServers → ClientHandshake) :
    (ClientFailsClosed hkdf aes handshake ↔
      handshake.HelloAccepted hkdf aes ∨ handshake.Stops hkdf aes) ∧
    (RouterFailsClosed hkdf aes handshakes ↔
      (∀ i, (handshakes i).HelloAccepted hkdf aes) ∨ ∃ i, (handshakes i).Stops hkdf aes) :=
  ⟨clientFailsClosed_iff hkdf aes handshake, routerFailsClosed_iff hkdf aes handshakes⟩

/-- An HKDF to run examples with. -/
def zeroHkdf : DhBytes → Salt → SessionKey := fun _ _ => List.Vector.replicate _ 0

/-- A handshake whose hello is what the network delivers, checked against a
pinned key with which no signature verifies. -/
def handshakeReceiving (received : Option Bytes) : ClientHandshake where
  client :=
    { prime := 23
      a := 3
      n0 := List.Vector.replicate _ 0
      buffers := ⟨List.Vector.replicate _ 0, List.Vector.replicate _ 0,
        List.Vector.replicate _ 0, List.Vector.replicate _ 0⟩ }
  verifier :=
    { serverPublicKey := some (ascii "KEY")
      behind := []
      reopens := true
      readsPublicKey := true
      digestVerifyFinal := fun _ _ => 0 }
  sessionKey := List.Vector.replicate _ 0
  received := received
  afterUndefined := none

/-- A server hello of `dhB = 2` with a signature of zeros. -/
def unsignedHello : Bytes :=
  [2] ++ List.replicate 255 0 ++
    sendEncyptedData clearAes (List.Vector.replicate _ 0) (List.Vector.replicate _ 0)
      (List.replicate 256 0 ++ ascii "KEY")

/-- The connection is closed instead of a hello: client and router go on, with
the array as it was.  A signature that does not verify does not stop the client
either. -/
theorem refused_hellos_go_on :
    ¬ ClientFailsClosed zeroHkdf clearAes (handshakeReceiving (some [])) ∧
      ¬ RouterFailsClosed zeroHkdf clearAes (fun _ => handshakeReceiving (some [])) ∧
      ¬ ClientFailsClosed zeroHkdf clearAes (handshakeReceiving (some unsignedHello)) := by
  have hclosed : (some ([] : Bytes)).bind parseServerHello = none := by decide
  refine ⟨?_, ?_, ?_⟩
  · rw [clientFailsClosed_iff]
    rintro (⟨hello, hparse, _⟩ | ⟨hello, hparse, _⟩)
    · exact absurd (hclosed.symm.trans hparse) (by simp)
    · exact absurd (hclosed.symm.trans hparse) (by simp)
  · rw [routerFailsClosed_iff]
    rintro (haccepted | ⟨_, hello, hparse, _⟩)
    · obtain ⟨hello, hparse, _⟩ := haccepted 0
      exact absurd (hclosed.symm.trans hparse) (by simp)
    · exact absurd (hclosed.symm.trans hparse) (by simp)
  · have hverdict : ((some unsignedHello).bind parseServerHello).map
        ((handshakeReceiving none).client.verdict zeroHkdf clearAes
          (handshakeReceiving none).verifier) = some (.returns 0) := by
      decide +kernel
    have hreturns : ∀ hello, (some unsignedHello).bind parseServerHello = some hello →
        (handshakeReceiving none).client.verdict zeroHkdf clearAes
          (handshakeReceiving none).verifier hello = .returns 0 := by
      intro hello hparse
      rw [hparse] at hverdict
      exact Option.some.inj hverdict
    rw [clientFailsClosed_iff]
    rintro (⟨hello, hparse, valid, hvalid, hne⟩ | ⟨hello, hparse, hexits | ⟨hundefined, _⟩⟩)
    · exact hne (Outcome.returns.inj (hvalid.symm.trans (hreturns hello hparse)))
    · exact absurd (hexits.symm.trans (hreturns hello hparse)) (by simp)
    · exact absurd (hundefined.symm.trans (hreturns hello hparse)) (by simp)

end ShardedLedger.KeyExchange
