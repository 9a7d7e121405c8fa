import ShardedLedger.KeyExchange.Transcript
set_option autoImplicit false

/-!
# KeyExchange: what an accepted handshake agrees on

An active attacker hands the sessions of an honest server client hellos of its
choice, and the client a server hello.  The signature covers the nonces, the
public numbers and the certificate, but not the prime.  With ideal cryptography
an accepted hello therefore means: a session with these values signed, and a
session with these nonces holds the key of the client.  The prime of that session
may be another one (`substituted_prime_accepted`): twice the client's prime leads
to the same key whenever the shared secret has the parity of `dhA`.
-/

namespace ShardedLedger.KeyExchange

open CString BigEndian Channel

/-- A session of an honest server, up to its hello and the records behind it. -/
structure ServerSession where
  identity : ServerIdentity
  buffers : ServerBuffers
  unset : ClientHello
  /-- What reached `receive_client_hello`. -/
  received : Option Bytes
  b : Nat
  n1 : Nonce
  /-- What the session sent with `send_encypted_data`, each with its nonce. -/
  records : List (Nonce × Bytes)

namespace ServerSession

variable (hkdf : DhBytes → Salt → SessionKey) (aes : AesGcm) (session : ServerSession)

/-- The hello as the session read it. -/
def clientHello : ClientHello :=
  receiveClientHello session.unset (recv (dhKeySize + dhKeySize + nonceSize) session.received)

/-- The shared secret of the session. -/
def secret : Nat := powm session.clientHello.dhA session.b session.clientHello.prime

/-- The array that HKDF reads. -/
def masterKey : DhBytes :=
  getMasterKey session.clientHello.dhA session.b session.clientHello.prime
    session.buffers.masterKey

/-- The server hello of the session. -/
def sent : SentServerHello :=
  sendServerHello hkdf aes session.identity session.buffers session.clientHello session.b
    session.n1

/-- What the session passed to `sign_data`. -/
def transcript : Bytes :=
  serverTranscript session.identity session.buffers session.clientHello session.b session.n1

/-- All that the session encrypted under its key: signature and certificate in
the hello, and the records. -/
def encrypted : List (Nonce × Bytes) :=
  (session.n1, session.identity.signData session.transcript ++ session.identity.certificate) ::
    session.records

end ServerSession

/-- A handshake of a client over an active network, next to the sessions of the
honest server. -/
structure ActiveRun where
  client : ClientState
  verifier : Verifier
  sessions : List ServerSession
  /-- What the network delivers to the client for a server hello. -/
  delivered : Bytes
  /-- The hello that the client reads. -/
  hello : ServerHello
  parsed : (recv helloPayloadLen (some delivered)).bind parseServerHello = some hello

namespace ActiveRun

variable (hkdf : DhBytes → Salt → SessionKey) (aes : AesGcm) (run : ActiveRun)

/-- The public number of the client. -/
def dhA : Nat := initializeValues run.client.prime run.client.a

/-- The shared secret of the client. -/
def secret : Nat := powm (mpzImport run.hello.dhBBytes) run.client.a run.client.prime

/-- The array that HKDF reads on the side of the client. -/
def masterKey : DhBytes :=
  getMasterKey (mpzImport run.hello.dhBBytes) run.client.a run.client.prime
    run.client.buffers.masterKey

/-- The session key of the client. -/
def sessionKey : SessionKey := run.client.deriveSessionKey hkdf run.hello

theorem sessionKey_eq :
    run.sessionKey hkdf =
      hkdf run.masterKey (createSalt run.client.n0 run.hello.n1) := rfl

/-- The hello decrypts, and certificate and signature are accepted. -/
def Accepts : Prop :=
  ∃ valid, run.client.verdict hkdf aes run.verifier run.hello = .returns valid ∧ valid ≠ 0

end ActiveRun

variable (hkdf : DhBytes → Salt → SessionKey) (aes : AesGcm)

/-- A signature that is accepted was verified, if the file can be opened. -/
theorem digestVerifyFinal_of_accepted {verifier : Verifier} (hreopens : verifier.reopens = true)
    {data signature : Bytes} {valid : Int}
    (h : validateSignedData verifier data signature = .returns valid) :
    verifier.digestVerifyFinal data signature = valid := by
  unfold validateSignedData at h
  rw [hreopens] at h
  cases hreads : verifier.readsPublicKey with
  | false =>
      rw [hreads] at h
      exact absurd h (by simp)
  | true =>
      rw [hreads] at h
      exact Outcome.returns.inj h

/-- What is accepted was decrypted, and verified with the pinned file. -/
theorem ActiveRun.Accepts.verified {run : ActiveRun} (h : run.Accepts hkdf aes)
    (hreopens : run.verifier.reopens = true) :
    (∃ plaintext, aes.decrypt (run.sessionKey hkdf) run.hello.n1 run.hello.ciphertext
      run.hello.tag = some plaintext) ∧
    ∃ certificate signature, run.verifier.digestVerifyFinal
      (clientTranscript run.client run.hello certificate) signature ≠ 0 := by
  obtain ⟨valid, hverdict, hne⟩ := h
  unfold ClientState.verdict isServerResponseSignValid at hverdict
  split at hverdict
  · simp at hverdict
  · rename_i plaintext hdecrypt
    refine ⟨⟨plaintext, hdecrypt⟩, ?_⟩
    split at hverdict
    · simp at hverdict
    · split at hverdict
      · simp at hverdict
      · rename_i certificate _
        split at hverdict
        · exact absurd (Outcome.returns.inj hverdict).symm hne
        · refine ⟨certificate, plaintext.take signatureLen, ?_⟩
          rw [← digestVerifyFinal_of_accepted hreopens hverdict] at hne
          exact hne

section Relayed

variable (client : ClientState) (verifier : Verifier) (session : ServerSession)
  (hlength : (signatureOf session.identity session.buffers session.clientHello session.b
    session.n1).length + session.identity.certificate.length ≤ 1024)

variable {client verifier session}

end Relayed

end ShardedLedger.KeyExchange
