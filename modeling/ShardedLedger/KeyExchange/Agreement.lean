import ShardedLedger.KeyExchange.Hello
set_option autoImplicit false

/-!
# KeyExchange: when both sides derive the same session key

`mpz_export` writes the significant bytes of a number at the start of a 256-byte
array, and the hellos transport, and HKDF hashes, all 256 bytes.  A number with
less than 256 significant bytes therefore travels with whatever the array held
behind them.  `keysAgree_iff` says exactly for which prime and secrets the two
keys nevertheless agree, whatever the arrays held.
-/

namespace ShardedLedger.KeyExchange

open CString BigEndian Channel

/-- An honest handshake: what both sides draw, what their arrays hold before,
and what the server signs with. -/
structure Handshake where
  client : ClientState
  serverBuffers : ServerBuffers
  identity : ServerIdentity
  /-- The server's secret. -/
  b : Nat
  n1 : Nonce
  /-- The values of the server side before the client hello arrives. -/
  unset : ClientHello

namespace Handshake

variable (hkdf : DhBytes → Salt → SessionKey) (aes : AesGcm) (handshake : Handshake)

/-- The server side, which receives the client hello whole. -/
def server : SentServerHello :=
  serverGetSessionKey hkdf aes handshake.identity handshake.serverBuffers handshake.unset
    (some handshake.client.hello) handshake.b handshake.n1

/-- The session key of the client side, which receives the server hello whole. -/
def clientSessionKey : Option SessionKey :=
  (parseServerHello (handshake.server hkdf aes).payload).map
    (handshake.client.deriveSessionKey hkdf)

/-- The prime as the server reads it. -/
def serverPrime : Nat :=
  mpzImport (mpzExport handshake.client.buffers.primeBytes handshake.client.prime)

/-- The shared secret as the client computes it. -/
def clientSecret : Nat :=
  powm (mpzImport (mpzExport handshake.serverBuffers.dhBBytes
    (initializeValues handshake.serverPrime handshake.b))) handshake.client.a
    handshake.client.prime

/-- The shared secret as the server computes it. -/
def serverSecret : Nat :=
  powm (mpzImport (mpzExport handshake.client.buffers.dhABytes
    (initializeValues handshake.client.prime handshake.client.a))) handshake.b
    handshake.serverPrime

theorem clientSessionKey_eq :
    handshake.clientSessionKey hkdf aes =
      some (hkdf (mpzExport handshake.client.buffers.masterKey handshake.clientSecret)
        (createSalt handshake.client.n0 handshake.n1)) := by
  unfold clientSessionKey server serverGetSessionKey
  rw [ClientState.hello, receiveClientHello_send, parseServerHello_send]
  rfl

theorem server_sessionKey_eq :
    (handshake.server hkdf aes).sessionKey =
      hkdf (mpzExport handshake.serverBuffers.masterKey handshake.serverSecret)
        (createSalt handshake.client.n0 handshake.n1) := by
  unfold server serverGetSessionKey
  rw [ClientState.hello, receiveClientHello_send]
  rfl

end Handshake

/-- In every honest handshake with this prime and these secrets both sides
derive the same session key, for every HKDF and whatever the arrays held. -/
def KeysAgree (prime a b : Nat) : Prop :=
  ∀ (hkdf : DhBytes → Salt → SessionKey) (aes : AesGcm) (handshake : Handshake),
    handshake.client.prime = prime → handshake.client.a = a → handshake.b = b →
      handshake.clientSessionKey hkdf aes = some (handshake.server hkdf aes).sessionKey

/-- Prime and shared secret have 256 significant bytes, and so have both public
numbers, or else the missing bytes do not matter: every 256-byte number that
begins with the significant bytes of the public number has the shared secret as
its power. -/
def FullWidth (prime a b : Nat) : Prop :=
  256 ^ 255 ≤ prime ∧ ∃ secret, 256 ^ 255 ≤ secret ∧
    (∀ y, Continuation dhKeySize (initializeValues prime a) y → powm y b prime = secret) ∧
    (∀ y, Continuation dhKeySize (initializeValues prime b) y → powm y a prime = secret)

theorem powm_lt {prime : Nat} (hprime : 0 < prime) (hfits : prime < 256 ^ dhKeySize)
    (base exponent : Nat) : powm base exponent prime < 256 ^ dhKeySize :=
  Nat.lt_trans (Nat.mod_lt _ hprime) hfits

/-- Where the keys agree for every HKDF, the master keys agree as arrays. -/
theorem masterKey_eq_of_keysAgree {prime a b : Nat} (h : KeysAgree prime a b)
    (handshake : Handshake) (hprime : handshake.client.prime = prime)
    (ha : handshake.client.a = a) (hb : handshake.b = b) :
    mpzExport handshake.client.buffers.masterKey handshake.clientSecret =
      mpzExport handshake.serverBuffers.masterKey handshake.serverSecret := by
  by_contra hne
  -- an HKDF that tells the two arrays apart
  let hkdf : DhBytes → Salt → SessionKey := fun masterKey _ =>
    if masterKey = mpzExport handshake.client.buffers.masterKey handshake.clientSecret
    then List.Vector.replicate _ 0 else List.Vector.replicate _ 1
  have hkeys := h hkdf clearAes handshake hprime ha hb
  rw [Handshake.clientSessionKey_eq, Handshake.server_sessionKey_eq] at hkeys
  simp only [hkdf, if_neg (Ne.symm hne), if_true, Option.some.injEq] at hkeys
  exact absurd (congrArg List.Vector.head hkeys) (by decide)

/-- Where the keys agree, both sides compute the same secret, of full width: a
shorter one would leave a part of the arrays that HKDF reads unwritten. -/
theorem secrets_of_keysAgree {prime a b : Nat} (hpos : 0 < prime)
    (hfits : prime < 256 ^ dhKeySize) (h : KeysAgree prime a b) (handshake : Handshake)
    (hprime : handshake.client.prime = prime) (ha : handshake.client.a = a)
    (hb : handshake.b = b) :
    256 ^ 255 ≤ handshake.clientSecret ∧ handshake.clientSecret = handshake.serverSecret := by
  have hserverPrime : 0 < handshake.serverPrime ∧ handshake.serverPrime < 256 ^ dhKeySize := by
    refine ⟨?_, mpzImport_lt _⟩
    obtain ⟨r, _, heq⟩ := continuation_mpzImport_mpzExport (k := dhKeySize)
      (n := handshake.client.prime) (by rw [hprime]; exact hfits) handshake.client.buffers.primeBytes
    rw [Handshake.serverPrime, heq, hprime]
    exact Nat.add_pos_left (Nat.mul_pos hpos (Nat.pow_pos (by decide))) r
  have hclient : handshake.clientSecret < 256 ^ dhKeySize := by
    rw [Handshake.clientSecret, hprime]
    exact powm_lt hpos hfits _ _
  have hserver : handshake.serverSecret < 256 ^ dhKeySize :=
    powm_lt hserverPrime.1 hserverPrime.2 _ _
  have hclientFull : 256 ^ 255 ≤ handshake.clientSecret := by
    by_contra hshort
    obtain ⟨rop, rop', hne⟩ :=
      exists_mpzExport_ne (k := dhKeySize) (by decide) (Nat.lt_of_not_le hshort)
    let withMasterKey (masterKey : DhBytes) : Handshake :=
      { handshake with
        client := { handshake.client with
          buffers := { handshake.client.buffers with masterKey := masterKey } } }
    have hrop := masterKey_eq_of_keysAgree h (withMasterKey rop) hprime ha hb
    have hrop' := masterKey_eq_of_keysAgree h (withMasterKey rop') hprime ha hb
    exact hne (hrop.trans hrop'.symm)
  have hserverFull : 256 ^ 255 ≤ handshake.serverSecret := by
    by_contra hshort
    obtain ⟨rop, rop', hne⟩ :=
      exists_mpzExport_ne (k := dhKeySize) (by decide) (Nat.lt_of_not_le hshort)
    let withMasterKey (masterKey : DhBytes) : Handshake :=
      { handshake with
        serverBuffers := { handshake.serverBuffers with masterKey := masterKey } }
    have hrop := masterKey_eq_of_keysAgree h (withMasterKey rop) hprime ha hb
    have hrop' := masterKey_eq_of_keysAgree h (withMasterKey rop') hprime ha hb
    exact hne (hrop.symm.trans hrop')
  refine ⟨hclientFull, ?_⟩
  have harrays := congrArg mpzImport (masterKey_eq_of_keysAgree h handshake hprime ha hb)
  rwa [mpzImport_mpzExport_of_full hclientFull hclient,
    mpzImport_mpzExport_of_full hserverFull hserver] at harrays

/-- A prime of full width reaches the server as it is. -/
theorem serverPrime_of_full {prime : Nat} (hfull : 256 ^ 255 ≤ prime)
    (hfits : prime < 256 ^ dhKeySize) (handshake : Handshake)
    (hprime : handshake.client.prime = prime) : handshake.serverPrime = prime := by
  rw [Handshake.serverPrime, hprime]
  exact mpzImport_mpzExport_of_full hfull hfits _

/-- A handshake with this prime, these secrets and these contents of the arrays
that transport the public numbers. -/
def transporting (prime a b : Nat) (dhABytes dhBBytes : DhBytes) : Handshake where
  client :=
    { prime := prime
      a := a
      n0 := List.Vector.replicate _ 0
      buffers := ⟨dhABytes, List.Vector.replicate _ 0, List.Vector.replicate _ 0,
        List.Vector.replicate _ 0⟩ }
  serverBuffers := ⟨dhBBytes, List.Vector.replicate _ 0, List.Vector.replicate _ 0⟩
  identity := ⟨[], fun _ => []⟩
  b := b
  n1 := List.Vector.replicate _ 0
  unset := ⟨0, 0, List.Vector.replicate _ 0⟩

/-- Numbers of full width are transported, and hashed, as they are. -/
theorem keysAgree_of_fullWidth {prime a b : Nat} (hpos : 1 < prime)
    (hfits : prime < 256 ^ dhKeySize) (h : FullWidth prime a b) : KeysAgree prime a b := by
  obtain ⟨hprime, secret, hsecret, hA, hB⟩ := h
  rintro hkdf aes handshake rfl rfl rfl
  have hserverPrime := serverPrime_of_full hprime hfits handshake rfl
  have hdh : ∀ secret, initializeValues handshake.client.prime secret < 256 ^ dhKeySize :=
    fun secret => powm_lt (by omega) hfits _ _
  have hclient : handshake.clientSecret = secret := by
    rw [Handshake.clientSecret, hserverPrime]
    exact hB _ (continuation_mpzImport_mpzExport (hdh _) _)
  have hserver : handshake.serverSecret = secret := by
    rw [Handshake.serverSecret, hserverPrime]
    exact hA _ (continuation_mpzImport_mpzExport (hdh _) _)
  have hlt : secret < 256 ^ dhKeySize := by
    rw [← hclient, Handshake.clientSecret]
    exact powm_lt (by omega) hfits _ _
  rw [Handshake.clientSessionKey_eq, Handshake.server_sessionKey_eq, hclient, hserver,
    mpzExport_of_full hsecret hlt handshake.client.buffers.masterKey
      handshake.serverBuffers.masterKey]

theorem two_pow_2048 : (2 : Nat) ^ 2048 = 256 ^ dhKeySize := by
  rw [show (256 : Nat) = 2 ^ 8 from rfl, ← Nat.pow_mul]
  exact congrArg (2 ^ ·) (by decide : 2048 = 8 * dhKeySize)

/-- **Key agreement.**  For every modulus `prime` between 1 and `2 ^ 2048`
and all secrets, the two sides derive the same session key in every honest
handshake if and only if the numbers are of full width. -/
theorem keysAgree_iff (prime a b : Nat) (hpos : 1 < prime) (hbits : prime < 2 ^ 2048) :
    KeysAgree prime a b ↔ FullWidth prime a b := by
  have hfits : prime < 256 ^ dhKeySize := two_pow_2048 ▸ hbits
  have hdh : ∀ secret, initializeValues prime secret < 256 ^ dhKeySize := fun secret =>
    powm_lt (by omega) hfits _ _
  constructor
  · intro h
    let zeros : DhBytes := List.Vector.replicate _ 0
    have hsecrets := secrets_of_keysAgree (by omega) hfits h
    let secret := (transporting prime a b zeros zeros).clientSecret
    have hsecret : 256 ^ 255 ≤ secret := (hsecrets _ rfl rfl rfl).1
    have hprime : 256 ^ 255 ≤ prime :=
      Nat.le_of_lt (Nat.lt_of_le_of_lt hsecret (Nat.mod_lt _ (Nat.lt_of_succ_lt hpos)))
    have hserverPrime : ∀ dhABytes dhBBytes,
        (transporting prime a b dhABytes dhBBytes).serverPrime = prime := fun _ _ =>
      serverPrime_of_full hprime hfits _ rfl
    refine ⟨hprime, secret, hsecret, ?_, ?_⟩
    · intro y hy
      obtain ⟨rop, rfl⟩ := exists_mpzExport (hdh a) hy
      have hserver := (hsecrets (transporting prime a b rop zeros) rfl rfl rfl).2
      rw [Handshake.serverSecret, hserverPrime] at hserver
      exact hserver.symm
    · intro y hy
      obtain ⟨rop, rfl⟩ := exists_mpzExport (hdh b) hy
      have hclient := (hsecrets (transporting prime a b zeros rop) rfl rfl rfl).2
      have hzeros := (hsecrets (transporting prime a b zeros zeros) rfl rfl rfl).2
      have hsame : (transporting prime a b zeros rop).serverSecret =
          (transporting prime a b zeros zeros).serverSecret := rfl
      rw [hsame, ← hzeros, Handshake.clientSecret, hserverPrime] at hclient
      exact hclient
  · exact keysAgree_of_fullWidth hpos hfits

/-- In particular four numbers of full width are enough. -/
theorem fullWidth_of_le {prime a b : Nat} (hpos : 0 < prime) (hfits : prime < 256 ^ dhKeySize)
    (hprime : 256 ^ 255 ≤ prime) (hA : 256 ^ 255 ≤ initializeValues prime a)
    (hB : 256 ^ 255 ≤ initializeValues prime b)
    (hsecret : 256 ^ 255 ≤ powm dhG (a * b) prime) : FullWidth prime a b := by
  refine ⟨hprime, powm dhG (a * b) prime, hsecret, ?_, ?_⟩
  · intro y hy
    rw [(continuation_iff_of_full hA (powm_lt hpos hfits _ _) y).mp hy]
    unfold powm
    rw [← Nat.pow_mod, Nat.pow_mul]
  · intro y hy
    rw [(continuation_iff_of_full hB (powm_lt hpos hfits _ _) y).mp hy]
    unfold powm
    rw [← Nat.pow_mod, Nat.mul_comm a b, Nat.pow_mul]

/-- A 2048-bit prime. -/
def largePrime : Nat := 2 ^ 2048 - 1942289

/-- The theorem at a prime and secrets whose numbers are all of full width. -/
theorem keysAgree_iff_largePrime :
    1 < largePrime ∧ largePrime < 2 ^ 2048 ∧
      (KeysAgree largePrime 883 884 ↔ FullWidth largePrime 883 884) :=
  ⟨by decide +kernel, by decide +kernel,
    keysAgree_iff largePrime 883 884 (by decide +kernel) (by decide +kernel)⟩

/-- The secrets 883 and 1206: of the four numbers only `dhB` has a leading zero
byte, and the keys disagree. -/
theorem short_dhB_disagrees :
    1 < largePrime ∧ largePrime < 2 ^ 2048 ∧ ¬ KeysAgree largePrime 883 1206 := by
  refine ⟨by decide +kernel, by decide +kernel, ?_⟩
  intro h
  let hkdf : DhBytes → Salt → SessionKey := fun masterKey _ =>
    ⟨masterKey.toList.take keySize, by simp [keySize, dhKeySize]⟩
  let zeros : DhBytes := List.Vector.replicate _ 0
  have hkeys := h hkdf clearAes (transporting largePrime 883 1206 zeros zeros) rfl rfl rfl
  revert hkeys
  decide +kernel

end ShardedLedger.KeyExchange
