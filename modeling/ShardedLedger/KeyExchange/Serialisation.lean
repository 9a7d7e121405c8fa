import ShardedLedger.KeyExchange.Transcript
set_option autoImplicit false

/-!
# KeyExchange: which numbers are serialised with their full width

Prime, public numbers, master key and nonces are all written by `mpz_export` into
an array that nothing has cleared, and the whole array is used afterwards.  Each
place where that happens has a predicate here, which says that the array holds
the number in all its bytes whatever it held before.  `serialised_iff` says for
which numbers they hold.
-/

namespace ShardedLedger.KeyExchange

open CString BigEndian Channel

/-- `send_client_hello` transports prime and `dhA`: the payload holds their
encodings, and `receive_client_hello` reads them back. -/
def ClientHelloEncodes (prime dhA : Nat) : Prop :=
  ∀ (buffers : ClientBuffers) (n0 : Nonce) (unset : ClientHello),
    sendClientHello buffers prime dhA n0 =
        encode dhKeySize prime ++ encode dhKeySize dhA ++ n0.toList ∧
      receiveClientHello unset (some (sendClientHello buffers prime dhA n0)) =
        { prime := prime, dhA := dhA, n0 := n0 }

/-- `send_server_hello` transports `dhB`: its payload begins with the encoding,
and the client reads `dhB` back. -/
def ServerHelloEncodes (hello : ClientHello) (b : Nat) : Prop :=
  ∀ (hkdf : DhBytes → Salt → SessionKey) (aes : AesGcm) (identity : ServerIdentity)
    (buffers : ServerBuffers) (n1 : Nonce),
    let payload := (sendServerHello hkdf aes identity buffers hello b n1).payload
    payload.take dhKeySize = encode dhKeySize (initializeValues hello.prime b) ∧
      (parseServerHello payload).map (fun h => mpzImport h.dhBBytes) =
        some (initializeValues hello.prime b)

/-- `get_master_key` encodes the shared secret. -/
def MasterKeyEncodes (dh secret prime : Nat) : Prop :=
  ∀ masterKeyBytes : DhBytes,
    (getMasterKey dh secret prime masterKeyBytes).toList =
        encode dhKeySize (powm dh secret prime) ∧
      mpzImport (getMasterKey dh secret prime masterKeyBytes) = powm dh secret prime

/-- `receive_server_hello` encodes `dhA` once more, for the data that it checks the
signature against. -/
def CheckedDhAEncodes (prime a : Nat) : Prop :=
  ∀ client : ClientState, client.prime = prime → client.a = a →
    ∀ (hello : ServerHello) (certificate : Bytes),
      ((clientTranscript client hello certificate).drop (nonceSize + nonceSize)).take dhKeySize =
          encode dhKeySize (initializeValues prime a) ∧
        mpzImport (mpzExport client.buffers.signedDhABytes (initializeValues prime a)) =
          initializeValues prime a

/-- `get_random_bytes` encodes the drawn number. -/
def RandomBytesEncode (length randomNumber : Nat) : Prop :=
  ∀ bytes : Buf length,
    (getRandomBytes bytes randomNumber).toList = encode length randomNumber ∧
      mpzImport (getRandomBytes bytes randomNumber) = randomNumber

/-- The bytes received as `dhA` are the bytes that the server exports again, for
the data it signs. -/
def ReExports (dhABytes : DhBytes) : Prop :=
  ∀ (unset : ClientHello) (primeBytes : DhBytes) (n0 : Nonce) (rop : DhBytes),
    mpzExport rop (receiveClientHello unset
      (some (primeBytes.toList ++ dhABytes.toList ++ n0.toList))).dhA = dhABytes

/-! ## One place at a time -/

theorem randomBytesEncode_iff {length n : Nat} (h : n < 256 ^ length) :
    RandomBytesEncode length n ↔ length = 0 ∨ 256 ^ (length - 1) ≤ n := by
  have hexport : RandomBytesEncode length n ↔ (bytes n).length = length :=
    mpzExport_eq_encode_iff h
  rw [hexport]
  rcases Nat.eq_zero_or_pos length with rfl | hpos
  · have hle := (bytes_length_le_iff n 0).mpr h
    simp only [true_or, iff_true]
    exact Nat.le_zero.mp hle
  · rw [bytes_length_eq_iff hpos h, or_iff_right (Nat.ne_of_gt hpos)]

/-- An array of 256 bytes, exported into once. -/
theorem encodes_iff {n : Nat} (h : n < 256 ^ dhKeySize) :
    (∀ rop : DhBytes, (mpzExport rop n).toList = encode dhKeySize n ∧
      mpzImport (mpzExport rop n) = n) ↔ 256 ^ 255 ≤ n :=
  (mpzExport_eq_encode_iff h).trans (bytes_length_eq_iff (by decide) h)

theorem masterKeyEncodes_iff {dh secret prime : Nat}
    (h : powm dh secret prime < 256 ^ dhKeySize) :
    MasterKeyEncodes dh secret prime ↔ 256 ^ 255 ≤ powm dh secret prime :=
  encodes_iff h

theorem clientHelloEncodes_iff {prime dhA : Nat} (hprime : prime < 256 ^ dhKeySize)
    (hdhA : dhA < 256 ^ dhKeySize) :
    ClientHelloEncodes prime dhA ↔ 256 ^ 255 ≤ prime ∧ 256 ^ 255 ≤ dhA := by
  rw [← encodes_iff hprime, ← encodes_iff hdhA]
  constructor
  · intro h
    -- arrays with one content for the prime and one for `dhA`
    have hfields : ∀ primeBytes dhABytes : DhBytes,
        ((mpzExport primeBytes prime).toList = encode dhKeySize prime ∧
          mpzImport (mpzExport primeBytes prime) = prime) ∧
        ((mpzExport dhABytes dhA).toList = encode dhKeySize dhA ∧
          mpzImport (mpzExport dhABytes dhA) = dhA) := by
      intro primeBytes dhABytes
      let nonce : Nonce := List.Vector.replicate _ 0
      obtain ⟨hpayload, hread⟩ :=
        h ⟨dhABytes, primeBytes, primeBytes, primeBytes⟩ nonce ⟨0, 0, nonce⟩
      rw [receiveClientHello_send] at hread
      obtain ⟨hnumbers, _⟩ := List.append_inj' hpayload rfl
      obtain ⟨hfirst, hsecond⟩ := List.append_inj hnumbers
        (by rw [List.Vector.toList_length, encode_length hprime])
      exact ⟨⟨hfirst, congrArg ClientHello.prime hread⟩, hsecond, congrArg ClientHello.dhA hread⟩
    exact ⟨fun rop => (hfields rop rop).1, fun rop => (hfields rop rop).2⟩
  · rintro ⟨hfirst, hsecond⟩ buffers n0 unset
    obtain ⟨hprimeBytes, hprimeRead⟩ := hfirst buffers.primeBytes
    obtain ⟨hdhABytes, hdhARead⟩ := hsecond buffers.dhABytes
    rw [receiveClientHello_send, hprimeRead, hdhARead]
    refine ⟨?_, rfl⟩
    rw [sendClientHello, hprimeBytes, hdhABytes]

theorem serverHelloEncodes_iff {hello : ClientHello} {b : Nat}
    (h : initializeValues hello.prime b < 256 ^ dhKeySize) :
    ServerHelloEncodes hello b ↔ 256 ^ 255 ≤ initializeValues hello.prime b := by
  rw [← encodes_iff h]
  -- what stands at the beginning of the payload
  have htake : ∀ (hkdf : DhBytes → Salt → SessionKey) (aes : AesGcm) (identity : ServerIdentity)
      (buffers : ServerBuffers) (n1 : Nonce),
      (sendServerHello hkdf aes identity buffers hello b n1).payload.take dhKeySize =
        (mpzExport buffers.dhBBytes (initializeValues hello.prime b)).toList := by
    intro hkdf aes identity buffers n1
    simp only [sendServerHello, List.append_assoc]
    exact List.take_left' (List.Vector.toList_length _)
  constructor
  · intro hall rop
    let nonce : Nonce := List.Vector.replicate _ 0
    obtain ⟨hpayload, hread⟩ := hall (fun _ _ => List.Vector.replicate _ 0) clearAes
      ⟨[], fun _ => []⟩ ⟨rop, rop, rop⟩ nonce
    rw [htake] at hpayload
    rw [parseServerHello_send, Option.map_some, Option.some.injEq] at hread
    exact ⟨hpayload, hread⟩
  · intro hall hkdf aes identity buffers n1
    obtain ⟨hbytes, hread⟩ := hall buffers.dhBBytes
    refine ⟨(htake hkdf aes identity buffers n1).trans hbytes, ?_⟩
    rw [parseServerHello_send, Option.map_some, hread]

theorem checkedDhAEncodes_iff {prime a : Nat} (h : initializeValues prime a < 256 ^ dhKeySize) :
    CheckedDhAEncodes prime a ↔ 256 ^ 255 ≤ initializeValues prime a := by
  rw [← encodes_iff h]
  -- what stands behind the two nonces of the transcript
  have hfield : ∀ (client : ClientState) (hello : ServerHello) (certificate : Bytes),
      ((clientTranscript client hello certificate).drop (nonceSize + nonceSize)).take dhKeySize =
        (mpzExport client.buffers.signedDhABytes
          (initializeValues client.prime client.a)).toList := by
    intro client hello certificate
    have hnonces : (client.n0.toList ++ hello.n1.toList).length = nonceSize + nonceSize := by
      rw [List.length_append, List.Vector.toList_length, List.Vector.toList_length]
    unfold clientTranscript signedData
    rw [List.append_assoc, List.append_assoc, List.drop_left' hnonces]
    exact List.take_left' (List.Vector.toList_length _)
  constructor
  · intro hall rop
    let nonce : Nonce := List.Vector.replicate _ 0
    obtain ⟨hbytes, hread⟩ := hall ⟨prime, a, nonce, ⟨rop, rop, rop, rop⟩⟩ rfl rfl
      ⟨rop, nonce, List.Vector.replicate _ 0, []⟩ []
    exact ⟨(hfield _ _ _).symm.trans hbytes, hread⟩
  · rintro hall client rfl rfl hello certificate
    obtain ⟨hbytes, hread⟩ := hall client.buffers.signedDhABytes
    exact ⟨(hfield client hello certificate).trans hbytes, hread⟩

theorem reExports_iff (dhABytes : DhBytes) : ReExports dhABytes ↔ dhABytes.head ≠ 0 := by
  have hread : ∀ (unset : ClientHello) (primeBytes : DhBytes) (n0 : Nonce),
      (receiveClientHello unset (some (primeBytes.toList ++ dhABytes.toList ++ n0.toList))).dhA =
        mpzImport dhABytes := by
    intro unset primeBytes n0
    have hlength : dhKeySize + dhKeySize + nonceSize ≤
        (primeBytes.toList ++ dhABytes.toList ++ n0.toList).length := by
      simp only [List.length_append, List.Vector.toList_length, Nat.le_refl]
    simp only [receiveClientHello, dif_pos hlength]
    exact congrArg mpzImport (field_eq primeBytes.toList n0.toList (List.append_assoc _ _ _)
      (List.Vector.toList_length _) _)
  rw [← bytes_mpzImport_length_iff, ← mpzExport_mpzImport_iff]
  constructor
  · intro h rop
    let nonce : Nonce := List.Vector.replicate _ 0
    have hexport := h ⟨0, 0, nonce⟩ rop nonce rop
    rwa [hread] at hexport
  · intro h unset primeBytes n0 rop
    rw [hread]
    exact h rop

/-! ## All places -/

/-- **Fixed-width numbers.**  Wherever a number is serialised, it fills all bytes
of its array, whatever the array held, exactly when it needs them all; and the
bytes received as `dhA` survive import and export exactly when the first is not
zero. -/
theorem serialised_iff {prime dhA : Nat} (hprime : prime < 256 ^ dhKeySize)
    (hdhA : dhA < 256 ^ dhKeySize) {hello : ClientHello} {b : Nat}
    (hdhB : initializeValues hello.prime b < 256 ^ dhKeySize) {dh secret modulus : Nat}
    (hmaster : powm dh secret modulus < 256 ^ dhKeySize) {length randomNumber : Nat}
    (hrandom : randomNumber < 256 ^ length) {a : Nat}
    (hchecked : initializeValues prime a < 256 ^ dhKeySize) (dhABytes : DhBytes) :
    (ClientHelloEncodes prime dhA ↔ 256 ^ 255 ≤ prime ∧ 256 ^ 255 ≤ dhA) ∧
    (ServerHelloEncodes hello b ↔ 256 ^ 255 ≤ initializeValues hello.prime b) ∧
    (MasterKeyEncodes dh secret modulus ↔ 256 ^ 255 ≤ powm dh secret modulus) ∧
    (RandomBytesEncode length randomNumber ↔ length = 0 ∨ 256 ^ (length - 1) ≤ randomNumber) ∧
    (CheckedDhAEncodes prime a ↔ 256 ^ 255 ≤ initializeValues prime a) ∧
    (ReExports dhABytes ↔ dhABytes.head ≠ 0) :=
  ⟨clientHelloEncodes_iff hprime hdhA, serverHelloEncodes_iff hdhB, masterKeyEncodes_iff hmaster,
    randomBytesEncode_iff hrandom, checkedDhAEncodes_iff hchecked, reExports_iff dhABytes⟩

/-- The theorem at numbers of full width, and at a nonce that is too short. -/
theorem serialised_iff_largePrime :
    ClientHelloEncodes largePrime (2 ^ 2047) ∧
      ServerHelloEncodes ⟨largePrime, 2 ^ 2047, List.Vector.replicate _ 0⟩ 883 ∧
      MasterKeyEncodes (2 ^ 2047) 1 largePrime ∧ ¬ RandomBytesEncode nonceSize (2 ^ 119) ∧
      CheckedDhAEncodes largePrime 883 ∧ ReExports (List.Vector.replicate _ 1) := by
  let hello : ClientHello := ⟨largePrime, 2 ^ 2047, List.Vector.replicate _ 0⟩
  have hprime : largePrime < 256 ^ dhKeySize := by decide +kernel
  have hdhA : 2 ^ 2047 < 256 ^ dhKeySize := by decide +kernel
  have hdhB : initializeValues hello.prime 883 < 256 ^ dhKeySize := by decide +kernel
  have hmaster : powm (2 ^ 2047) 1 largePrime < 256 ^ dhKeySize := by decide +kernel
  have hnonce : 2 ^ 119 < 256 ^ nonceSize := by decide +kernel
  obtain ⟨hclient, hserver, hkey, hrandom, hchecked, hreceived⟩ :=
    serialised_iff hprime hdhA hdhB hmaster hnonce hdhB (List.Vector.replicate _ 1)
  refine ⟨hclient.mpr ⟨by decide +kernel, by decide +kernel⟩, hserver.mpr (by decide +kernel),
    hkey.mpr (by decide +kernel), ?_, hchecked.mpr (by decide +kernel),
    hreceived.mpr (by decide)⟩
  rw [hrandom]
  decide +kernel

/-- The nonce zero and the small prime 23 stay behind what their arrays held,
and bytes that begin with zero do not come back. -/
theorem short_numbers_not_serialised :
    ¬ RandomBytesEncode nonceSize 0 ∧ ¬ ClientHelloEncodes 23 10 ∧
      ¬ ReExports (List.Vector.replicate _ 0) := by
  refine ⟨?_, ?_, ?_⟩
  · rw [randomBytesEncode_iff (by decide)]
    decide
  · rw [clientHelloEncodes_iff (by decide +kernel) (by decide +kernel)]
    decide +kernel
  · rw [reExports_iff]
    decide

end ShardedLedger.KeyExchange
