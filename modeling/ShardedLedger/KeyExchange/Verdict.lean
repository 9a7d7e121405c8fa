import ShardedLedger.KeyExchange.Hello
set_option autoImplicit false

/-!
# KeyExchange: what the verdict on a server hello says

`is_server_response_sign_valid` compares the received certificate with the pinned
file, over the length of the received one, and returns what `validate_signed_data`
returns, which its caller reads as a truth value.  An unopened file is 1 there
and an error of OpenSSL is negative, so both count as accepted.
`verdictExact_iff` says exactly when the verdict is nevertheless the right one.
-/

namespace ShardedLedger.KeyExchange

open CString Channel

/-- The caller takes the result for valid. -/
def Outcome.Accepts (outcome : Outcome Int) : Prop :=
  ∃ valid, outcome = .returns valid ∧ valid ≠ 0

/-- The result is a rejection: zero, or the end of the process. -/
def Outcome.Rejects (outcome : Outcome Int) : Prop :=
  outcome = .returns 0 ∨ outcome = .exits

@[simp] theorem Outcome.accepts_returns_iff (valid : Int) :
    (Outcome.returns valid).Accepts ↔ valid ≠ 0 := by
  simp [Outcome.Accepts]

@[simp] theorem Outcome.rejects_returns_iff (valid : Int) :
    (Outcome.returns valid).Rejects ↔ valid = 0 := by
  simp [Outcome.Rejects]

section

variable (verifier : Verifier) (n0 n1 : Nonce) (dhABytes dhBBytes : DhBytes)
  (signature publicKeyFile : Bytes)

/-- The received certificate is the pinned file, and `EVP_DigestVerifyFinal` was
called and returned 1. -/
structure Genuine : Prop where
  pinned : verifier.serverPublicKey = some publicKeyFile
  reopens : verifier.reopens = true
  readsPublicKey : verifier.readsPublicKey = true
  verified : verifier.digestVerifyFinal
    (signedData n0 n1 dhABytes dhBBytes publicKeyFile) signature = 1

/-- The verdict accepts what is genuine, and rejects everything else. -/
def VerdictExact : Prop :=
  let outcome :=
    isServerResponseSignValid verifier n0 n1 dhABytes dhBBytes signature publicKeyFile
  (outcome.Accepts ↔ Genuine verifier n0 n1 dhABytes dhBBytes signature publicKeyFile) ∧
    (¬ Genuine verifier n0 n1 dhABytes dhBBytes signature publicKeyFile → outcome.Rejects)

/-! ## The branches -/

/-- Without the pinned file the behaviour is undefined. -/
theorem isServerResponseSignValid_none (h : verifier.serverPublicKey = none) :
    isServerResponseSignValid verifier n0 n1 dhABytes dhBBytes signature publicKeyFile =
      .undefined := by
  simp only [isServerResponseSignValid, h]

/-- `memcmp` finds a difference. -/
theorem isServerResponseSignValid_of_ne {serverPublicKey : Bytes}
    (h : verifier.serverPublicKey = some serverPublicKey)
    (hne : (serverPublicKey ++ verifier.behind).take publicKeyFile.length ≠ publicKeyFile) :
    isServerResponseSignValid verifier n0 n1 dhABytes dhBBytes signature publicKeyFile =
      .returns 0 := by
  simp only [isServerResponseSignValid, h, if_pos hne]

/-- `memcmp` finds none. -/
theorem isServerResponseSignValid_of_eq {serverPublicKey : Bytes}
    (h : verifier.serverPublicKey = some serverPublicKey)
    (heq : (serverPublicKey ++ verifier.behind).take publicKeyFile.length = publicKeyFile) :
    isServerResponseSignValid verifier n0 n1 dhABytes dhBBytes signature publicKeyFile =
      validateSignedData verifier (signedData n0 n1 dhABytes dhBBytes serverPublicKey)
        signature := by
  simp only [isServerResponseSignValid, h, heq, ne_eq, not_true_eq_false, if_false]

/-- `validate_signed_data` rejects only with a file that it can open. -/
theorem validateSignedData_rejects_iff (data : Bytes) :
    (validateSignedData verifier data signature).Rejects ↔
      verifier.reopens = true ∧
        (verifier.readsPublicKey = false ∨ verifier.digestVerifyFinal data signature = 0) := by
  unfold validateSignedData
  cases hreopens : verifier.reopens with
  | false => simp
  | true =>
      cases hreads : verifier.readsPublicKey with
      | false => simp [Outcome.Rejects]
      | true => simp

/-- What is genuine, once the pinned file can be opened. -/
theorem genuine_iff {serverPublicKey : Bytes}
    (h : verifier.serverPublicKey = some serverPublicKey) :
    Genuine verifier n0 n1 dhABytes dhBBytes signature publicKeyFile ↔
      publicKeyFile = serverPublicKey ∧ verifier.reopens = true ∧
        verifier.readsPublicKey = true ∧ verifier.digestVerifyFinal
          (signedData n0 n1 dhABytes dhBBytes serverPublicKey) signature = 1 := by
  constructor
  · intro hgenuine
    obtain rfl : serverPublicKey = publicKeyFile :=
      Option.some.inj (h.symm.trans hgenuine.pinned)
    exact ⟨rfl, hgenuine.reopens, hgenuine.readsPublicKey, hgenuine.verified⟩
  · rintro ⟨rfl, hreopens, hreads, hverified⟩
    exact ⟨h, hreopens, hreads, hverified⟩

/-- What is genuine is accepted. -/
theorem accepts_of_genuine
    (h : Genuine verifier n0 n1 dhABytes dhBBytes signature publicKeyFile) :
    isServerResponseSignValid verifier n0 n1 dhABytes dhBBytes signature publicKeyFile =
      .returns 1 := by
  rw [isServerResponseSignValid_of_eq verifier n0 n1 dhABytes dhBBytes signature publicKeyFile
    h.pinned List.take_left]
  unfold validateSignedData
  rw [h.reopens, h.readsPublicKey, h.verified]
  rfl

/-- So the verdict is exact where everything that is not genuine is rejected. -/
theorem verdictExact_iff_rejects :
    VerdictExact verifier n0 n1 dhABytes dhBBytes signature publicKeyFile ↔
      (¬ Genuine verifier n0 n1 dhABytes dhBBytes signature publicKeyFile →
        (isServerResponseSignValid verifier n0 n1 dhABytes dhBBytes signature
          publicKeyFile).Rejects) := by
  constructor
  · intro h
    exact h.2
  · intro hrejects
    refine ⟨⟨?_, ?_⟩, hrejects⟩
    · rintro ⟨valid, houtcome, hne⟩
      by_contra hnot
      have hreject := hrejects hnot
      rw [houtcome, Outcome.rejects_returns_iff] at hreject
      exact hne hreject
    · intro hgenuine
      rw [accepts_of_genuine verifier n0 n1 dhABytes dhBBytes signature publicKeyFile hgenuine]
      exact (Outcome.accepts_returns_iff 1).mpr (by decide)

/-- **The verdict is exact** if and only if the pinned file can be opened, and
either the received certificate differs from it within its own length, or the
file can be opened again and holds no public key, or verification returns 0, or
it returns 1 and the received certificate is the whole file. -/
theorem verdictExact_iff :
    VerdictExact verifier n0 n1 dhABytes dhBBytes signature publicKeyFile ↔
      ∃ serverPublicKey, verifier.serverPublicKey = some serverPublicKey ∧
        ((serverPublicKey ++ verifier.behind).take publicKeyFile.length ≠ publicKeyFile ∨
          verifier.reopens = true ∧
            (verifier.readsPublicKey = false ∨
              verifier.digestVerifyFinal (signedData n0 n1 dhABytes dhBBytes serverPublicKey)
                signature = 0 ∨
              publicKeyFile = serverPublicKey ∧
                verifier.digestVerifyFinal (signedData n0 n1 dhABytes dhBBytes serverPublicKey)
                  signature = 1)) := by
  rw [verdictExact_iff_rejects]
  cases hfile : verifier.serverPublicKey with
  | none =>
      have hnot : ¬ Genuine verifier n0 n1 dhABytes dhBBytes signature publicKeyFile := fun h =>
        absurd (hfile.symm.trans h.pinned) (by simp)
      rw [isServerResponseSignValid_none verifier n0 n1 dhABytes dhBBytes signature publicKeyFile
        hfile]
      simp [hnot, Outcome.Rejects]
  | some serverPublicKey =>
      simp only [Option.some.injEq, exists_eq_left']
      by_cases hcompare :
          (serverPublicKey ++ verifier.behind).take publicKeyFile.length = publicKeyFile
      · have houtcome := isServerResponseSignValid_of_eq verifier n0 n1 dhABytes dhBBytes
          signature publicKeyFile hfile hcompare
        have hgenuine := genuine_iff verifier n0 n1 dhABytes dhBBytes signature publicKeyFile hfile
        rw [houtcome, validateSignedData_rejects_iff, hgenuine]
        simp only [hcompare, ne_eq, not_true_eq_false, false_or]
        cases verifier.reopens with
        | false => simp
        | true =>
            cases verifier.readsPublicKey with
            | false => simp
            | true =>
                simp only [true_and, Bool.true_eq_false, false_or]
                rw [or_comm, or_iff_not_imp_left]
      · rw [isServerResponseSignValid_of_ne verifier n0 n1 dhABytes dhBBytes signature
          publicKeyFile hfile hcompare]
        simp [hcompare]

end

/-- A verifier with the pinned key `KEY`, for which OpenSSL answers `result`. -/
def verifierReturning (reopens : Bool) (result : Int) : Verifier where
  serverPublicKey := some (ascii "KEY")
  behind := []
  reopens := reopens
  readsPublicKey := true
  digestVerifyFinal := fun _ _ => result

/-- Wrong verdicts: a certificate that only begins like the pinned key, an error
-1 of OpenSSL, and a file that cannot be opened again. -/
theorem inexact_verdicts :
    let nonce : Nonce := List.Vector.replicate _ 0
    let zeros : DhBytes := List.Vector.replicate _ 0
    ¬ VerdictExact (verifierReturning true 1) nonce nonce zeros zeros [] (ascii "KE") ∧
      ¬ VerdictExact (verifierReturning true (-1)) nonce nonce zeros zeros [] (ascii "KEY") ∧
      ¬ VerdictExact (verifierReturning false 0) nonce nonce zeros zeros [] (ascii "KEY") := by
  intro nonce zeros
  refine ⟨?_, ?_, ?_⟩
  · rintro ⟨hexact, _⟩
    have hgenuine := hexact.mp ⟨1, by decide, by decide⟩
    exact absurd hgenuine.pinned (by decide)
  · rintro ⟨hexact, _⟩
    have hgenuine := hexact.mp ⟨-1, by decide, by decide⟩
    exact absurd hgenuine.verified (by decide)
  · rintro ⟨hexact, _⟩
    have hgenuine := hexact.mp ⟨1, by decide, by decide⟩
    exact absurd hgenuine.reopens (by decide)

end ShardedLedger.KeyExchange
