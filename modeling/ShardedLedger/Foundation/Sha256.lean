import ShardedLedger.Foundation.CString
set_option autoImplicit false

/-!
# Foundation: digests, their hexadecimal text, and SHA-256

A digest is an array of 32 bytes.  `hexString` is the text that printing every
byte with `"%02x"` gives: 64 lowercase characters, from which the digest can be
read back (`hexString_injective`).

`sha256` is SHA-256 as FIPS 180-4 states it, on byte sequences.  Nothing is
proved about it beyond the width of its result: the developments that use it
take the hash as a parameter and this function as the instance to run.
-/

namespace ShardedLedger.Sha256

open CString

/-- The 32 bytes of a SHA-256 digest. -/
abbrev Digest : Type := Buf 32

/-! ## Hexadecimal text -/

/-- The lowercase hexadecimal character of a number below sixteen. -/
def hexDigit (n : Nat) : UInt8 := if n < 10 then UInt8.ofNat (48 + n) else UInt8.ofNat (87 + n)

/-- A character that `hexDigit` can produce: `0`–`9` or `a`–`f`. -/
def IsHexDigit (c : UInt8) : Prop := (48 ≤ c ∧ c ≤ 57) ∨ (97 ≤ c ∧ c ≤ 102)

instance (c : UInt8) : Decidable (IsHexDigit c) := inferInstanceAs (Decidable (_ ∨ _))

/-- `sprintf(s, "%02x", b)`. -/
def hexByte (b : UInt8) : Bytes := [hexDigit (b.toNat / 16), hexDigit (b.toNat % 16)]

/-- The bytes printed one after the other with `"%02x"`. -/
def hexString (bs : Bytes) : Bytes := bs.flatMap hexByte

@[simp] theorem hexString_length (bs : Bytes) : (hexString bs).length = 2 * bs.length := by
  induction bs with
  | nil => rfl
  | cons b bs ih =>
      simp only [hexString, List.flatMap_cons, List.length_append] at ih ⊢
      simp only [hexByte, List.length_cons, List.length_nil, ih]
      omega

theorem isHexDigit_hexDigit : ∀ n < 16, IsHexDigit (hexDigit n) := by decide

theorem hexDigit_injective : ∀ m < 16, ∀ n < 16, hexDigit m = hexDigit n → m = n := by decide

theorem isHexDigit_of_mem_hexString {bs : Bytes} {c : UInt8} (h : c ∈ hexString bs) :
    IsHexDigit c := by
  obtain ⟨b, _, hc⟩ := List.mem_flatMap.mp h
  have hb : b.toNat < 256 := b.toNat_lt
  simp only [hexByte, List.mem_cons, List.not_mem_nil, or_false] at hc
  rcases hc with rfl | rfl
  · exact isHexDigit_hexDigit _ (by omega)
  · exact isHexDigit_hexDigit _ (by omega)

theorem nul_not_mem_hexString (bs : Bytes) : (0 : UInt8) ∉ hexString bs := by
  intro h
  exact absurd (isHexDigit_of_mem_hexString h) (by decide)

theorem hexByte_injective {a b : UInt8} (h : hexByte a = hexByte b) : a = b := by
  have ha : a.toNat < 256 := a.toNat_lt
  have hb : b.toNat < 256 := b.toNat_lt
  simp only [hexByte, List.cons.injEq, and_true] at h
  have h1 := hexDigit_injective _ (by omega) _ (by omega) h.1
  have h2 := hexDigit_injective _ (by omega) _ (by omega) h.2
  exact UInt8.toNat_inj.mp (by omega)

/-- The text determines the bytes. -/
theorem hexString_injective : Function.Injective hexString := by
  intro bs
  induction bs with
  | nil =>
      intro cs h
      have := congrArg List.length h
      simp only [hexString_length, List.length_nil] at this
      exact (List.length_eq_zero_iff.mp (by omega)).symm
  | cons b bs ih =>
      intro cs h
      cases cs with
      | nil =>
          have := congrArg List.length h
          simp at this
      | cons c cs =>
          simp only [hexString, List.flatMap_cons] at h
          obtain ⟨hhead, htail⟩ := List.append_inj h rfl
          rw [hexByte_injective hhead, ih htail]

/-- The 64 characters of a digest. -/
def hexDigest (d : Digest) : Bytes := hexString d.toList

@[simp] theorem hexDigest_length (d : Digest) : (hexDigest d).length = 64 := by
  simp [hexDigest]

theorem nul_not_mem_hexDigest (d : Digest) : (0 : UInt8) ∉ hexDigest d :=
  nul_not_mem_hexString _

theorem hexDigest_injective : Function.Injective hexDigest := fun _ _ h =>
  List.Vector.toList_injective (hexString_injective h)

/-- No two different strings of the list have the same digest. -/
def CollisionFreeOn (hash : Bytes → Digest) (strings : List Bytes) : Prop :=
  ∀ s ∈ strings, ∀ t ∈ strings, hash s = hash t → s = t

instance (hash : Bytes → Digest) (strings : List Bytes) :
    Decidable (CollisionFreeOn hash strings) :=
  inferInstanceAs (Decidable (∀ s ∈ strings, ∀ t ∈ strings, hash s = hash t → s = t))

theorem CollisionFreeOn.mono {hash : Bytes → Digest} {fewer more : List Bytes}
    (h : CollisionFreeOn hash more) (hsub : fewer ⊆ more) : CollisionFreeOn hash fewer :=
  fun s hs t ht heq => h s (hsub hs) t (hsub ht) heq

/-- Two strings with different digests do not collide. -/
theorem collisionFreeOn_pair {hash : Bytes → Digest} {s t : Bytes} (h : hash s ≠ hash t) :
    CollisionFreeOn hash [s, t] := by
  intro x hx y hy heq
  simp only [List.mem_cons, List.not_mem_nil, or_false] at hx hy
  rcases hx with rfl | rfl
  · rcases hy with rfl | rfl
    · rfl
    · exact absurd heq h
  · rcases hy with rfl | rfl
    · exact absurd heq.symm h
    · rfl

/-! ## SHA-256 (FIPS 180-4) -/

/-- The round constants (section 4.2.2). -/
def roundConstants : List UInt32 := [
  0x428a2f98, 0x71374491, 0xb5c0fbcf, 0xe9b5dba5, 0x3956c25b, 0x59f111f1, 0x923f82a4, 0xab1c5ed5,
  0xd807aa98, 0x12835b01, 0x243185be, 0x550c7dc3, 0x72be5d74, 0x80deb1fe, 0x9bdc06a7, 0xc19bf174,
  0xe49b69c1, 0xefbe4786, 0x0fc19dc6, 0x240ca1cc, 0x2de92c6f, 0x4a7484aa, 0x5cb0a9dc, 0x76f988da,
  0x983e5152, 0xa831c66d, 0xb00327c8, 0xbf597fc7, 0xc6e00bf3, 0xd5a79147, 0x06ca6351, 0x14292967,
  0x27b70a85, 0x2e1b2138, 0x4d2c6dfc, 0x53380d13, 0x650a7354, 0x766a0abb, 0x81c2c92e, 0x92722c85,
  0xa2bfe8a1, 0xa81a664b, 0xc24b8b70, 0xc76c51a3, 0xd192e819, 0xd6990624, 0xf40e3585, 0x106aa070,
  0x19a4c116, 0x1e376c08, 0x2748774c, 0x34b0bcb5, 0x391c0cb3, 0x4ed8aa4a, 0x5b9cca4f, 0x682e6ff3,
  0x748f82ee, 0x78a5636f, 0x84c87814, 0x8cc70208, 0x90befffa, 0xa4506ceb, 0xbef9a3f7, 0xc67178f2]

/-- The eight words of the hash value, and the working variables of a round. -/
structure Words where
  a : UInt32
  b : UInt32
  c : UInt32
  d : UInt32
  e : UInt32
  f : UInt32
  g : UInt32
  h : UInt32

/-- The initial hash value (section 5.3.3). -/
def initialHash : Words :=
  ⟨0x6a09e667, 0xbb67ae85, 0x3c6ef372, 0xa54ff53a, 0x510e527f, 0x9b05688c, 0x1f83d9ab, 0x5be0cd19⟩

def rotr (x n : UInt32) : UInt32 := (x >>> n) ||| (x <<< (32 - n))

/-- One round (section 6.2.2, step 3); `kw` is the sum of constant and schedule word. -/
def round (v : Words) (kw : UInt32) : Words :=
  let sum1 := rotr v.e 6 ^^^ rotr v.e 11 ^^^ rotr v.e 25
  let ch := (v.e &&& v.f) ^^^ (~~~ v.e &&& v.g)
  let t1 := v.h + sum1 + ch + kw
  let sum0 := rotr v.a 2 ^^^ rotr v.a 13 ^^^ rotr v.a 22
  let maj := (v.a &&& v.b) ^^^ (v.a &&& v.c) ^^^ (v.b &&& v.c)
  ⟨t1 + (sum0 + maj), v.a, v.b, v.c, v.d + t1, v.e, v.f, v.g⟩

/-- The big-endian word at the start of a byte sequence. -/
def wordAt : Bytes → UInt32
  | b0 :: b1 :: b2 :: b3 :: _ =>
      (b0.toUInt32 <<< 24) ||| (b1.toUInt32 <<< 16) ||| (b2.toUInt32 <<< 8) ||| b3.toUInt32
  | _ => 0

/-- The first `n` words of a byte sequence. -/
def wordsOf : Nat → Bytes → List UInt32
  | 0, _ => []
  | n + 1, bs => wordAt bs :: wordsOf n (bs.drop 4)

/-- The message schedule (section 6.2.2, step 1), from a window of sixteen words. -/
def schedule : Nat → List UInt32 → List UInt32
  | 0, _ => []
  | n + 1, window =>
      let w1 := window.getD 1 0
      let w14 := window.getD 14 0
      let sigma0 := rotr w1 7 ^^^ rotr w1 18 ^^^ (w1 >>> 3)
      let sigma1 := rotr w14 17 ^^^ rotr w14 19 ^^^ (w14 >>> 10)
      let next := window.getD 0 0 + sigma0 + window.getD 9 0 + sigma1
      window.getD 0 0 :: schedule n (window.drop 1 ++ [next])

/-- The hash value after one more 64-byte block (section 6.2.2). -/
def compress (v : Words) (block : Bytes) : Words :=
  let r := (List.zipWith (· + ·) roundConstants (schedule 64 (wordsOf 16 block))).foldl round v
  ⟨v.a + r.a, v.b + r.b, v.c + r.c, v.d + r.d, v.e + r.e, v.f + r.f, v.g + r.g, v.h + r.h⟩

def hashBlocks : Nat → Words → Bytes → Words
  | 0, v, _ => v
  | n + 1, v, bs => hashBlocks n (compress v (bs.take 64)) (bs.drop 64)

/-- The padded message (section 5.1.1). -/
def pad (message : Bytes) : Bytes :=
  message ++ 0x80 :: List.replicate ((55 + 64 - message.length % 64) % 64) 0 ++
    (List.range 8).map fun i => UInt8.ofNat (8 * message.length / 256 ^ (7 - i))

def wordBytes (w : UInt32) : Bytes :=
  [(w >>> 24).toUInt8, (w >>> 16).toUInt8, (w >>> 8).toUInt8, w.toUInt8]

/-- SHA-256 of a byte sequence. -/
def sha256 (message : Bytes) : Digest :=
  let padded := pad message
  let v := hashBlocks (padded.length / 64) initialHash padded
  ⟨wordBytes v.a ++ wordBytes v.b ++ wordBytes v.c ++ wordBytes v.d ++
    wordBytes v.e ++ wordBytes v.f ++ wordBytes v.g ++ wordBytes v.h, rfl⟩

/-- The digest of `"abc"` (the example of FIPS 180-4). -/
example : (sha256 [97, 98, 99]).toList =
    [0xba, 0x78, 0x16, 0xbf, 0x8f, 0x01, 0xcf, 0xea, 0x41, 0x41, 0x40, 0xde, 0x5d, 0xae, 0x22, 0x23,
     0xb0, 0x03, 0x61, 0xa3, 0x96, 0x17, 0x7a, 0x9c, 0xb4, 0x10, 0xff, 0x61, 0xf2, 0x00, 0x15,
     0xad] := by
  decide +kernel

end ShardedLedger.Sha256
