import ShardedLedger.Foundation.Arrays
import ShardedLedger.Server.Store
set_option autoImplicit false

/-!
# Server: the representation of a block

Whatever calls are made, every block of the chain holds a terminated string of
data, a hash of exactly 64 hexadecimal digits, and a previous hash that is empty
or of the same kind (`represented_of_reachable`).  So nothing that is hashed or
compared is ever cut.

`printDigest` is the loop of `compute_hash` on the bytes of `output_hash`;
`printDigest_eq` says that it leaves the buffer the model of `compute_hash`
hands back, whatever the array held before.
-/

namespace ShardedLedger.Server

open CString Sha256

/-! ## The text of a hash -/

/-- 64 hexadecimal digits, in lower case. -/
structure HashText (s : Bytes) : Prop where
  length_eq : s.length = 64
  digits : ∀ c ∈ s, IsHexDigit c

theorem hashText_hexDigest (d : Digest) : HashText (hexDigest d) :=
  ⟨hexDigest_length d, fun _ hc => isHexDigit_of_mem_hexString hc⟩

theorem HashText.ne_nil {s : Bytes} (h : HashText s) : s ≠ [] := by
  intro hnil
  have hlength := h.length_eq
  rw [hnil] at hlength
  exact absurd hlength (by decide)

theorem HashText.nul_not_mem {s : Bytes} (h : HashText s) : (0 : UInt8) ∉ s := by
  intro hmem
  exact absurd (h.digits 0 hmem) (by decide)

/-- The array holds the text of a hash and its terminator, and nothing else. -/
def HoldsHash (array : CharBuf hashSize) : Prop :=
  ∃ s, HashText s ∧ array.bytes = s ++ [0]

theorem HoldsHash.str {array : CharBuf hashSize} (h : HoldsHash array) : HashText array.str := by
  obtain ⟨s, hs, hbytes⟩ := h
  have hstr : array.str = s := by
    rw [CharBuf.str, hbytes]
    exact cstr_append_nul hs.nul_not_mem []
  rw [hstr]
  exact hs

/-- A copy of the text of a hash fills the array. -/
theorem holdsHash_ofStr {s : Bytes} (h : HashText s) : HoldsHash (CharBuf.ofStr 64 s) := by
  refine ⟨s, h, ?_⟩
  have hcopy : (cstr s).take 64 = s := by
    rw [cstr_eq_self h.nul_not_mem]
    exact List.take_of_length_le (Nat.le_of_eq h.length_eq)
  simp only [CharBuf.ofStr, hcopy, h.length_eq]
  rfl

/-! ## The printing of a digest -/

/-- The loop of `compute_hash` from byte `i` of the digest on:
`sprintf(output_hash + (i * 2), "%02x", hash[i])`. -/
def printDigest : Nat → Bytes → Bytes → Bytes
  | _, [], outputHash => outputHash
  | i, b :: rest, outputHash =>
      printDigest (i + 1) rest (writeString (i * 2) (hexByte b) outputHash)

/-- The loop keeps what it has printed and goes on behind it. -/
theorem printDigest_spec (i : Nat) (bs outputHash : Bytes)
    (hroom : i * 2 + bs.length * 2 < outputHash.length) :
    (printDigest i bs outputHash).length = outputHash.length ∧
      (printDigest i bs outputHash).take (i * 2 + bs.length * 2) =
        outputHash.take (i * 2) ++ hexString bs := by
  induction bs generalizing i outputHash with
  | nil => simp [printDigest, hexString]
  | cons b rest ih =>
      have hbyte : (hexByte b).length = 2 := rfl
      rw [List.length_cons] at hroom
      have hwritten : (writeString (i * 2) (hexByte b) outputHash).length = outputHash.length :=
        writeString_length (by omega)
      have hfront : (writeString (i * 2) (hexByte b) outputHash).take ((i + 1) * 2) =
          outputHash.take (i * 2) ++ hexByte b := by
        have hwithin : i * 2 ≤ outputHash.length := by omega
        have htake := take_writeAt (s := hexByte b ++ [0]) hwithin
        have hcut := congrArg (List.take ((i + 1) * 2)) htake
        rw [List.take_take, List.length_append, hbyte, List.length_singleton,
          Nat.min_eq_left (by omega), ← List.append_assoc, List.take_append_of_le_length] at hcut
        · rw [writeString, hcut]
          refine List.take_of_length_le ?_
          rw [List.length_append, List.length_take, hbyte]
          omega
        · rw [List.length_append, List.length_take, hbyte]
          omega
      obtain ⟨hlength, htake⟩ := ih (i + 1) (writeString (i * 2) (hexByte b) outputHash)
        (by rw [hwritten]; omega)
      refine ⟨by rw [printDigest, hlength, hwritten], ?_⟩
      rw [printDigest, List.length_cons, show i * 2 + (rest.length + 1) * 2 =
        (i + 1) * 2 + rest.length * 2 by omega, htake, hfront, List.append_assoc]
      rfl

variable (sha256 : Bytes → Digest)

/-- With the terminator written behind the loop, `output_hash` is what the model
of `compute_hash` hands back. -/
theorem printDigest_eq (data : CharBuf maxLine) (old outputHash : Buf hashSize)
    (previousHash : CharBuf hashSize) :
    (printDigest 0 (sha256 (data.str ++ previousHash.str)).toList outputHash.toList).set
        (hashSize - 1) 0 =
      (computeHash sha256 data old previousHash).outputHash.bytes := by
  let digest := sha256 (data.str ++ previousHash.str)
  let printed := printDigest 0 digest.toList outputHash.toList
  have hdigest : digest.toList.length = 32 := digest.toList_length
  have harray : outputHash.toList.length = 65 := outputHash.toList_length
  obtain ⟨hlength, htake⟩ := printDigest_spec 0 digest.toList outputHash.toList (by omega)
  rw [hdigest, Nat.zero_mul, List.take_zero, List.nil_append] at htake
  have hlast : ∃ c, printed = hexDigest digest ++ [c] := by
    have hdrop : (printed.drop 64).length = 1 := by
      rw [List.length_drop, hlength, harray]
    obtain ⟨c, hc⟩ := List.length_eq_one_iff.mp hdrop
    refine ⟨c, ?_⟩
    rw [← List.take_append_drop 64 printed, hc]
    exact congrArg (· ++ [c]) htake
  obtain ⟨c, hprinted⟩ := hlast
  have hmodel : (computeHash sha256 data old previousHash).outputHash =
      CharBuf.ofStr 64 (hexDigest digest) := by
    have hhashed := computeHash_hashed sha256 data old previousHash
    simp only [computeHash] at hhashed ⊢
    rw [hhashed]
  obtain ⟨s, hs, hbytes⟩ := holdsHash_ofStr (hashText_hexDigest digest)
  have hsame : s = hexDigest digest := by
    have hstr := str_ofStr_link sha256 data.str previousHash.str
    rw [CharBuf.str, show CharBuf.ofStr 64 (link sha256 data.str previousHash.str) =
      CharBuf.ofStr 64 (hexDigest digest) from rfl, hbytes, cstr_append_nul hs.nul_not_mem] at hstr
    exact hstr
  change printed.set 64 0 = _
  rw [hmodel, hbytes, hsame, hprinted, List.set_append_right _ _ (by rw [hexDigest_length]),
    hexDigest_length]
  rfl

/-! ## The invariant -/

/-- The text of a previous hash: none for a first block. -/
def PreviousText (s : Bytes) : Prop := s = [] ∨ HashText s

/-- What every block of the chain looks like. -/
structure Represented (block : Block) : Prop where
  data : block.data.bytes.length = 256 ∧ (0 : UInt8) ∈ block.data.bytes
  hash : HoldsHash block.hash
  previousHash : block.previousHash.str = [] ∨ HoldsHash block.previousHash

theorem represented_relink {p : Bytes} (hp : PreviousText p) {block : Block}
    (h : Represented block) : Represented (relink p block) := by
  refine ⟨h.data, h.hash, ?_⟩
  rcases hp with rfl | hp
  · exact Or.inl emptyHash_str
  · exact Or.inr (holdsHash_ofStr hp)

theorem represented_newBlock (payload : Bytes) {chain : List Block}
    (h : PreviousText (headHash chain)) : Represented (newBlock sha256 payload chain) := by
  refine ⟨⟨(CharBuf.ofStr 255 payload).length_eq, (CharBuf.ofStr 255 payload).terminated⟩,
    holdsHash_ofStr (hashText_hexDigest _), ?_⟩
  rcases h with hempty | hhash
  · refine Or.inl ?_
    rw [newBlock, hempty]
    exact emptyHash_str
  · exact Or.inr (holdsHash_ofStr hhash)

/-- A validation writes hashes of the chain into it, and none for the first block. -/
theorem represented_check {p : Bytes} (hp : PreviousText p) {chain : List Block}
    (h : ∀ block ∈ chain, Represented block) :
    ∀ block ∈ (check sha256 p chain).blocks, Represented block := by
  induction chain generalizing p with
  | nil => exact h
  | cons block rest ih =>
      have hblock := h block List.mem_cons_self
      have hrest := fun b hb => h b (List.mem_cons_of_mem _ hb)
      rw [check]
      split
      · refine List.forall_mem_cons.mpr ⟨represented_relink hp hblock, ?_⟩
        exact ih (Or.inr hblock.hash.str) hrest
      · exact List.forall_mem_cons.mpr ⟨represented_relink hp hblock, hrest⟩

theorem previousText_headHash {chain : List Block} (h : ∀ block ∈ chain, Represented block) :
    PreviousText (headHash chain) := by
  cases chain with
  | nil => exact Or.inl rfl
  | cons block rest => exact Or.inr (h block List.mem_cons_self).hash.str

/-- One call keeps the representation. -/
theorem represented_apply {chain : List Block} (h : ∀ block ∈ chain, Represented block)
    (op : Operation) : ∀ block ∈ op.apply sha256 chain, Represented block := by
  have hnone : PreviousText [] := Or.inl rfl
  cases op with
  | store malloc payload =>
      cases malloc with
      | none => exact h
      | some raw =>
          simp only [Operation.apply, storeData_some]
          refine represented_check sha256 hnone ?_
          rw [List.forall_mem_append, List.forall_mem_singleton]
          exact ⟨h, represented_newBlock sha256 payload (previousText_headHash h)⟩
  | retrieve =>
      simp only [Operation.apply, retrieveData, validateBlockchain_eq_check]
      exact represented_check sha256 hnone h
  | validate =>
      simp only [Operation.apply, validateBlockchain_eq_check]
      exact represented_check sha256 hnone h

/-- **Invariant.**  Every block of a reachable chain is represented as the arrays
are meant to be. -/
theorem represented_of_reachable {chain : List Block} (h : Reachable sha256 chain) :
    ∀ block ∈ chain, Represented block := by
  obtain ⟨ops, rfl⟩ := h
  induction ops using List.reverseRecOn with
  | nil => exact fun block hblock => absurd hblock List.not_mem_nil
  | append_singleton ops op ih =>
      rw [runOperations_concat]
      exact represented_apply sha256 ih op

/-- **Block representation.**  After every sequence of calls the data of each
block is terminated within its 256 bytes, its hash is 64 hexadecimal digits and
its previous hash empty or 64 hexadecimal digits.  `compute_hash` then hashes the
data followed by the previous hash, whole, and a comparison of 64 characters
decides the equality of two hashes. -/
theorem block_representation {chain : List Block} (hreach : Reachable sha256 chain) :
    (∀ block ∈ chain, Represented block) ∧
    (∀ (data : CharBuf maxLine) (old : Buf hashSize) (previousHash : CharBuf hashSize),
      (computeHash sha256 data old previousHash).hashed = data.str ++ previousHash.str) ∧
    (∀ left right : CharBuf hashSize,
      strncmp (hashSize - 1) left.bytes right.bytes = 0 ↔ left.str = right.str) :=
  ⟨represented_of_reachable sha256 hreach, computeHash_hashed sha256,
    strncmp_hash_eq_zero_iff⟩

/-- The theorem after two stores, a failed one and a retrieval. -/
theorem block_representation_two_stores :
    let chain := runOperations Sha256.sha256 [.store (some zeroBlock) (ascii "a"),
      .store none (ascii "b"), .retrieve, .store (some zeroBlock) (List.replicate 300 99)]
    (∀ block ∈ chain, Represented block) ∧
    (∀ (data : CharBuf maxLine) (old : Buf hashSize) (previousHash : CharBuf hashSize),
      (computeHash Sha256.sha256 data old previousHash).hashed = data.str ++ previousHash.str) ∧
    (∀ left right : CharBuf hashSize,
      strncmp (hashSize - 1) left.bytes right.bytes = 0 ↔ left.str = right.str) :=
  block_representation Sha256.sha256 ⟨_, rfl⟩

end ShardedLedger.Server
