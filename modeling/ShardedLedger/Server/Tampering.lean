import ShardedLedger.Server.Memory
set_option autoImplicit false

/-!
# Server: validation of memory of any content

What the answer of `validate_blockchain` says about memory that something other
than the program may have written to: blocks with other bytes, pointers that
dangle or lead back.

`validateBlockchainAt_accepts_iff`: it answers 1 exactly for a list of blocks
that ends, with terminated data and a chain of hashes.
`retrieveDataAt_of_accepted_iff`: it compares 64 characters of each hash, and
`retrieve_data`, which prints the hash as a string, relies on one more.
-/

namespace ShardedLedger.Server

open CString Sha256 LinkedList

/-- The data and the hash of a block as validation reads them. -/
def rawView (raw : RawBlock) : Bytes × Bytes :=
  (cstr raw.data.toList, (cstr raw.hash.toList).take 64)

theorem readString_eq_some_iff {n : Nat} {array : Buf n} {b : CharBuf n} :
    readString array = some b ↔ b.bytes = array.toList := by
  unfold readString
  split
  · rw [Option.some.injEq]
    constructor
    · rintro rfl
      rfl
    · exact fun h => CharBuf.ext h.symm
  · rename_i hunterminated
    refine iff_of_false (Option.some_ne_none b).symm fun h => hunterminated ?_
    rw [← h]
    exact b.terminated

theorem exists_readString_iff {n : Nat} {array : Buf n} :
    (∃ b, readString array = some b) ↔ (0 : UInt8) ∈ array.toList := by
  constructor
  · rintro ⟨b, h⟩
    rw [← readString_eq_some_iff.mp h]
    exact b.terminated
  · intro h
    exact ⟨_, dif_pos h⟩

section

variable {Addr : Type} [DecidableEq Addr] (sha256 : Bytes → Digest)

/-- What an iteration that goes through did: the block can be read, and if the
loop answers 1, then its hash is right and the rest was accepted. -/
theorem validateLoopAt_inv {blockchainHead : Option Addr} {a : Addr} {fuel : Nat}
    {heap : Heap Addr RawBlock} {expected : CharBuf hashSize} {validation : ValidationAt Addr}
    (h : validateLoopAt sha256 blockchainHead (fuel + 1) heap (some a) expected = some validation)
    (hvalid : validation.valid = true) :
    ∃ raw next rest, heap a = some ⟨raw, next⟩ ∧ (0 : UInt8) ∈ raw.data.toList ∧
      (rawView raw).2 = link sha256 (rawView raw).1 expected.str ∧
      validateLoopAt sha256 blockchainHead fuel (heap.put a ⟨relinkRaw expected.str raw, next⟩)
        next (CharBuf.ofStr 64 raw.hash.toList) = some rest ∧ rest.valid = true := by
  cases hcell : heap a with
  | none =>
      simp only [validateLoopAt, computeHashAt, Heap.load_some, hcell, Option.bind_eq_bind,
        Option.bind_none, reduceCtorEq] at h
  | some cell =>
      obtain ⟨raw, next⟩ := cell
      cases hdata : readString raw.data with
      | none =>
          simp only [validateLoopAt, computeHashAt, Heap.load_some, hcell, hdata,
            Option.bind_eq_bind, Option.bind_some, Option.bind_none, reduceCtorEq] at h
      | some data =>
          have hstr : data.str = (rawView raw).1 := by
            rw [rawView, ← readString_eq_some_iff.mp hdata]
            rfl
          rw [validateLoopAt_succ sha256 hcell hdata, hstr] at h
          split at h
          · rename_i hhash
            obtain ⟨rest, hrest, rfl⟩ := Option.map_eq_some_iff.mp h
            exact ⟨raw, next, rest, rfl, exists_readString_iff.mp ⟨data, hdata⟩, hhash, hrest,
              hvalid⟩
          · cases h
            cases hvalid

/-- **Acceptance is sound.**  A loop that answers 1 went through a list that
ends in null: on a cycle it would not have come to an end. -/
theorem validateLoopAt_sound {blockchainHead p : Option Addr} {fuel : Nat}
    {heap : Heap Addr RawBlock} {expected : CharBuf hashSize} {validation : ValidationAt Addr}
    (h : validateLoopAt sha256 blockchainHead fuel heap p expected = some validation)
    (hvalid : validation.valid = true) :
    ∃ as raws, Segment heap p as raws none ∧ (∀ raw ∈ raws, (0 : UInt8) ∈ raw.data.toList) ∧
      HashChain.Sealed (link sha256) expected.str (raws.map rawView) := by
  induction fuel generalizing p heap expected validation with
  | zero => cases h
  | succ fuel ih =>
      cases p with
      | none => exact ⟨[], [], .nil none, List.forall_mem_nil _, trivial⟩
      | some a =>
          obtain ⟨raw, next, rest, hcell, hdata, hhash, hrest, hrestValid⟩ :=
            validateLoopAt_inv sha256 h hvalid
          obtain ⟨as, raws, hsegment, hraws, hsealed⟩ := ih hrest hrestValid
          -- the rewritten block is not met again, so the rest was as it is now
          obtain ⟨ha, -⟩ := List.nodup_cons.mp
            (Segment.cons (heap.put_self a ⟨relinkRaw expected.str raw, next⟩) hsegment).nodup
          have hbefore : Segment heap next as raws none := by
            refine hsegment.frame fun b hb => (Heap.put_of_ne heap ?_ _).symm
            rintro rfl
            exact ha hb
          refine ⟨a :: as, raw :: raws, .cons hcell hbefore,
            List.forall_mem_cons.mpr ⟨hdata, hraws⟩, hhash, ?_⟩
          rwa [CharBuf.str_ofStr] at hsealed

/-- **Acceptance is complete.** -/
theorem validateLoopAt_complete (blockchainHead : Option Addr) {p : Option Addr} {as : List Addr}
    {raws : List RawBlock} {fuel : Nat} {heap : Heap Addr RawBlock} {expected : CharBuf hashSize}
    (h : Segment heap p as raws none) (hdata : ∀ raw ∈ raws, (0 : UInt8) ∈ raw.data.toList)
    (hsealed : HashChain.Sealed (link sha256) expected.str (raws.map rawView))
    (hfuel : as.length < fuel) :
    ∃ heap' hashed raws', validateLoopAt sha256 blockchainHead fuel heap p expected =
        some ⟨true, heap', hashed⟩ ∧ Segment heap' p as raws' none ∧
      raws'.map RawBlock.hash = raws.map RawBlock.hash ∧
      (∀ raw ∈ raws', (0 : UInt8) ∈ raw.data.toList ∧ (0 : UInt8) ∈ raw.previousHash.toList) ∧
      ∀ a ∉ as, heap' a = heap a := by
  induction raws generalizing p as fuel heap expected with
  | nil =>
      obtain ⟨fuel, rfl⟩ := Nat.exists_eq_succ_of_ne_zero (Nat.ne_zero_of_lt hfuel)
      cases h
      exact ⟨heap, [], [], rfl, .nil none, rfl, List.forall_mem_nil _, fun _ _ => rfl⟩
  | cons raw raws ih =>
      obtain ⟨fuel, rfl⟩ := Nat.exists_eq_succ_of_ne_zero (Nat.ne_zero_of_lt hfuel)
      obtain ⟨hdata, hdatas⟩ := List.forall_mem_cons.mp hdata
      obtain ⟨hhash, hsealed⟩ := hsealed
      have hnodup := h.nodup
      obtain ⟨a, next, as, rfl, rfl, hcell, hrest⟩ := h.exists_cons
      obtain ⟨ha, -⟩ := List.nodup_cons.mp hnodup
      obtain ⟨data, hread⟩ := exists_readString_iff.mpr hdata
      have hstr : data.str = (rawView raw).1 := by
        rw [rawView, ← readString_eq_some_iff.mp hread]
        rfl
      have hnext : HashChain.Sealed (link sha256) (CharBuf.ofStr 64 raw.hash.toList).str
          (raws.map rawView) := by
        rw [CharBuf.str_ofStr]
        exact hsealed
      obtain ⟨heap', hashed, raws', hloop, hsegment, hhashes, hterminated, hother⟩ :=
        ih (hrest.put_of_notMem ha ⟨relinkRaw expected.str raw, next⟩) hdatas hnext
          (Nat.lt_of_succ_lt_succ hfuel)
      have hwritten : heap' a = some ⟨relinkRaw expected.str raw, next⟩ := by
        rw [hother a ha, Heap.put_self]
      refine ⟨heap', (data.str ++ expected.str) :: hashed, relinkRaw expected.str raw :: raws', ?_,
        .cons hwritten hsegment, congrArg (List.cons raw.hash) hhashes, ?_, fun b hb => ?_⟩
      · rw [validateLoopAt_succ sha256 hcell hread, hstr]
        have hright : (cstr raw.hash.toList).take 64 =
            link sha256 (rawView raw).1 expected.str := hhash
        rw [if_pos hright, hloop]
        rfl
      · rw [List.forall_mem_cons]
        exact ⟨⟨hdata, (CharBuf.ofStr 64 expected.str).terminated⟩, hterminated⟩
      · rw [hother b (List.not_mem_of_not_mem_cons hb),
          Heap.put_of_ne heap (List.ne_of_not_mem_cons hb)]

/-- **What the answer 1 of `validate_blockchain` says**, on a heap of any
content: from `blockchain_head` a list of blocks leads to null, their data are
strings inside their arrays, and the hashes chain.  A cycle, a dangling pointer
or an unterminated array is never accepted. -/
theorem validateBlockchainAt_accepts_iff (memory : Memory Addr) :
    (∃ fuel validation, validateBlockchainAt sha256 fuel memory = some validation ∧
      validation.valid = true) ↔
    ∃ as raws, Segment memory.heap memory.blockchainHead as raws none ∧
      (∀ raw ∈ raws, (0 : UInt8) ∈ raw.data.toList) ∧
      HashChain.Sealed (link sha256) [] (raws.map rawView) := by
  constructor
  · rintro ⟨fuel, validation, h, hvalid⟩
    have hsound := validateLoopAt_sound sha256 h hvalid
    rwa [emptyHash_str] at hsound
  · rintro ⟨as, raws, h, hdata, hsealed⟩
    rw [← emptyHash_str] at hsealed
    obtain ⟨heap', hashed, _, hloop, -⟩ :=
      validateLoopAt_complete sha256 memory.blockchainHead h hdata hsealed (Nat.lt_succ_self _)
    exact ⟨_, _, hloop, rfl⟩

/-! ## Retrieval after an acceptance -/

theorem exists_readBlock_iff {raw : RawBlock} :
    (∃ block, readBlock raw = some block) ↔ (0 : UInt8) ∈ raw.data.toList ∧
      (0 : UInt8) ∈ raw.hash.toList ∧ (0 : UInt8) ∈ raw.previousHash.toList := by
  rw [← exists_readString_iff, ← exists_readString_iff, ← exists_readString_iff]
  simp only [readBlock, Option.bind_eq_bind, Option.bind_eq_some_iff, Option.pure_def,
    Option.some.injEq]
  constructor
  · rintro ⟨block, data, hdata, hash, hhash, previousHash, hprevious, -⟩
    exact ⟨⟨data, hdata⟩, ⟨hash, hhash⟩, ⟨previousHash, hprevious⟩⟩
  · rintro ⟨⟨data, hdata⟩, ⟨hash, hhash⟩, ⟨previousHash, hprevious⟩⟩
    exact ⟨_, data, hdata, hash, hhash, previousHash, hprevious, rfl⟩

omit [DecidableEq Addr] in
/-- The loop of `retrieve_data` comes to its end exactly if it can read every
string of every block. -/
theorem renderLoopAt_isSome_iff {heap : Heap Addr RawBlock} {p : Option Addr} {as : List Addr}
    {raws : List RawBlock} {fuel : Nat} (h : Segment heap p as raws none)
    (hfuel : as.length < fuel) (response : Bytes) :
    (∃ text, renderLoopAt heap fuel p response = some text) ↔
      ∀ raw ∈ raws, ∃ block, readBlock raw = some block := by
  induction raws generalizing p as fuel response with
  | nil =>
      obtain ⟨fuel, rfl⟩ := Nat.exists_eq_succ_of_ne_zero (Nat.ne_zero_of_lt hfuel)
      cases h
      exact iff_of_true ⟨response, rfl⟩ (List.forall_mem_nil _)
  | cons raw raws ih =>
      obtain ⟨fuel, rfl⟩ := Nat.exists_eq_succ_of_ne_zero (Nat.ne_zero_of_lt hfuel)
      obtain ⟨a, next, as, rfl, rfl, hcell, hrest⟩ := h.exists_cons
      rw [List.forall_mem_cons]
      simp only [renderLoopAt, Heap.load_some, hcell, Option.bind_eq_bind, Option.bind_some]
      cases hread : readBlock raw with
      | none =>
          refine iff_of_false ?_ ?_
          · rintro ⟨text, htext⟩
            cases htext
          · rintro ⟨⟨block, hblock⟩, -⟩
            cases hblock
      | some block =>
          rw [Option.bind_some, ih hrest (Nat.lt_of_succ_lt_succ hfuel)]
          exact (and_iff_right ⟨block, rfl⟩).symm

/-- **After an acceptance `retrieve_data` runs past an array** exactly if some
hash array has no terminator: validation compares 64 characters of it, and the
byte behind them is not looked at. -/
theorem retrieveDataAt_of_accepted_iff {memory : Memory Addr} {as : List Addr}
    {raws : List RawBlock} {fuel : Nat}
    (h : Segment memory.heap memory.blockchainHead as raws none)
    (hdata : ∀ raw ∈ raws, (0 : UInt8) ∈ raw.data.toList)
    (hsealed : HashChain.Sealed (link sha256) [] (raws.map rawView)) (hfuel : as.length < fuel) :
    (∃ retrieved, retrieveDataAt sha256 fuel memory = some retrieved) ↔
      ∀ raw ∈ raws, (0 : UInt8) ∈ raw.hash.toList := by
  rw [← emptyHash_str] at hsealed
  obtain ⟨heap', hashed, raws', hloop, hsegment, hhashes, hterminated, -⟩ :=
    validateLoopAt_complete sha256 memory.blockchainHead h hdata hsealed hfuel
  have hvalidate : validateBlockchainAt sha256 fuel memory = some ⟨true, heap', hashed⟩ := hloop
  have hsame : (∀ raw ∈ raws, (0 : UInt8) ∈ raw.hash.toList) ↔
      ∀ raw ∈ raws', ∃ block, readBlock raw = some block := by
    have hmap : (∀ hash ∈ raws.map RawBlock.hash, (0 : UInt8) ∈ hash.toList) ↔
        ∀ hash ∈ raws'.map RawBlock.hash, (0 : UInt8) ∈ hash.toList := by rw [hhashes]
    rw [List.forall_mem_map, List.forall_mem_map] at hmap
    rw [hmap]
    refine forall₂_congr fun raw hraw => ?_
    rw [exists_readBlock_iff, and_iff_right (hterminated raw hraw).1,
      and_iff_left (hterminated raw hraw).2]
  rw [hsame, ← renderLoopAt_isSome_iff hsegment hfuel []]
  simp only [retrieveDataAt, hvalidate, Option.bind_eq_bind, Option.bind_some, Bool.not_true,
    Bool.false_eq_true, if_false, Option.pure_def]
  cases hhead : memory.blockchainHead with
  | none =>
      rw [hhead] at hsegment
      obtain ⟨fuel, rfl⟩ := Nat.exists_eq_succ_of_ne_zero (Nat.ne_zero_of_lt hfuel)
      exact iff_of_true ⟨_, rfl⟩ ⟨_, rfl⟩
  | some a =>
      simp only [Option.bind_eq_some_iff, Option.some.injEq]
      constructor
      · rintro ⟨_, text, htext, -⟩
        exact ⟨text, htext⟩
      · rintro ⟨text, htext⟩
        exact ⟨_, text, htext, rfl⟩

end

/-- The hash of the data `a` with a character in place of its terminator. -/
def overwrittenHash : Bytes := link Sha256.sha256 (ascii "a") [] ++ [0x78]

theorem overwrittenHash_length : overwrittenHash.length = hashSize := by
  rw [overwrittenHash, List.length_append, link_length]
  rfl

/-- A block with that hash. -/
def overwrittenBlock : RawBlock :=
  ⟨(CharBuf.ofStr 255 (ascii "a")).toBuf, ⟨overwrittenHash, overwrittenHash_length⟩,
    emptyHash.toBuf⟩

theorem rawView_overwrittenBlock :
    rawView overwrittenBlock = (ascii "a", link Sha256.sha256 (ascii "a") []) := by
  have hnul : (0 : UInt8) ∉ overwrittenHash := by
    rw [overwrittenHash, List.mem_append]
    rintro (h | h)
    · exact nul_not_mem_link _ _ _ h
    · cases List.mem_singleton.mp h
  have hhash : (cstr overwrittenHash).take 64 = link Sha256.sha256 (ascii "a") [] := by
    rw [cstr_eq_self hnul, overwrittenHash]
    rw [List.take_left' (link_length Sha256.sha256 (ascii "a") [])]
  have hdata : (CharBuf.ofStr 255 (ascii "a")).str = ascii "a" := by
    rw [CharBuf.str_ofStr]
    decide
  have harray : overwrittenBlock.hash.toList = overwrittenHash := rfl
  rw [rawView, harray, hhash, ← hdata]
  rfl

/-- The theorem at a chain of that block: it is accepted, and its retrieval is
not. -/
theorem retrieveDataAt_overwritten :
    (∃ retrieved, retrieveDataAt Sha256.sha256 2
      (⟨Heap.empty.put 0 ⟨overwrittenBlock, none⟩, some 0⟩ : Memory Nat) = some retrieved) ↔
      ∀ raw ∈ [overwrittenBlock], (0 : UInt8) ∈ raw.hash.toList := by
  have hcell : Heap.put (Heap.empty : Heap Nat RawBlock) 0 ⟨overwrittenBlock, none⟩ 0 =
      some ⟨overwrittenBlock, none⟩ := Heap.put_self _ _ _
  have hdata : ∀ raw ∈ [overwrittenBlock], (0 : UInt8) ∈ raw.data.toList :=
    List.forall_mem_singleton.mpr (CharBuf.ofStr 255 (ascii "a")).terminated
  have hsealed : HashChain.Sealed (link Sha256.sha256) [] ([overwrittenBlock].map rawView) := by
    simp only [List.map_cons, List.map_nil, rawView_overwrittenBlock, HashChain.sealed_cons,
      HashChain.sealed_nil, and_self]
  exact retrieveDataAt_of_accepted_iff Sha256.sha256 (.cons hcell (.nil none)) hdata hsealed
    (by decide)

end ShardedLedger.Server
