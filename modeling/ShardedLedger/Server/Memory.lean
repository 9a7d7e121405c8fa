import ShardedLedger.Foundation.LinkedList
import ShardedLedger.Server.Store
set_option autoImplicit false

/-!
# Server: the chain in memory (`server/server.c`)

The chain as the program holds it: blocks that `malloc` returned, linked through
their `next` pointers, behind the global `blockchain_head`.  An access through a
pointer that is null or dangling, a second `free`, and a string read from an
array without terminator are faults, and a loop that is not done after `fuel`
iterations has no result either; both are `none`.

On a well-formed chain each function of `server.c` has a result, and it is the
one of the list model: `validateBlockchainAt_eq`, `storeDataAt_eq`,
`retrieveDataAt_eq`, `freeLoop_eq`.
-/

namespace ShardedLedger.Server

open CString Sha256 LinkedList

/-- Reading the C string in an array; without a terminator it runs past the end. -/
def readString {n : Nat} (array : Buf n) : Option (CharBuf n) :=
  if h : (0 : UInt8) ∈ array.toList then some ⟨array.toList, array.toList_length, h⟩ else none

/-- Reading the three strings of a block. -/
def readBlock (block : RawBlock) : Option Block := do
  let data ← readString block.data
  let hash ← readString block.hash
  let previousHash ← readString block.previousHash
  return ⟨data, hash, previousHash⟩

/-- The arrays of a block. -/
def Block.raw (block : Block) : RawBlock :=
  ⟨block.data.toBuf, block.hash.toBuf, block.previousHash.toBuf⟩

@[simp] theorem readString_toBuf {n : Nat} (b : CharBuf n) : readString b.toBuf = some b :=
  dif_pos b.terminated

@[simp] theorem readBlock_raw (block : Block) : readBlock block.raw = some block := by
  simp [readBlock, Block.raw]

/-- The heap, as far as it holds blocks, and the global `blockchain_head`. -/
structure Memory (Addr : Type) where
  heap : Heap Addr RawBlock
  blockchainHead : Option Addr

section

variable {Addr : Type} [DecidableEq Addr] (sha256 : Bytes → Digest)

/-! ## `compute_hash` -/

/-- What `compute_hash` leaves behind. -/
structure ComputedAt (Addr : Type) where
  outputHash : CharBuf hashSize
  heap : Heap Addr RawBlock
  hashed : Bytes

/-- `compute_hash(block, previous_hash, output_hash)`. -/
def computeHashAt (heap : Heap Addr RawBlock) (block : Option Addr)
    (previousHash : CharBuf hashSize) : Option (ComputedAt Addr) := do
  let cell ← heap.load block
  let data ← readString cell.content.data
  let computed := computeHash sha256 data cell.content.previousHash previousHash
  let heap ← heap.store block
    { cell with content :=
      { cell.content with previousHash := computed.blockPreviousHash.toBuf } }
  return ⟨computed.outputHash, heap, computed.hashed⟩

/-! ## `validate_blockchain` -/

/-- The return value of `validate_blockchain`, the heap, and the strings hashed. -/
structure ValidationAt (Addr : Type) where
  valid : Bool
  heap : Heap Addr RawBlock
  hashed : List Bytes

/-- The loop of `validate_blockchain`, from `current` on. -/
def validateLoopAt (blockchainHead : Option Addr) :
    Nat → Heap Addr RawBlock → Option Addr → CharBuf hashSize → Option (ValidationAt Addr)
  | 0, _, _, _ => none
  | _ + 1, heap, none, _ => some ⟨true, heap, []⟩
  | fuel + 1, heap, some current, expectedPreviousHash => do
      let computed ← computeHashAt sha256 heap (some current) expectedPreviousHash
      let cell ← computed.heap.load (some current)
      if strncmp (hashSize - 1) cell.content.hash.toList computed.outputHash.bytes ≠ 0 then
        return ⟨false, computed.heap, [computed.hashed]⟩
      else if some current ≠ blockchainHead ∧ strncmp (hashSize - 1)
          cell.content.previousHash.toList expectedPreviousHash.bytes ≠ 0 then
        return ⟨false, computed.heap, [computed.hashed]⟩
      else do
        let next ← validateLoopAt blockchainHead fuel computed.heap cell.next
          (copyTerminated expectedPreviousHash.toBuf cell.content.hash.toList)
        return ⟨next.valid, next.heap, computed.hashed :: next.hashed⟩

/-- `validate_blockchain()`. -/
def validateBlockchainAt (fuel : Nat) (memory : Memory Addr) : Option (ValidationAt Addr) :=
  validateLoopAt sha256 memory.blockchainHead fuel memory.heap memory.blockchainHead emptyHash

/-! ## `store_data` -/

/-- `previous_hash` of `store_data`. -/
def previousHashAt (memory : Memory Addr) : Option (CharBuf hashSize) :=
  match memory.blockchainHead with
  | none => some emptyHash
  | some head => do
      let cell ← memory.heap.load (some head)
      return copyTerminated emptyHash.toBuf cell.content.hash.toList

/-- `while (current->next) current = current->next;`. -/
def lastBlock (heap : Heap Addr RawBlock) : Nat → Option Addr → Option (Option Addr)
  | 0, _ => none
  | fuel + 1, current => do
      let cell ← heap.load current
      if cell.next.isSome then lastBlock heap fuel cell.next else some current

/-- The new block becomes the head, or is linked behind the last block. -/
def appendAt (fuel : Nat) (memory : Memory Addr) (newBlock : Option Addr) :
    Option (Memory Addr) :=
  match memory.blockchainHead with
  | none => some { memory with blockchainHead := newBlock }
  | some head => do
      let current ← lastBlock memory.heap fuel (some head)
      let cell ← memory.heap.load current
      let heap ← memory.heap.store current { cell with next := newBlock }
      return { memory with heap := heap }

/-- What `store_data` does with the allocated block before it is linked: it
writes the data, hashes, and writes the hash. -/
def fillBlock (payload : Bytes) (memory : Memory Addr) (newBlock : Addr)
    (cell : Cell Addr RawBlock) : Option (ComputedAt Addr) := do
  let heap := memory.heap.put newBlock cell
  let data := copyTerminated cell.content.data payload
  let heap ← heap.store (some newBlock) ⟨{ cell.content with data := data.toBuf }, none⟩
  let previousHash ← previousHashAt ⟨heap, memory.blockchainHead⟩
  let computed ← computeHashAt sha256 heap (some newBlock) previousHash
  let cell ← computed.heap.load (some newBlock)
  let hash := copyTerminated cell.content.hash computed.outputHash.bytes
  let heap ← computed.heap.store (some newBlock)
    { cell with content := { cell.content with hash := hash.toBuf } }
  return { computed with heap := heap }

/-- The memory after `store_data`, and the strings it hashed. -/
structure StoredAt (Addr : Type) where
  memory : Memory Addr
  hashed : List Bytes

/-- `store_data(payload)`; `malloc` is the address that the allocation returned
and what the memory there holds, or `none` when it failed. -/
def storeDataAt (fuel : Nat) (malloc : Option (Addr × Cell Addr RawBlock)) (payload : Bytes)
    (memory : Memory Addr) : Option (StoredAt Addr) :=
  match malloc with
  | none => some ⟨memory, []⟩
  | some (newBlock, cell) => do
      let computed ← fillBlock sha256 payload memory newBlock cell
      let memory ← appendAt fuel ⟨computed.heap, memory.blockchainHead⟩ (some newBlock)
      -- the hash of the new block is printed
      let cell ← memory.heap.load (some newBlock)
      let _ ← readString cell.content.hash
      let validation ← validateBlockchainAt sha256 fuel memory
      return ⟨⟨validation.heap, memory.blockchainHead⟩, computed.hashed :: validation.hashed⟩

/-! ## `retrieve_data` -/

/-- The loop that appends one `block_info` after the other. -/
def renderLoopAt (heap : Heap Addr RawBlock) : Nat → Option Addr → Bytes → Option Bytes
  | 0, _, _ => none
  | _ + 1, none, response => some response
  | fuel + 1, some current, response => do
      let cell ← heap.load (some current)
      let block ← readBlock cell.content
      renderLoopAt heap fuel cell.next
        (strncat (roomLeft maxResponseLength response) response (blockInfo block))

/-- The text that `retrieve_data` sends, the heap, and the strings hashed. -/
structure RetrievedAt (Addr : Type) where
  response : Bytes
  heap : Heap Addr RawBlock
  hashed : List Bytes

/-- `retrieve_data`, up to the sending of `response`. -/
def retrieveDataAt (fuel : Nat) (memory : Memory Addr) : Option (RetrievedAt Addr) := do
  let validation ← validateBlockchainAt sha256 fuel memory
  if !validation.valid then
    return ⟨ascii "Blockchain validation failed. Data retrieval aborted.\n", validation.heap,
      validation.hashed⟩
  else match memory.blockchainHead with
    | none => return ⟨snprintf maxResponseLength (ascii "NO_DATA"), validation.heap,
        validation.hashed⟩
    | some current => do
        let response ← renderLoopAt validation.heap fuel (some current) []
        return ⟨response, validation.heap, validation.hashed⟩

/-! ## `free_blockchain` -/

/-- What the loop of `free_blockchain` leaves, and the addresses it freed. -/
structure FreedAt (Addr : Type) where
  heap : Heap Addr RawBlock
  freed : List Addr

/-- The loop of `free_blockchain`: the `next` pointer is read before the block
is freed. -/
def freeLoop : Nat → Heap Addr RawBlock → Option Addr → Option (FreedAt Addr)
  | 0, _, _ => none
  | _ + 1, heap, none => some ⟨heap, []⟩
  | fuel + 1, heap, some temp => do
      let cell ← heap.load (some temp)
      let heap ← heap.free (some temp)
      let rest ← freeLoop fuel heap cell.next
      return ⟨rest.heap, temp :: rest.freed⟩

/-! ## One call on a well-formed chain -/

/-- From the pointer on the heap holds the blocks, at the addresses. -/
abbrev Holds (heap : Heap Addr RawBlock) (p : Option Addr) (as : List Addr)
    (blocks : List Block) : Prop := Segment heap p as (blocks.map Block.raw) none

omit [DecidableEq Addr] in
theorem copyTerminated_bytes {m n : Nat} (dst : Buf (m + 1)) (src : CharBuf n) :
    copyTerminated dst src.bytes = copyTerminated dst src.str := by
  rw [copyTerminated_eq_ofStr, copyTerminated_eq_ofStr]
  exact CharBuf.ofStr_congr (by rw [CharBuf.cstr_str, CharBuf.str])

theorem computeHashAt_eq {heap : Heap Addr RawBlock} {a : Addr} {raw : RawBlock}
    {next : Option Addr} {data : CharBuf maxLine} (hcell : heap a = some ⟨raw, next⟩)
    (hdata : readString raw.data = some data) (previousHash : CharBuf hashSize) :
    computeHashAt sha256 heap (some a) previousHash =
      some ⟨(computeHash sha256 data raw.previousHash previousHash).outputHash,
        heap.put a ⟨{ raw with
          previousHash :=
            (computeHash sha256 data raw.previousHash previousHash).blockPreviousHash.toBuf }, next⟩,
        (computeHash sha256 data raw.previousHash previousHash).hashed⟩ := by
  simp only [computeHashAt, Heap.load_some, hcell, hdata, Heap.store_eq_put hcell,
    Option.bind_eq_bind, Option.bind_some, Option.pure_def]

/-- The block after `compute_hash` wrote the hash `p` into it. -/
def relinkRaw (p : Bytes) (raw : RawBlock) : RawBlock :=
  { raw with previousHash := (CharBuf.ofStr 64 p).toBuf }

theorem computeHashAt_eq_put {heap : Heap Addr RawBlock} {a : Addr} {raw : RawBlock}
    {next : Option Addr} {data : CharBuf maxLine} (hcell : heap a = some ⟨raw, next⟩)
    (hdata : readString raw.data = some data) (previousHash : CharBuf hashSize) :
    computeHashAt sha256 heap (some a) previousHash =
      some ⟨CharBuf.ofStr 64 (link sha256 data.str previousHash.str),
        heap.put a ⟨relinkRaw previousHash.str raw, next⟩, data.str ++ previousHash.str⟩ := by
  rw [computeHashAt_eq sha256 hcell hdata, computeHash_blockPreviousHash, computeHash_hashed]
  have houtput : (computeHash sha256 data raw.previousHash previousHash).outputHash =
      CharBuf.ofStr 64 (link sha256 data.str previousHash.str) := by
    have hhashed := computeHash_hashed sha256 data raw.previousHash previousHash
    rw [link, ← hhashed]
    rfl
  rw [houtput]
  rfl

/-- One iteration of the loop of `validate_blockchain`: the block is rewritten,
and the loop goes on if its hash is right.  The comparison of `previous_hash`
reads what was just written. -/
theorem validateLoopAt_succ {blockchainHead : Option Addr} {heap : Heap Addr RawBlock} {a : Addr}
    {raw : RawBlock} {next : Option Addr} {data : CharBuf maxLine}
    (hcell : heap a = some ⟨raw, next⟩) (hdata : readString raw.data = some data) (fuel : Nat)
    (expected : CharBuf hashSize) :
    validateLoopAt sha256 blockchainHead (fuel + 1) heap (some a) expected =
      if (cstr raw.hash.toList).take 64 = link sha256 data.str expected.str then
        (validateLoopAt sha256 blockchainHead fuel
          (heap.put a ⟨relinkRaw expected.str raw, next⟩) next
          (CharBuf.ofStr 64 raw.hash.toList)).map fun validation =>
            ⟨validation.valid, validation.heap, (data.str ++ expected.str) :: validation.hashed⟩
      else some ⟨false, heap.put a ⟨relinkRaw expected.str raw, next⟩,
        [data.str ++ expected.str]⟩ := by
  have hfirst : strncmp (hashSize - 1) raw.hash.toList
      (CharBuf.ofStr 64 (link sha256 data.str expected.str)).bytes = 0 ↔
      (cstr raw.hash.toList).take 64 = link sha256 data.str expected.str := by
    rw [strncmp_eq_zero_iff]
    change (cstr raw.hash.toList).take 64 = (CharBuf.str _).take 64 ↔ _
    rw [CharBuf.take_str, str_ofStr_link]
  have hsecond : strncmp (hashSize - 1) (CharBuf.ofStr 64 expected.str).bytes
      expected.bytes = 0 := by
    rw [strncmp_hash_eq_zero_iff, CharBuf.str_ofStr, CharBuf.cstr_str, CharBuf.take_str]
  simp only [validateLoopAt, computeHashAt_eq_put sha256 hcell hdata, Heap.load_some,
    Heap.put_self, Option.bind_eq_bind, Option.bind_some, Option.pure_def,
    copyTerminated_eq_ofStr, relinkRaw]
  split
  · rename_i hne
    rw [if_neg (fun heq => hne (hfirst.mpr heq))]
  · rename_i heq
    rw [if_pos (hfirst.mp (not_not.mp heq)), if_neg (fun h => h.2 hsecond)]
    rw [Option.map_eq_bind]
    rfl

/-- **The loop of `validate_blockchain`** ends behind the last block, visits
the blocks that the list model visits, and writes to no other cell. -/
theorem validateLoopAt_eq_check (blockchainHead : Option Addr) {p : Option Addr} {as : List Addr}
    {blocks : List Block} {fuel : Nat} {heap : Heap Addr RawBlock} (expected : CharBuf hashSize)
    (h : Holds heap p as blocks) (hfuel : as.length < fuel) :
    ∃ heap', validateLoopAt sha256 blockchainHead fuel heap p expected =
        some ⟨(check sha256 expected.str blocks).valid, heap',
          (check sha256 expected.str blocks).hashed⟩ ∧
      Holds heap' p as (check sha256 expected.str blocks).blocks ∧
      ∀ a ∉ as, heap' a = heap a := by
  induction blocks generalizing p as fuel heap expected with
  | nil =>
      obtain ⟨fuel, rfl⟩ := Nat.exists_eq_succ_of_ne_zero (Nat.ne_zero_of_lt hfuel)
      cases h
      exact ⟨heap, rfl, .nil none, fun _ _ => rfl⟩
  | cons block rest ih =>
      obtain ⟨fuel, rfl⟩ := Nat.exists_eq_succ_of_ne_zero (Nat.ne_zero_of_lt hfuel)
      have hnodup := h.nodup
      obtain ⟨a, next, as, rfl, rfl, hcell, hrest⟩ := h.exists_cons
      obtain ⟨ha, -⟩ := List.nodup_cons.mp hnodup
      have hhash : (cstr block.raw.hash.toList).take 64 = block.hash.str := CharBuf.take_str _
      have hnext : CharBuf.ofStr 64 block.raw.hash.toList = CharBuf.ofStr 64 block.hash.str :=
        CharBuf.ofStr_congr (by rw [CharBuf.cstr_str]; rfl)
      have hstr : (CharBuf.ofStr 64 block.hash.str).str = block.hash.str := by
        rw [CharBuf.str_ofStr, CharBuf.cstr_str, CharBuf.take_str]
      have hput : Holds (heap.put a ⟨relinkRaw expected.str block.raw, next⟩) (some a) (a :: as)
          (relink expected.str block :: rest) := hrest.put_head _ hcell
      have hframe : ∀ b ∉ a :: as,
          heap.put a ⟨relinkRaw expected.str block.raw, next⟩ b = heap b :=
        fun b hb => Heap.put_of_ne heap (List.ne_of_not_mem_cons hb) _
      rw [validateLoopAt_succ sha256 hcell (readString_toBuf block.data), hhash, hnext, check]
      by_cases hright : block.hash.str = link sha256 block.data.str expected.str
      · rw [if_pos hright, if_pos hright]
        have hrest' : Holds (heap.put a ⟨relinkRaw expected.str block.raw, next⟩) next as rest :=
          hrest.put_of_notMem ha _
        obtain ⟨heap', hloop, hholds, hother⟩ := ih _ hrest' (Nat.lt_of_succ_lt_succ hfuel)
        rw [hstr] at hloop hholds
        refine ⟨heap', by rw [hloop]; rfl, .cons ?_ hholds, fun b hb => ?_⟩
        · rw [hother a ha, Heap.put_self]
          rfl
        · rw [hother b (List.not_mem_of_not_mem_cons hb), hframe b hb]
      · rw [if_neg hright, if_neg hright]
        exact ⟨_, rfl, hput, hframe⟩

/-- `validate_blockchain` on a well-formed chain. -/
theorem validateBlockchainAt_eq {memory : Memory Addr} {as : List Addr} {blocks : List Block}
    {fuel : Nat} (h : Holds memory.heap memory.blockchainHead as blocks)
    (howns : memory.heap.Owns as) (hfuel : as.length < fuel) :
    ∃ heap', validateBlockchainAt sha256 fuel memory =
        some ⟨(validateBlockchain sha256 blocks).valid, heap',
          (validateBlockchain sha256 blocks).hashed⟩ ∧
      Holds heap' memory.blockchainHead as (validateBlockchain sha256 blocks).blocks ∧
      heap'.Owns as := by
  obtain ⟨heap', hloop, hholds, hother⟩ :=
    validateLoopAt_eq_check sha256 memory.blockchainHead emptyHash h hfuel
  rw [emptyHash_str, ← validateBlockchain_eq_check] at hloop hholds
  refine ⟨heap', hloop, hholds, fun a => ?_⟩
  by_cases ha : a ∈ as
  · exact iff_of_true (hholds.isSome_of_mem ha) ha
  · rw [hother a ha]
    exact howns a

omit [DecidableEq Addr] in
/-- The hash that `store_data` links the new block to. -/
theorem previousHashAt_eq {heap : Heap Addr RawBlock} {blockchainHead : Option Addr}
    {as : List Addr} {blocks : List Block} (h : Holds heap blockchainHead as blocks) :
    ∃ previousHash, previousHashAt ⟨heap, blockchainHead⟩ = some previousHash ∧
      previousHash.str = headHash blocks := by
  cases blocks with
  | nil =>
      cases h
      exact ⟨emptyHash, rfl, emptyHash_str⟩
  | cons block rest =>
      obtain ⟨a, next, as, rfl, rfl, hcell, hrest⟩ := h.exists_cons
      refine ⟨copyTerminated emptyHash.toBuf block.hash.bytes, ?_, ?_⟩
      · simp only [previousHashAt, Heap.load_some, hcell, Option.bind_eq_bind, Option.bind_some]
        rfl
      · rw [str_copyTerminated]
        exact CharBuf.take_str _

/-- The allocated block is filled in, and no other cell is written. -/
theorem fillBlock_eq {memory : Memory Addr} {as : List Addr} {blocks : List Block} {b : Addr}
    (h : Holds memory.heap memory.blockchainHead as blocks) (hb : b ∉ as)
    (cell : Cell Addr RawBlock) (payload : Bytes) :
    ∃ output, fillBlock sha256 payload memory b cell =
      some ⟨output, memory.heap.put b ⟨(newBlock sha256 payload blocks).raw, none⟩,
        storedData payload ++ headHash blocks⟩ := by
  let raw : RawBlock :=
    { cell.content with data := (copyTerminated cell.content.data payload).toBuf }
  have hput : Holds (memory.heap.put b ⟨raw, none⟩) memory.blockchainHead as blocks :=
    h.put_of_notMem hb _
  obtain ⟨previousHash, hprevious, hstr⟩ := previousHashAt_eq hput
  have hdata : (copyTerminated cell.content.data payload).str = storedData payload :=
    str_copyTerminated _ _
  have hcomputed := computeHashAt_eq_put sha256 (memory.heap.put_self b ⟨raw, none⟩)
    (readString_toBuf (copyTerminated cell.content.data payload)) previousHash
  rw [Heap.put_put, hdata, hstr] at hcomputed
  have hraw : { relinkRaw (headHash blocks) raw with hash := (copyTerminated raw.hash
      (CharBuf.ofStr 64 (link sha256 (storedData payload) (headHash blocks))).bytes).toBuf } =
      (newBlock sha256 payload blocks).raw := by
    rw [copyTerminated_bytes, str_ofStr_link, copyTerminated_eq_ofStr]
    simp only [relinkRaw, raw, copyTerminated_eq_ofStr, newBlock, Block.raw]
  refine ⟨CharBuf.ofStr 64 (link sha256 (storedData payload) (headHash blocks)), ?_⟩
  rw [← hraw]
  simp only [fillBlock, Heap.store_eq_put (Heap.put_self _ _ _), Heap.put_put,
    Option.bind_eq_bind, Option.bind_some]
  rw [hprevious, Option.bind_some, hcomputed, Option.bind_some]
  simp only [Heap.load_some, Heap.put_self, Option.bind_some,
    Heap.store_eq_put (Heap.put_self _ _ _), Heap.put_put]
  rfl

omit [DecidableEq Addr] in
/-- The walk of `store_data` ends at the last block. -/
theorem lastBlock_eq {heap : Heap Addr RawBlock} {p : Option Addr} {as : List Addr} {b : Addr}
    {raws : List RawBlock} (h : Segment heap p as raws none) (hlast : as.getLast? = some b)
    {fuel : Nat} (hfuel : as.length ≤ fuel) : lastBlock heap fuel p = some (some b) := by
  induction as generalizing p raws fuel with
  | nil => cases hlast
  | cons a as ih =>
      obtain ⟨fuel, rfl⟩ := Nat.exists_eq_succ_of_ne_zero (Nat.ne_zero_of_lt hfuel)
      cases h with
      | @cons _ _ next _ _ _ hcell hrest =>
      simp only [lastBlock, Heap.load_some, hcell, Option.bind_eq_bind, Option.bind_some]
      cases as with
      | nil =>
          cases hrest
          cases hlast
          rfl
      | cons c as =>
          rw [List.getLast?_cons_cons] at hlast
          have hnext : next.isSome = true := by cases hrest; rfl
          rw [if_pos hnext]
          exact ih hrest hlast (Nat.le_of_succ_le_succ hfuel)

/-- The new block is linked behind the last one. -/
theorem appendAt_eq {heap : Heap Addr RawBlock} {blockchainHead : Option Addr} {as : List Addr}
    {blocks : List Block} {b : Addr} {block : Block} (h : Holds heap blockchainHead as blocks)
    (hb : b ∉ as) (hcell : heap b = some ⟨block.raw, none⟩) (howns : heap.Owns (as ++ [b]))
    {fuel : Nat} (hfuel : as.length ≤ fuel) :
    ∃ memory, appendAt fuel ⟨heap, blockchainHead⟩ (some b) = some memory ∧
      Holds memory.heap memory.blockchainHead (as ++ [b]) (blocks ++ [block]) ∧
      memory.heap.Owns (as ++ [b]) ∧ memory.heap b = some ⟨block.raw, none⟩ := by
  rcases List.eq_nil_or_concat' as with rfl | ⟨front, a, rfl⟩
  · have hblocks : blocks = [] := by
      have := h.length_eq
      rw [List.length_map, List.length_nil] at this
      exact List.length_eq_zero_iff.mp this.symm
    subst hblocks
    cases h
    exact ⟨_, rfl, .cons hcell (.nil none), howns, hcell⟩
  · have hlast : (front ++ [a]).getLast? = some a := List.getLast?_concat
    have ha : a ∈ front ++ [a] := List.mem_append_right _ (List.mem_singleton_self a)
    obtain ⟨x, hx, hlink⟩ := h.link_new hlast hb hcell
    obtain ⟨first, rfl⟩ := h.exists_head (List.ne_nil_of_mem ha)
    have hne : b ≠ a := by
      rintro rfl
      exact hb ha
    refine ⟨⟨heap.put a ⟨x, some b⟩, some first⟩, ?_, ?_, howns.put (List.mem_append_left _ ha) _,
      (Heap.put_of_ne heap hne _).trans hcell⟩
    · simp only [appendAt, lastBlock_eq h hlast hfuel, Option.bind_eq_bind, Option.bind_some,
        Heap.load_some, hx, Heap.store_eq_put hx, Option.pure_def]
    · rw [Holds, List.map_append]
      exact hlink

/-- **`store_data`** on a well-formed chain, with a block at a fresh address:
the block is linked behind the others, and the chain is the one of the list
model. -/
theorem storeDataAt_eq {memory : Memory Addr} {as : List Addr} {blocks : List Block} {b : Addr}
    {fuel : Nat} (h : Holds memory.heap memory.blockchainHead as blocks)
    (howns : memory.heap.Owns as) (hb : memory.heap b = none) (hfuel : as.length + 1 < fuel)
    (cell : Cell Addr RawBlock) (payload : Bytes) :
    ∃ memory', storeDataAt sha256 fuel (some (b, cell)) payload memory =
        some ⟨memory', (storeData sha256 (some cell.content) payload blocks).hashed⟩ ∧
      Holds memory'.heap memory'.blockchainHead (as ++ [b])
        (storeData sha256 (some cell.content) payload blocks).blocks ∧
      memory'.heap.Owns (as ++ [b]) := by
  have hfresh : b ∉ as := by
    intro hmem
    have := h.isSome_of_mem hmem
    rw [hb] at this
    cases this
  obtain ⟨output, hfill⟩ := fillBlock_eq sha256 h hfresh cell payload
  obtain ⟨linked, happend, hlinked, hlinkedOwns, hcell⟩ :=
    appendAt_eq (h.put_of_notMem hfresh _) hfresh (Heap.put_self _ _ _)
      (howns.put_concat b ⟨(newBlock sha256 payload blocks).raw, none⟩) (Nat.le_of_lt
        (Nat.lt_of_succ_lt hfuel))
  have hlength : (as ++ [b]).length < fuel := by rwa [List.length_append]
  obtain ⟨heap', hvalidate, hholds, hheapOwns⟩ :=
    validateBlockchainAt_eq sha256 hlinked hlinkedOwns hlength
  have hprinted : readString (newBlock sha256 payload blocks).raw.hash =
      some (newBlock sha256 payload blocks).hash := readString_toBuf _
  rw [validateBlockchain_eq_check] at hvalidate hholds
  rw [storeData_eq]
  refine ⟨⟨heap', linked.blockchainHead⟩, ?_, hholds, hheapOwns⟩
  simp only [storeDataAt, hfill, happend, Heap.load_some, hcell, hprinted, hvalidate,
    Option.bind_eq_bind, Option.bind_some, Option.pure_def]

omit [DecidableEq Addr] in
/-- The loop of `retrieve_data` reads the blocks in order. -/
theorem renderLoopAt_eq {heap : Heap Addr RawBlock} {p : Option Addr} {as : List Addr}
    {blocks : List Block} {fuel : Nat} (h : Holds heap p as blocks) (hfuel : as.length < fuel)
    (response : Bytes) :
    renderLoopAt heap fuel p response = some (renderLoop response blocks) := by
  induction blocks generalizing p as fuel response with
  | nil =>
      obtain ⟨fuel, rfl⟩ := Nat.exists_eq_succ_of_ne_zero (Nat.ne_zero_of_lt hfuel)
      cases h
      rfl
  | cons block rest ih =>
      obtain ⟨fuel, rfl⟩ := Nat.exists_eq_succ_of_ne_zero (Nat.ne_zero_of_lt hfuel)
      obtain ⟨a, next, as, rfl, rfl, hcell, hrest⟩ := h.exists_cons
      simp only [renderLoopAt, Heap.load_some, hcell, readBlock_raw, Option.bind_eq_bind,
        Option.bind_some]
      exact ih hrest (Nat.lt_of_succ_lt_succ hfuel) _

/-- **`retrieve_data`** on a well-formed chain. -/
theorem retrieveDataAt_eq {memory : Memory Addr} {as : List Addr} {blocks : List Block}
    {fuel : Nat} (h : Holds memory.heap memory.blockchainHead as blocks)
    (howns : memory.heap.Owns as) (hfuel : as.length < fuel) :
    ∃ heap', retrieveDataAt sha256 fuel memory =
        some ⟨(retrieveData sha256 blocks).response, heap', (retrieveData sha256 blocks).hashed⟩ ∧
      Holds heap' memory.blockchainHead as (retrieveData sha256 blocks).blocks ∧
      heap'.Owns as := by
  obtain ⟨heap', hvalidate, hholds, hheapOwns⟩ := validateBlockchainAt_eq sha256 h howns hfuel
  refine ⟨heap', ?_, hholds, hheapOwns⟩
  simp only [retrieveDataAt, retrieveData, hvalidate, Option.bind_eq_bind, Option.bind_some,
    Option.pure_def]
  cases (validateBlockchain sha256 blocks).valid with
  | false => rfl
  | true =>
      simp only [Bool.not_true, Bool.false_eq_true, if_false]
      have hrender := renderLoopAt_eq hholds hfuel []
      cases hblocks : (validateBlockchain sha256 blocks).blocks with
      | nil =>
          rw [hblocks] at hholds
          rw [hholds.eq_of_nil]
      | cons block rest =>
          rw [hblocks] at hholds hrender
          obtain ⟨a, _, _, hhead, -⟩ := hholds.exists_cons
          rw [hhead] at hrender ⊢
          simp only [hrender, Option.bind_some]

/-- **`free_blockchain`** frees every block of a chain once, the first block
first, and touches nothing else. -/
theorem freeLoop_eq {heap : Heap Addr RawBlock} {p : Option Addr} {as : List Addr}
    {raws : List RawBlock} {fuel : Nat} (h : Segment heap p as raws none)
    (hfuel : as.length < fuel) :
    ∃ heap', freeLoop fuel heap p = some ⟨heap', as⟩ ∧ (∀ a ∈ as, heap' a = none) ∧
      ∀ a ∉ as, heap' a = heap a := by
  induction raws generalizing p as fuel heap with
  | nil =>
      obtain ⟨fuel, rfl⟩ := Nat.exists_eq_succ_of_ne_zero (Nat.ne_zero_of_lt hfuel)
      cases h
      exact ⟨heap, rfl, fun _ ha => absurd ha List.not_mem_nil, fun _ _ => rfl⟩
  | cons raw raws ih =>
      obtain ⟨fuel, rfl⟩ := Nat.exists_eq_succ_of_ne_zero (Nat.ne_zero_of_lt hfuel)
      have hnodup := h.nodup
      obtain ⟨a, next, as, rfl, rfl, hcell, hrest⟩ := h.exists_cons
      obtain ⟨ha, -⟩ := List.nodup_cons.mp hnodup
      have hkept : Segment (Function.update heap a none) next as raws none := by
        refine hrest.frame fun b hb => Function.update_of_ne ?_ _ _
        rintro rfl
        exact ha hb
      obtain ⟨heap', hloop, hfreed, hother⟩ := ih hkept (Nat.lt_of_succ_lt_succ hfuel)
      refine ⟨heap', ?_, ?_, ?_⟩
      · simp only [freeLoop, Heap.load_some, hcell, Heap.free_eq_update hcell, hloop,
          Option.bind_eq_bind, Option.bind_some, Option.pure_def]
      · rw [List.forall_mem_cons]
        refine ⟨?_, hfreed⟩
        rw [hother a ha, Function.update_self]
      · intro b hb
        rw [hother b (List.not_mem_of_not_mem_cons hb),
          Function.update_of_ne (List.ne_of_not_mem_cons hb)]

end

end ShardedLedger.Server
