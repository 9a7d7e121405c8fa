import ShardedLedger.Foundation.Sha256
set_option autoImplicit false

/-!
# Server: the block chain of one shard (`server/server.c`)

The chain hangs off the global `blockchain_head`; here it is the list of its
blocks in `next` order, passed in and handed back.  The SHA-256 function of
OpenSSL is the parameter `sha256`.

Every function that hashes also reports the strings it handed to `SHA256`, in
order (`hashed`).  Nothing in the program reads them: they are what statements
about collisions quantify over.
-/

namespace ShardedLedger.Server

open CString Sha256

/-- `MAX_LINE` of `server.h`. -/
abbrev maxLine : Nat := 256

/-- `HASH_SIZE` of `server.h`: a digest in hexadecimal and its terminator. -/
abbrev hashSize : Nat := 65

/-- A block of the chain, without its `next` pointer. -/
structure Block where
  data : CharBuf maxLine
  hash : CharBuf hashSize
  previousHash : CharBuf hashSize
  deriving DecidableEq

/-- A freshly allocated block: its arrays hold whatever the memory held. -/
structure RawBlock where
  data : Buf maxLine
  hash : Buf hashSize
  previousHash : Buf hashSize

/-- A `char[HASH_SIZE]` initialised with `{0}`. -/
def emptyHash : CharBuf hashSize := CharBuf.ofStr 64 []

@[simp] theorem emptyHash_str : emptyHash.str = [] := by simp [emptyHash]

/-! ## `compute_hash` -/

/-- What `compute_hash` leaves behind: `output_hash`, the `previous_hash` array
of the block, and the string it hashed. -/
structure ComputedHash where
  outputHash : CharBuf hashSize
  blockPreviousHash : CharBuf hashSize
  hashed : Bytes

variable (sha256 : Bytes → Digest)

/-- `compute_hash(block, previous_hash, output_hash)`.  Of the block it reads
`data` and overwrites `previous_hash`, whose old bytes are `blockPreviousHash`. -/
def computeHash (data : CharBuf maxLine) (blockPreviousHash : Buf hashSize)
    (previousHash : CharBuf hashSize) : ComputedHash :=
  let dataToHash := snprintf (maxLine + hashSize) (data.str ++ previousHash.str)
  { outputHash := CharBuf.ofStr 64 (hexDigest (sha256 dataToHash))
    blockPreviousHash := copyTerminated blockPreviousHash previousHash.str
    hashed := dataToHash }

/-! ## `validate_blockchain` -/

/-- The return value of `validate_blockchain`, the chain as it leaves it, and
the strings it hashed. -/
structure Validation where
  valid : Bool
  blocks : List Block
  hashed : List Bytes

/-- The loop of `validate_blockchain`, from the block `current` on; `isHead`
says whether that block is `blockchain_head`. -/
def validateLoop : Bool → CharBuf hashSize → List Block → Validation
  | _, _, [] => ⟨true, [], []⟩
  | isHead, expectedPreviousHash, block :: rest =>
      let computed := computeHash sha256 block.data block.previousHash.toBuf expectedPreviousHash
      let current := { block with previousHash := computed.blockPreviousHash }
      if strncmp (hashSize - 1) current.hash.bytes computed.outputHash.bytes ≠ 0 then
        ⟨false, current :: rest, [computed.hashed]⟩
      else if !isHead && strncmp (hashSize - 1) current.previousHash.bytes
          expectedPreviousHash.bytes != 0 then
        ⟨false, current :: rest, [computed.hashed]⟩
      else
        let next := validateLoop false
          (copyTerminated expectedPreviousHash.toBuf current.hash.str) rest
        ⟨next.valid, current :: next.blocks, computed.hashed :: next.hashed⟩

/-- `validate_blockchain()`. -/
def validateBlockchain (blockchain : List Block) : Validation :=
  validateLoop sha256 true emptyHash blockchain

/-! ## `store_data` -/

/-- The chain after `store_data`, and the strings it hashed. -/
structure Stored where
  blocks : List Block
  hashed : List Bytes

/-- `previous_hash` of `store_data`: zeros for the first block, otherwise the
hash of `blockchain_head`. -/
def storePreviousHash : List Block → CharBuf hashSize
  | [] => emptyHash
  | blockchainHead :: _ => copyTerminated emptyHash.toBuf blockchainHead.hash.str

/-- `store_data(payload)`; `malloc` is what the allocation of the block returns,
`none` when it fails. -/
def storeData (malloc : Option RawBlock) (payload : Bytes) (blockchain : List Block) : Stored :=
  match malloc with
  | none => ⟨blockchain, []⟩
  | some newBlock =>
      let data : CharBuf maxLine := copyTerminated newBlock.data payload
      let computed := computeHash sha256 data newBlock.previousHash (storePreviousHash blockchain)
      let block : Block :=
        { data := data
          hash := copyTerminated newBlock.hash computed.outputHash.str
          previousHash := computed.blockPreviousHash }
      -- the walk to the last block, and `current->next = new_block`
      let validation := validateBlockchain sha256 (blockchain ++ [block])
      ⟨validation.blocks, computed.hashed :: validation.hashed⟩

/-! ## `retrieve_data` -/

/-- `max_response_length`. -/
def maxResponseLength : Nat := maxLine * 100

/-- `block_info` of one block. -/
def blockInfo (block : Block) : Bytes :=
  snprintf (maxLine + hashSize * 2 + 100)
    (ascii "Data: " ++ block.data.str ++ ascii "\nHash: " ++ block.hash.str ++
      ascii "\nPrevious Hash: " ++ block.previousHash.str ++ ascii "\n\n")

/-- `capacity - strlen(s) - 1`, an unsigned 64-bit difference. -/
def roomLeft (capacity : Nat) (s : Bytes) : Nat :=
  (((capacity : Int) - s.length - 1) % 2 ^ 64).toNat

/-- The loop that appends one `block_info` after the other to `response`. -/
def renderLoop : Bytes → List Block → Bytes
  | response, [] => response
  | response, current :: rest =>
      renderLoop (strncat (roomLeft maxResponseLength response) response (blockInfo current)) rest

/-- The text `retrieve_data` sends, the chain as it leaves it, and the strings
it hashed. -/
structure Retrieved where
  response : Bytes
  blocks : List Block
  hashed : List Bytes

/-- `retrieve_data`, up to the sending of `response`. -/
def retrieveData (blockchain : List Block) : Retrieved :=
  let validation := validateBlockchain sha256 blockchain
  let response :=
    if !validation.valid then ascii "Blockchain validation failed. Data retrieval aborted.\n"
    else match validation.blocks with
      | [] => snprintf maxResponseLength (ascii "NO_DATA")
      | blocks => renderLoop [] blocks
  ⟨response, validation.blocks, validation.hashed⟩

/-! ## What one hash computation does -/

/-- The array `data_to_hash` is never too small: data and hash both fit. -/
theorem computeHash_hashed (data : CharBuf maxLine) (blockPreviousHash : Buf hashSize)
    (previousHash : CharBuf hashSize) :
    (computeHash sha256 data blockPreviousHash previousHash).hashed =
      data.str ++ previousHash.str := by
  have hdata := data.str_length_lt
  have hprevious := previousHash.str_length_lt
  refine snprintf_eq_self ?_
  rw [List.length_append]
  omega

/-- The hash of a payload after a predecessor with the given hash. -/
def link (data previousHash : Bytes) : Bytes := hexDigest (sha256 (data ++ previousHash))

@[simp] theorem link_length (data previousHash : Bytes) :
    (link sha256 data previousHash).length = 64 := by simp [link]

theorem nul_not_mem_link (data previousHash : Bytes) :
    (0 : UInt8) ∉ link sha256 data previousHash := nul_not_mem_hexDigest _

/-- A hash array holds the whole hash. -/
@[simp] theorem str_ofStr_link (data previousHash : Bytes) :
    (CharBuf.ofStr 64 (link sha256 data previousHash)).str = link sha256 data previousHash := by
  rw [CharBuf.str_ofStr, cstr_eq_self (nul_not_mem_link sha256 data previousHash)]
  exact List.take_of_length_le (by rw [link_length])

/-- `output_hash` is the hexadecimal digest of the data followed by the
previous hash. -/
theorem computeHash_outputHash (data : CharBuf maxLine) (blockPreviousHash : Buf hashSize)
    (previousHash : CharBuf hashSize) :
    (computeHash sha256 data blockPreviousHash previousHash).outputHash.str =
      hexDigest (sha256 (data.str ++ previousHash.str)) := by
  have hstring := computeHash_hashed sha256 data blockPreviousHash previousHash
  simp only [computeHash] at hstring ⊢
  rw [hstring]
  exact str_ofStr_link sha256 data.str previousHash.str

/-- The block's `previous_hash` array is overwritten in full. -/
theorem computeHash_blockPreviousHash (data : CharBuf maxLine) (blockPreviousHash : Buf hashSize)
    (previousHash : CharBuf hashSize) :
    (computeHash sha256 data blockPreviousHash previousHash).blockPreviousHash =
      CharBuf.ofStr 64 previousHash.str :=
  copyTerminated_eq_ofStr _ _

/-- Over 64 characters `strncmp` decides the equality of two hash strings. -/
theorem strncmp_hash_eq_zero_iff (a b : CharBuf hashSize) :
    strncmp (hashSize - 1) a.bytes b.bytes = 0 ↔ a.str = b.str := by
  rw [strncmp_eq_zero_iff]
  change a.str.take 64 = b.str.take 64 ↔ _
  rw [CharBuf.take_str a, CharBuf.take_str b]

end ShardedLedger.Server
