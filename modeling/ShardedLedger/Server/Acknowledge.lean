import ShardedLedger.Server.HandleClient
set_option autoImplicit false

/-!
# Server: what `DATA_STORED` says

`handle_client` answers everything but `RETRIEVE` with `DATA_STORED`, whatever
`store_data` did: the call returns nothing.  `ackMeansKept_iff` says for exactly
which requests the answer is true, that is, the chain has got one more block and
the block holds the whole request.
-/

namespace ShardedLedger.Server

open CString Sha256

/-- The acknowledgement of a store. -/
def ack : Bytes := ascii "DATA_STORED"

/-- One block was appended to the chain, and its data is the request. -/
def KeptIntact (request : Bytes) (chain blocks : List Block) : Prop :=
  ∃ block : Block, blocks = chain ++ [block] ∧ block.data.str = request

variable (sha256 : Bytes → Digest)

/-- A retrieval is not mistaken for an acknowledgement: the text of a block
begins with `Data: `. -/
theorem retrieveData_response_ne_ack (chain : List Block) :
    (retrieveData sha256 chain).response ≠ ack := by
  unfold retrieveData
  dsimp only
  split
  · decide
  · split
    · decide
    · rename_i blocks hblocks
      cases hcases : (validateBlockchain sha256 chain).blocks with
      | nil => exact absurd hcases (by simpa using hblocks)
      | cons block rest =>
          have hempty : ([] : Bytes).length < maxResponseLength := by decide
          rw [renderLoop_eq_take (block :: rest) hempty]
          intro heq
          have hfront := congrArg (List.take 6) heq
          rw [List.nil_append, List.take_take, render_cons, entry] at hfront
          simp only [List.append_assoc] at hfront
          rw [List.take_append_of_le_length (by decide)] at hfront
          exact absurd hfront (by decide)

/-- A store whose allocation succeeds appends a block with the data it keeps. -/
theorem storeData_appends {chain : List Block} (hreach : Reachable sha256 chain) (raw : RawBlock)
    (payload : Bytes) :
    ∃ block : Block, (storeData sha256 (some raw) payload chain).blocks = chain ++ [block] ∧
      block.data.str = storedData payload := by
  obtain ⟨block, hview, hblocks⟩ := check_append_of_settled sha256
    (settled_of_reachable sha256 hreach) (newBlock sha256 payload chain)
  rw [view_newBlock] at hview
  exact ⟨block, by rw [storeData_some, hblocks], congrArg Prod.fst hview⟩

/-- Without the block nothing is kept; with it, the data it keeps. -/
theorem keptIntact_storeData_iff {chain : List Block} (hreach : Reachable sha256 chain)
    (malloc : Option RawBlock) (request payload : Bytes) :
    KeptIntact request chain (storeData sha256 malloc payload chain).blocks ↔
      malloc ≠ none ∧ storedData payload = request := by
  cases malloc with
  | none =>
      refine iff_of_false ?_ (fun h => h.1 rfl)
      rintro ⟨block, hblocks, _⟩
      have hlength := congrArg List.length hblocks
      rw [storeData_none, List.length_append, List.length_singleton] at hlength
      omega
  | some raw =>
      obtain ⟨block, hblocks, hdata⟩ := storeData_appends sha256 hreach raw payload
      constructor
      · rintro ⟨block', hblocks', hdata'⟩
        obtain rfl : block = block' := by
          rw [hblocks] at hblocks'
          exact List.singleton_inj.mp (List.append_cancel_left hblocks')
        exact ⟨Option.some_ne_none raw, hdata.symm.trans hdata'⟩
      · rintro ⟨_, hkept⟩
        exact ⟨block, hblocks, hdata.trans hkept⟩

/-! ## Acknowledged and kept -/

/-- If the shard answers the request with `DATA_STORED`, it has kept it. -/
def AckMeansKept (malloc : Option RawBlock) (request : Bytes) (chain : List Block) : Prop :=
  (handleRequest sha256 malloc request chain).response = ack →
    KeptIntact request chain (handleRequest sha256 malloc request chain).blocks

/-- Every request that is not the word `RETRIEVE` is acknowledged. -/
theorem handleRequest_response_eq_ack_iff (malloc : Option RawBlock) (request : Bytes)
    (chain : List Block) :
    (handleRequest sha256 malloc request chain).response = ack ↔
      cstr request ≠ ascii "RETRIEVE" := by
  by_cases hword : cstr request = ascii "RETRIEVE"
  · have hcompare : strcmpEq (request ++ [0]) (ascii "RETRIEVE") = true :=
      strcmpEq_append_nul_of_eq rfl hword
    simp only [handleRequest, hcompare, if_true]
    exact iff_of_false (retrieveData_response_ne_ack sha256 chain) (fun h => h hword)
  · rw [handleRequest_store sha256 malloc hword]
    exact iff_of_true rfl hword

theorem handleRequest_keptIntact_iff {chain : List Block} (hreach : Reachable sha256 chain)
    (malloc : Option RawBlock) {request : Bytes} (hstore : cstr request ≠ ascii "RETRIEVE") :
    KeptIntact request chain (handleRequest sha256 malloc request chain).blocks ↔
      malloc ≠ none ∧ request.length ≤ 255 ∧ (0 : UInt8) ∉ request := by
  have hterminated : storedData (request ++ [0]) = storedData request := by
    rw [storedData, storedData, cstr_append_singleton_nul]
  rw [handleRequest_store sha256 malloc hstore, keptIntact_storeData_iff sha256 hreach,
    hterminated, storedData_eq_self_iff]

/-- **An acknowledgement means that the request was kept** exactly when the block
could be allocated and the request is a C string of at most 255 characters. -/
theorem ackMeansKept_iff {chain : List Block} (hreach : Reachable sha256 chain)
    (malloc : Option RawBlock) (request : Bytes) :
    AckMeansKept sha256 malloc request chain ↔
      cstr request = ascii "RETRIEVE" ∨
        malloc ≠ none ∧ request.length ≤ 255 ∧ (0 : UInt8) ∉ request := by
  rw [AckMeansKept, handleRequest_response_eq_ack_iff]
  by_cases hword : cstr request = ascii "RETRIEVE"
  · exact iff_of_true (fun h => absurd hword h) (Or.inl hword)
  · rw [handleRequest_keptIntact_iff sha256 hreach malloc hword]
    constructor
    · exact fun h => Or.inr (h hword)
    · exact fun h _ => h.resolve_left hword

/-- The theorem at a chain of one block. -/
theorem ackMeansKept_iff_oneBlock :
    AckMeansKept Sha256.sha256 (some zeroBlock) (ascii "b")
        (runOperations Sha256.sha256 [.store (some zeroBlock) (ascii "a")]) ↔
      cstr (ascii "b") = ascii "RETRIEVE" ∨
        some zeroBlock ≠ none ∧ (ascii "b").length ≤ 255 ∧ (0 : UInt8) ∉ ascii "b" :=
  ackMeansKept_iff Sha256.sha256 ⟨_, rfl⟩ (some zeroBlock) (ascii "b")

/-- A request of 256 characters, one with a NUL in it, and one for which there
is no memory are acknowledged by a shard with an empty chain, and not kept. -/
theorem acknowledged_not_kept :
    ¬ AckMeansKept Sha256.sha256 (some zeroBlock) (List.replicate 256 97) [] ∧
    ¬ AckMeansKept Sha256.sha256 (some zeroBlock) [97, 0, 98] [] ∧
    ¬ AckMeansKept Sha256.sha256 none (ascii "a") [] := by
  have hempty : Reachable Sha256.sha256 [] := ⟨[], rfl⟩
  have hlost : ∀ malloc request, cstr request ≠ ascii "RETRIEVE" →
      ¬ (malloc ≠ none ∧ request.length ≤ 255 ∧ (0 : UInt8) ∉ request) →
      ¬ AckMeansKept Sha256.sha256 malloc request [] := by
    intro malloc request hstore hnot hkept
    have hack := (handleRequest_response_eq_ack_iff Sha256.sha256 malloc request []).mpr hstore
    exact hnot ((handleRequest_keptIntact_iff Sha256.sha256 hempty malloc hstore).mp (hkept hack))
  have hword : cstr (List.replicate 256 97) ≠ ascii "RETRIEVE" := by
    rw [cstr_replicate (by decide)]
    intro heq
    have hlength := congrArg List.length heq
    rw [List.length_replicate] at hlength
    exact absurd hlength (by decide)
  refine ⟨hlost _ _ hword (fun h => ?_), hlost _ _ (by decide) (fun h => ?_),
    hlost _ _ (by decide) (fun h => h.1 rfl)⟩
  · have hlength := h.2.1
    rw [List.length_replicate] at hlength
    exact absurd hlength (by decide)
  · exact absurd h.2.2 (by decide)

end ShardedLedger.Server
