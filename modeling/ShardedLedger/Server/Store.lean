import ShardedLedger.Server.Validate
set_option autoImplicit false

/-!
# Server: runs of `store_data` and `retrieve_data`

`store_data` links the new block to `blockchain_head`, the first block of the
chain, and appends it behind the last one.  So every block from the second on
carries the hash of its data after the hash of the *first* block
(`headLinked`), while validation expects the block directly before.

Two results over whole runs.  `append_only`: no operation alters an existing
block of a reachable chain; what carries the induction is that the blocks a
validation visits are settled (`settled_of_reachable`).
`intactAfterEveryStore_iff`: a run of stores keeps the chain intact exactly as
long as the two links agree (`LinksAgree`).
-/

namespace ShardedLedger.Server

open CString Sha256

variable (sha256 : Bytes → Digest)

/-! ## One store -/

/-- The string a block keeps of a payload: its first 255 characters. -/
def storedData (payload : Bytes) : Bytes := (cstr payload).take 255

/-- A block keeps a whole payload if it is a C string that fits. -/
theorem storedData_eq_self_iff (payload : Bytes) :
    storedData payload = payload ↔ payload.length ≤ 255 ∧ (0 : UInt8) ∉ payload := by
  constructor
  · intro h
    have hlength := congrArg List.length h
    rw [storedData, List.length_take] at hlength
    refine ⟨by omega, ?_⟩
    rw [← h]
    exact nul_not_mem_take (nul_not_mem_cstr payload) 255
  · rintro ⟨hlength, hnul⟩
    rw [storedData, cstr_eq_self hnul]
    exact List.take_of_length_le hlength

/-- The hash that `store_data` links a new block to: that of the first block. -/
def headHash : List Block → Bytes
  | [] => []
  | blockchainHead :: _ => blockchainHead.hash.str

/-- The block `store_data` appends, before the validation that follows. -/
def newBlock (payload : Bytes) (chain : List Block) : Block where
  data := CharBuf.ofStr 255 payload
  hash := CharBuf.ofStr 64 (link sha256 (storedData payload) (headHash chain))
  previousHash := CharBuf.ofStr 64 (headHash chain)

theorem view_newBlock (payload : Bytes) (chain : List Block) :
    view (newBlock sha256 payload chain) =
      (storedData payload, link sha256 (storedData payload) (headHash chain)) := by
  simp only [view, newBlock, str_ofStr_link]
  rw [CharBuf.str_ofStr]
  rfl

/-- A store whose allocation succeeds appends the new block and validates; the
bytes the allocation returned do not matter. -/
theorem storeData_eq (raw : RawBlock) (payload : Bytes) (chain : List Block) :
    storeData sha256 (some raw) payload chain =
      ⟨(check sha256 [] (chain ++ [newBlock sha256 payload chain])).blocks,
        (storedData payload ++ headHash chain) ::
          (check sha256 [] (chain ++ [newBlock sha256 payload chain])).hashed⟩ := by
  have hprevious : (storePreviousHash chain).str = headHash chain := by
    cases chain with
    | nil => exact emptyHash_str
    | cons b rest =>
        rw [storePreviousHash, str_copyTerminated, CharBuf.cstr_str, CharBuf.take_str]
        rfl
  simp only [storeData, validateBlockchain_eq_check, computeHash_blockPreviousHash,
    computeHash_outputHash, computeHash_hashed, hprevious, copyTerminated_eq_ofStr,
    CharBuf.str_ofStr]
  rfl

theorem storeData_some (raw : RawBlock) (payload : Bytes) (chain : List Block) :
    (storeData sha256 (some raw) payload chain).blocks =
      (check sha256 [] (chain ++ [newBlock sha256 payload chain])).blocks := by
  rw [storeData_eq]

@[simp] theorem storeData_none (payload : Bytes) (chain : List Block) :
    (storeData sha256 none payload chain).blocks = chain := rfl

/-- Validating a settled chain with one more block behind it touches, at most,
that block's `previous_hash`. -/
theorem check_append_of_settled {p : Bytes} {chain : List Block}
    (hsettled : Settled sha256 p chain) (b : Block) :
    ∃ b' : Block, view b' = view b ∧
      (check sha256 p (chain ++ [b])).blocks = chain ++ [b'] := by
  induction chain generalizing p with
  | nil =>
      refine ⟨relink p b, rfl, ?_⟩
      rw [List.nil_append, check]
      split
      · rfl
      · rfl
  | cons c rest ih =>
      obtain ⟨hc, hrest⟩ := hsettled
      have hself : relink p c = c := (relink_eq_self_iff p c).mpr hc
      rw [List.cons_append, check]
      split
      · rename_i hhash
        obtain ⟨b', hview, hblocks⟩ := ih (hrest hhash)
        exact ⟨b', hview, by simp only [hself, hblocks]; rfl⟩
      · exact ⟨b, rfl, by rw [hself]; rfl⟩

/-! ## Runs -/

/-- One call into the chain code. -/
inductive Operation where
  | store (malloc : Option RawBlock) (payload : Bytes)
  | retrieve
  | validate

/-- The chain after the call. -/
def Operation.apply (chain : List Block) : Operation → List Block
  | .store malloc payload => (storeData sha256 malloc payload chain).blocks
  | .retrieve => (retrieveData sha256 chain).blocks
  | .validate => (validateBlockchain sha256 chain).blocks

/-- The chain after a sequence of calls, from the empty chain on. -/
def runOperations (ops : List Operation) : List Block :=
  ops.foldl (Operation.apply sha256) []

/-- A chain that some sequence of calls leads to. -/
def Reachable (chain : List Block) : Prop := ∃ ops, runOperations sha256 ops = chain

theorem runOperations_concat (ops : List Operation) (op : Operation) :
    runOperations sha256 (ops ++ [op]) = op.apply sha256 (runOperations sha256 ops) := by
  simp [runOperations]

/-- **Invariant.**  In a reachable chain the blocks that a validation visits
already hold what it writes. -/
theorem settled_of_reachable {chain : List Block} (h : Reachable sha256 chain) :
    Settled sha256 [] chain := by
  obtain ⟨ops, rfl⟩ := h
  induction ops using List.reverseRecOn with
  | nil => trivial
  | append_singleton ops op ih =>
      rw [runOperations_concat]
      cases op with
      | store malloc payload =>
          cases malloc with
          | none => exact ih
          | some raw =>
              simp only [Operation.apply, storeData_some]
              exact settled_check sha256 _ _
      | retrieve =>
          simp only [Operation.apply, retrieveData, validateBlockchain_eq_check]
          exact settled_check sha256 _ _
      | validate =>
          simp only [Operation.apply, validateBlockchain_eq_check]
          exact settled_check sha256 _ _

/-- **The chain is append-only.**  From a reachable chain a store whose
allocation succeeds adds one block at the tail, with the first 255 characters of
the payload, and leaves the blocks before it byte for byte as they were; a store
whose allocation fails, and a retrieval, leave the whole chain as it was. -/
theorem append_only (chain : List Block) (hreach : Reachable sha256 chain) :
    (∀ raw payload, ∃ b : Block, b.data.str = (cstr payload).take 255 ∧
      (storeData sha256 (some raw) payload chain).blocks = chain ++ [b]) ∧
    (∀ payload, (storeData sha256 none payload chain).blocks = chain) ∧
    (retrieveData sha256 chain).blocks = chain := by
  have hsettled := settled_of_reachable sha256 hreach
  refine ⟨?_, fun _ => rfl, ?_⟩
  · intro raw payload
    obtain ⟨b, hview, hblocks⟩ :=
      check_append_of_settled sha256 hsettled (newBlock sha256 payload chain)
    refine ⟨b, ?_, by rw [storeData_some, hblocks]⟩
    rw [view_newBlock] at hview
    exact congrArg Prod.fst hview
  · simp only [retrieveData, validateBlockchain_eq_check]
    exact (check_blocks_eq_iff sha256 _ _).mpr hsettled

/-- A block of zeros, as an allocation may return it. -/
def zeroBlock : RawBlock :=
  ⟨List.Vector.replicate _ 0, List.Vector.replicate _ 0, List.Vector.replicate _ 0⟩

/-- The theorem at a chain whose third block does not validate. -/
theorem append_only_three_stores :
    let chain := runOperations Sha256.sha256 [.store (some zeroBlock) (ascii "a"),
      .store (some zeroBlock) (ascii "b"), .retrieve, .store (some zeroBlock) (ascii "c")]
    (∀ raw payload, ∃ b : Block, b.data.str = (cstr payload).take 255 ∧
      (storeData Sha256.sha256 (some raw) payload chain).blocks = chain ++ [b]) ∧
    (∀ payload, (storeData Sha256.sha256 none payload chain).blocks = chain) ∧
    (retrieveData Sha256.sha256 chain).blocks = chain :=
  append_only Sha256.sha256 _ ⟨_, rfl⟩

/-! ## The hashes of a stored chain -/

/-- The chain after a sequence of stores whose allocations all succeed. -/
def storeAll (stores : List (RawBlock × Bytes)) : List Block :=
  runOperations sha256 (stores.map fun s => .store (some s.1) s.2)

theorem storeAll_concat (stores : List (RawBlock × Bytes)) (s : RawBlock × Bytes) :
    storeAll sha256 (stores ++ [s]) =
      (storeData sha256 (some s.1) s.2 (storeAll sha256 stores)).blocks := by
  rw [storeAll, List.map_append, List.map_cons, List.map_nil, runOperations_concat]
  rfl

theorem storeAll_reachable (stores : List (RawBlock × Bytes)) :
    Reachable sha256 (storeAll sha256 stores) := ⟨_, rfl⟩

/-- The data and hashes of a chain in which every block is linked to the first. -/
def headLinked : List Bytes → List (Bytes × Bytes)
  | [] => []
  | d :: ds => (d, link sha256 d []) :: ds.map fun e => (e, link sha256 e (link sha256 d []))

/-- The hash of the first entry. -/
def headOf : List Bytes → Bytes
  | [] => []
  | d :: _ => link sha256 d []

theorem headLinked_concat (ds : List Bytes) (d : Bytes) :
    headLinked sha256 (ds ++ [d]) =
      headLinked sha256 ds ++ [(d, link sha256 d (headOf sha256 ds))] := by
  cases ds with
  | nil => rfl
  | cons e ds => simp [headLinked, headOf]

theorem headHash_of_view {chain : List Block} {ds : List Bytes}
    (h : chain.map view = headLinked sha256 ds) : headHash chain = headOf sha256 ds := by
  cases chain with
  | nil =>
      cases ds with
      | nil => rfl
      | cons d ds => simp [headLinked] at h
  | cons b rest =>
      cases ds with
      | nil => simp [headLinked] at h
      | cons d ds =>
          simp only [List.map_cons, headLinked, List.cons.injEq] at h
          exact congrArg Prod.snd h.1

/-- The data and hashes after a run of stores. -/
theorem storeAll_view (stores : List (RawBlock × Bytes)) :
    (storeAll sha256 stores).map view =
      headLinked sha256 (stores.map fun s => storedData s.2) := by
  induction stores using List.reverseRecOn with
  | nil => rfl
  | append_singleton stores s ih =>
      rw [storeAll_concat, storeData_some, check_blocks_view, List.map_append, List.map_append,
        List.map_cons, List.map_nil, List.map_cons, List.map_nil, headLinked_concat, ih,
        view_newBlock, headHash_of_view sha256 ih]

@[simp] theorem storeAll_length (stores : List (RawBlock × Bytes)) :
    (storeAll sha256 stores).length = stores.length := by
  have := congrArg List.length (storeAll_view sha256 stores)
  cases stores with
  | nil => rfl
  | cons s stores => simpa [headLinked] using this

/-! ## When the chain validates -/

/-- From the third string on, hashing it with the first block's hash gives the
digest that hashing it with its predecessor's hash gives. -/
def LinksAgree (ds : List Bytes) : Prop :=
  ∀ k (h : k + 2 < ds.length),
    sha256 (ds[k + 2] ++ hexDigest (sha256 ds[0])) =
      sha256 (ds[k + 2] ++ hexDigest (sha256 (ds[k + 1] ++ hexDigest (sha256 ds[0]))))

theorem headLinked_sealed_iff (ds : List Bytes) :
    HashChain.Sealed (link sha256) [] (headLinked sha256 ds) ↔ LinksAgree sha256 ds := by
  rw [HashChain.sealed_iff_getElem]
  cases ds with
  | nil => simp [headLinked, LinksAgree]
  | cons d ds =>
      constructor
      · intro hall k hk
        have := hall (k + 2) (by simpa [headLinked] using hk)
        simp only [headLinked, List.getElem_cons_succ, List.getElem_map,
          HashChain.predecessor] at this
        have hk' : k < ds.length := by simp at hk; omega
        simp only [List.getElem?_cons_succ, List.getElem?_map, List.getElem?_eq_getElem hk',
          Option.map_some, Option.getD_some, link, List.append_nil] at this
        exact hexDigest_injective this
      · intro hagree i hi
        rcases i with - | - | k
        · simp [headLinked, HashChain.predecessor]
        · simp [headLinked, HashChain.predecessor]
        · have hk : k + 1 < ds.length := by simpa [headLinked] using hi
          have hk' : k < ds.length := by omega
          have := hagree k (Nat.succ_lt_succ hk)
          simp only [headLinked, List.getElem_cons_succ, List.getElem_map,
            HashChain.predecessor, List.getElem?_cons_succ, List.getElem?_map,
            List.getElem?_eq_getElem hk', Option.map_some, Option.getD_some, link,
            List.append_nil]
          simp only [List.getElem_cons_succ, List.getElem_cons_zero] at this
          rw [this]

/-- The chain of a run of stores validates exactly when the links agree. -/
theorem storeAll_valid_iff (stores : List (RawBlock × Bytes)) :
    (validateBlockchain sha256 (storeAll sha256 stores)).valid = true ↔
      LinksAgree sha256 (stores.map fun s => storedData s.2) := by
  rw [accepted_iff_sealed, storeAll_view, headLinked_sealed_iff]

theorem linksAgree_of_length_le_two {ds : List Bytes} (h : ds.length ≤ 2) :
    LinksAgree sha256 ds := by
  intro k hk
  omega

theorem linksAgree_take {ds : List Bytes} (h : LinksAgree sha256 ds) (n : Nat) :
    LinksAgree sha256 (ds.take n) := by
  intro k hk
  have hk' : k + 2 < ds.length := by
    rw [List.length_take] at hk
    omega
  simp only [List.getElem_take]
  exact h k hk'

/-- Without a collision among the four strings concerned, agreement at the
third block means that the first payload ends in its own hexadecimal digest. -/
theorem suffix_of_linksAgree {d₀ d₁ d₂ : Bytes} {ds : List Bytes} {strings : List Bytes}
    (hagree : LinksAgree sha256 (d₀ :: d₁ :: d₂ :: ds)) (hfree : CollisionFreeOn sha256 strings)
    (h₀ : d₀ ∈ strings) (h₁ : d₁ ++ hexDigest (sha256 d₀) ∈ strings)
    (hhead : d₂ ++ hexDigest (sha256 d₀) ∈ strings)
    (hlast : d₂ ++ hexDigest (sha256 (d₁ ++ hexDigest (sha256 d₀))) ∈ strings) :
    d₁ ++ hexDigest (sha256 d₀) = d₀ := by
  have hdigest := hagree 0 (by simp)
  simp only [Nat.zero_add, List.getElem_cons_succ, List.getElem_cons_zero] at hdigest
  have hstring := hfree _ hhead _ hlast hdigest
  have htail := List.append_cancel_left hstring
  exact (hfree _ h₀ _ h₁ (hexDigest_injective htail)).symm

/-- After every store of the run the chain is intact and validates. -/
def IntactAfterEveryStore (stores : List (RawBlock × Bytes)) : Prop :=
  ∀ n ≤ stores.length,
    ChainIntact sha256 (storeAll sha256 (stores.take n)) ∧
      (validateBlockchain sha256 (storeAll sha256 (stores.take n))).valid = true

/-- **A run of stores keeps the chain intact exactly as long as the links
agree**, in particular for up to two stores. -/
theorem intactAfterEveryStore_iff (stores : List (RawBlock × Bytes)) :
    IntactAfterEveryStore sha256 stores ↔
      LinksAgree sha256 (stores.map fun s => storedData s.2) := by
  constructor
  · intro h
    have hwhole := (h stores.length (Nat.le_refl _)).2
    rw [List.take_length] at hwhole
    exact (storeAll_valid_iff sha256 stores).mp hwhole
  · intro hagree n _
    have hvalid : (validateBlockchain sha256 (storeAll sha256 (stores.take n))).valid = true := by
      rw [storeAll_valid_iff, List.map_take]
      exact linksAgree_take sha256 hagree n
    have hsettled : VisitedSettled sha256 (storeAll sha256 (stores.take n)) :=
      (settled_nil_iff sha256 _).mp
        (settled_of_reachable sha256 (storeAll_reachable sha256 (stores.take n)))
    exact ⟨chainIntact_of_settled sha256 hsettled hvalid, hvalid⟩

/-- The payloads `a`, `b` and `c`, stored one after the other. -/
def threeStores : List (RawBlock × Bytes) :=
  [(zeroBlock, ascii "a"), (zeroBlock, ascii "b"), (zeroBlock, ascii "c")]

/-- The third block is linked to the first, and the chain does not validate. -/
theorem threeStores_not_intact : ¬ IntactAfterEveryStore Sha256.sha256 threeStores := by
  intro h
  have hvalid := (h 3 (by decide)).2
  rw [storeAll_valid_iff] at hvalid
  have hdigest := hvalid 0 (by decide)
  exact absurd hdigest (by decide +kernel)

end ShardedLedger.Server
