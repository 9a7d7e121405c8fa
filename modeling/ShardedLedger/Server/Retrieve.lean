import ShardedLedger.Server.Store
set_option autoImplicit false

/-!
# Server: the text of `retrieve_data`

One entry per block, in chain order: `entry`, `render`.  A block's text always
fits its local array (`blockInfo_eq_entry`), and the loop that concatenates them
is a cut at the size of the response buffer (`renderLoop_eq_take`).
-/

namespace ShardedLedger.Server

open CString Sha256

/-- The text of one block. -/
def entry (block : Block) : Bytes :=
  ascii "Data: " ++ block.data.str ++ ascii "\nHash: " ++ block.hash.str ++
    ascii "\nPrevious Hash: " ++ block.previousHash.str ++ ascii "\n\n"

/-- The texts of all blocks, one after the other. -/
def render (chain : List Block) : Bytes := (chain.map entry).flatten

theorem entry_length (block : Block) :
    (entry block).length =
      31 + block.data.str.length + block.hash.str.length + block.previousHash.str.length := by
  simp only [entry, List.length_append, show (ascii "Data: ").length = 6 from rfl,
    show (ascii "\nHash: ").length = 7 from rfl,
    show (ascii "\nPrevious Hash: ").length = 16 from rfl, show (ascii "\n\n").length = 2 from rfl]
  omega

theorem entry_length_le (block : Block) : (entry block).length ≤ 414 := by
  have hdata := block.data.str_length_lt
  have hhash := block.hash.str_length_lt
  have hprevious := block.previousHash.str_length_lt
  simp only [maxLine, hashSize] at hdata hhash hprevious
  rw [entry_length]
  omega

theorem nul_not_mem_entry (block : Block) : (0 : UInt8) ∉ entry block := by
  have hdata := block.data.nul_not_mem_str
  have hhash := block.hash.nul_not_mem_str
  have hprevious := block.previousHash.nul_not_mem_str
  simp only [entry, List.mem_append, not_or]
  refine ⟨⟨⟨⟨⟨⟨?_, hdata⟩, ?_⟩, hhash⟩, ?_⟩, hprevious⟩, ?_⟩
  all_goals decide

/-- `block_info` is never cut. -/
theorem blockInfo_eq_entry (block : Block) : blockInfo block = entry block := by
  refine snprintf_eq_self ?_
  have := entry_length_le block
  exact Nat.lt_of_le_of_lt this (by decide)

@[simp] theorem render_nil : render [] = [] := rfl

@[simp] theorem render_cons (block : Block) (rest : List Block) :
    render (block :: rest) = entry block ++ render rest := rfl

theorem render_length_le (chain : List Block) : (render chain).length ≤ 414 * chain.length := by
  induction chain with
  | nil => simp
  | cons block rest ih =>
      have := entry_length_le block
      simp only [render_cons, List.length_append, List.length_cons]
      omega

theorem le_render_length {chain : List Block} {k : Nat} (h : ∀ b ∈ chain, k ≤ (entry b).length) :
    k * chain.length ≤ (render chain).length := by
  induction chain with
  | nil => simp
  | cons block rest ih =>
      have hblock := h block List.mem_cons_self
      have hrest := ih fun b hb => h b (List.mem_cons_of_mem _ hb)
      rw [render_cons, List.length_append, List.length_cons, Nat.mul_succ]
      omega

theorem nul_not_mem_render (chain : List Block) : (0 : UInt8) ∉ render chain := by
  intro h
  obtain ⟨s, hs, hmem⟩ := List.mem_flatten.mp h
  obtain ⟨block, _, rfl⟩ := List.mem_map.mp hs
  exact nul_not_mem_entry block hmem

/-- Inside the buffer the room left does not wrap. -/
theorem roomLeft_eq {capacity : Nat} {s : Bytes} (h : s.length < capacity)
    (hcapacity : capacity < 2 ^ 64) : roomLeft capacity s = capacity - 1 - s.length := by
  unfold roomLeft
  rw [Int.emod_eq_of_lt (by omega) (by omega)]
  omega

theorem take_append_take {α : Type} (n : Nat) (s t : List α) :
    (s.take n ++ t).take n = (s ++ t).take n := by
  rw [List.take_append, List.take_append, List.take_take, Nat.min_self, List.length_take]
  rcases Nat.le_total n s.length with h | h
  · rw [Nat.min_eq_left h, Nat.sub_self, Nat.sub_eq_zero_of_le h]
  · rw [Nat.min_eq_right h]

/-- The loop concatenates the texts up to the size of the response buffer. -/
theorem renderLoop_eq_take (chain : List Block) {response : Bytes}
    (h : response.length < maxResponseLength) :
    renderLoop response chain = (response ++ render chain).take (maxResponseLength - 1) := by
  induction chain generalizing response with
  | nil =>
      rw [renderLoop, render_nil, List.append_nil]
      exact (List.take_of_length_le (by omega)).symm
  | cons block rest ih =>
      have hroom : roomLeft maxResponseLength response = maxResponseLength - 1 - response.length :=
        roomLeft_eq h (by decide)
      have hcat : strncat (roomLeft maxResponseLength response) response (blockInfo block) =
          (response ++ entry block).take (maxResponseLength - 1) := by
        rw [strncat, blockInfo_eq_entry, cstr_eq_self (nul_not_mem_entry block), hroom,
          List.take_append, List.take_of_length_le (by omega : response.length ≤ _)]
      have hlength : ((response ++ entry block).take (maxResponseLength - 1)).length <
          maxResponseLength := by
        rw [List.length_take]
        exact Nat.lt_of_le_of_lt (Nat.min_le_left _ _) (by decide)
      rw [renderLoop, hcat, ih hlength, render_cons, ← List.append_assoc, take_append_take]

variable (sha256 : Bytes → Digest)

/-- What a validation of a reachable chain leaves is that chain. -/
theorem validateBlockchain_blocks_of_reachable {chain : List Block}
    (h : Reachable sha256 chain) : (validateBlockchain sha256 chain).blocks = chain := by
  rw [validateBlockchain_eq_check]
  exact (check_blocks_eq_iff sha256 _ _).mpr (settled_of_reachable sha256 h)

/-- `fail_response`. -/
def failResponse : Bytes := ascii "Blockchain validation failed. Data retrieval aborted.\n"

/-- A chain that does not validate is not shown. -/
theorem retrieveData_response_of_invalid {chain : List Block}
    (h : (validateBlockchain sha256 chain).valid = false) :
    (retrieveData sha256 chain).response = failResponse := by
  simp only [retrieveData, h]
  rfl

/-- What a shard says of the blocks of a chain that validates. -/
def contents : List Block → Bytes
  | [] => ascii "NO_DATA"
  | chain => render chain

theorem contents_of_ne_nil {chain : List Block} (h : chain ≠ []) : contents chain = render chain := by
  cases chain with
  | nil => exact absurd rfl h
  | cons block rest => rfl

/-- A retrieval leaves data and hashes as they are. -/
theorem retrieveData_blocks_view (chain : List Block) :
    (retrieveData sha256 chain).blocks.map view = chain.map view := by
  change (validateBlockchain sha256 chain).blocks.map view = _
  rw [validateBlockchain_eq_check, check_blocks_view]

theorem retrieveData_blocks_ne_nil {chain : List Block} (h : chain ≠ []) :
    (retrieveData sha256 chain).blocks ≠ [] := by
  intro hnil
  have hview := retrieveData_blocks_view sha256 chain
  rw [hnil, List.map_nil] at hview
  exact h (List.map_eq_nil_iff.mp hview.symm)

/-- A chain that validates is shown up to the size of the buffer, as the
validation leaves it. -/
theorem retrieveData_response_of_accepted {chain : List Block}
    (h : (validateBlockchain sha256 chain).valid = true) :
    (retrieveData sha256 chain).response =
      (contents (retrieveData sha256 chain).blocks).take (maxResponseLength - 1) := by
  simp only [retrieveData, h]
  cases (validateBlockchain sha256 chain).blocks with
  | nil => rfl
  | cons block rest => exact renderLoop_eq_take (block :: rest) (by decide)

/-- A reachable chain that validates is shown up to the size of the buffer. -/
theorem retrieveData_response_of_valid {chain : List Block} (hreach : Reachable sha256 chain)
    (h : (validateBlockchain sha256 chain).valid = true) :
    (retrieveData sha256 chain).response = (contents chain).take (maxResponseLength - 1) := by
  have hblocks : (retrieveData sha256 chain).blocks = chain :=
    validateBlockchain_blocks_of_reachable sha256 hreach
  rw [retrieveData_response_of_accepted sha256 h, hblocks]

theorem contents_ne_nil (chain : List Block) : contents chain ≠ [] := by
  cases chain with
  | nil => decide
  | cons block rest =>
      intro h
      have hlength := entry_length block
      rw [contents, render_cons] at h
      · rw [(List.append_eq_nil_iff.mp h).1, List.length_nil] at hlength
        omega
      · simp

theorem nul_not_mem_contents (chain : List Block) : (0 : UInt8) ∉ contents chain := by
  cases chain with
  | nil => decide
  | cons block rest => exact nul_not_mem_render (block :: rest)

/-- A reply is a non-empty string. -/
theorem retrieveData_response_string {chain : List Block} (hreach : Reachable sha256 chain) :
    (retrieveData sha256 chain).response ≠ [] ∧
      (0 : UInt8) ∉ (retrieveData sha256 chain).response := by
  cases hvalid : (validateBlockchain sha256 chain).valid with
  | false =>
      rw [retrieveData_response_of_invalid sha256 hvalid]
      decide
  | true =>
      rw [retrieveData_response_of_valid sha256 hreach hvalid]
      refine ⟨?_, nul_not_mem_take (nul_not_mem_contents chain) _⟩
      rw [Ne, List.take_eq_nil_iff, not_or]
      exact ⟨by decide, contents_ne_nil chain⟩

/-- The reply for a chain of at most two blocks is short. -/
theorem retrieveData_response_length_le {chain : List Block} (hreach : Reachable sha256 chain)
    (hlength : chain.length ≤ 2) : (retrieveData sha256 chain).response.length ≤ 828 := by
  cases hvalid : (validateBlockchain sha256 chain).valid with
  | false =>
      rw [retrieveData_response_of_invalid sha256 hvalid]
      decide
  | true =>
      rw [retrieveData_response_of_valid sha256 hreach hvalid, List.length_take]
      refine Nat.le_trans (Nat.min_le_right _ _) ?_
      cases chain with
      | nil => decide
      | cons block rest =>
          have := render_length_le (block :: rest)
          change (render (block :: rest)).length ≤ 828
          omega

/-- A retrieval leaves a reachable chain as it was. -/
theorem retrieveData_blocks {chain : List Block} (h : Reachable sha256 chain) :
    (retrieveData sha256 chain).blocks = chain :=
  validateBlockchain_blocks_of_reachable sha256 h

end ShardedLedger.Server
