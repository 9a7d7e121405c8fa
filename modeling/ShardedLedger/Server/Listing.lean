import ShardedLedger.Server.Retrieve
set_option autoImplicit false

/-!
# Server: whether a reply lists the whole chain

An accepted chain is left with every block linked to the one before it
(`linked_check`), so the length of its full text depends on the number of blocks
and the lengths of their data only.  The reply is that text exactly when it fits
the response buffer (`listsWholeChain_iff`); beyond that it is cut without a
word, in the middle of a block.
-/

namespace ShardedLedger.Server

open CString Sha256

variable (sha256 : Bytes → Digest)

/-! ## Accepted chains -/

/-- Every block carries the hash of its data and of the block before it, and
names that block's hash; the first one is linked to `p`. -/
def Linked : Bytes → List Block → Prop
  | _, [] => True
  | p, block :: rest =>
      block.previousHash.str = p ∧ block.hash.str = link sha256 block.data.str p ∧
        Linked block.hash.str rest

/-- A previous hash is written whole. -/
theorem previousHash_relink {p : Bytes} (hnul : (0 : UInt8) ∉ p) (hlength : p.length ≤ 64)
    (block : Block) : (relink p block).previousHash.str = p := by
  rw [relink, CharBuf.str_ofStr, cstr_eq_self hnul]
  exact List.take_of_length_le hlength

/-- A validation that accepts the chain leaves it linked. -/
theorem linked_check {p : Bytes} (hnul : (0 : UInt8) ∉ p) (hlength : p.length ≤ 64)
    {chain : List Block} (hvalid : (check sha256 p chain).valid = true) :
    Linked sha256 p (check sha256 p chain).blocks := by
  induction chain generalizing p with
  | nil => trivial
  | cons block rest ih =>
      obtain ⟨hhash, hrest, hcheck⟩ := check_cons_of_valid sha256 hvalid
      rw [hcheck]
      exact ⟨previousHash_relink hnul hlength block, hhash,
        ih block.hash.nul_not_mem_str (Nat.le_of_lt_succ block.hash.str_length_lt) hrest⟩

theorem linked_of_accepted {chain : List Block}
    (hvalid : (validateBlockchain sha256 chain).valid = true) :
    Linked sha256 [] (retrieveData sha256 chain).blocks := by
  change Linked sha256 [] (validateBlockchain sha256 chain).blocks
  rw [validateBlockchain_eq_check] at hvalid ⊢
  exact linked_check sha256 List.not_mem_nil (Nat.zero_le _) hvalid

/-! ## The length of the full text -/

/-- The number of characters stored in a chain. -/
def storedLength (chain : List Block) : Nat := (chain.map fun b => b.data.str.length).sum

@[simp] theorem storedLength_nil : storedLength [] = 0 := rfl

@[simp] theorem storedLength_cons (block : Block) (rest : List Block) :
    storedLength (block :: rest) = block.data.str.length + storedLength rest := rfl

theorem storedLength_of_view {left right : List Block} (h : left.map view = right.map view) :
    storedLength left = storedLength right := by
  have hlengths := congrArg (List.map fun v => v.1.length) h
  rw [List.map_map, List.map_map] at hlengths
  exact congrArg List.sum hlengths

/-- A block takes 159 characters and its data; where its previous hash is
shorter than 64 characters, it takes less. -/
theorem render_length_of_linked {p : Bytes} {chain : List Block} (h : Linked sha256 p chain)
    (hne : chain ≠ []) :
    (render chain).length + 64 = 159 * chain.length + storedLength chain + p.length := by
  induction chain generalizing p with
  | nil => exact absurd rfl hne
  | cons block rest ih =>
      obtain ⟨hprevious, hhash, hrest⟩ := h
      have hwidth : block.hash.str.length = 64 := by rw [hhash, link_length]
      have hblock : (entry block).length = 95 + block.data.str.length + p.length := by
        rw [entry_length, hprevious, hwidth]
        omega
      rw [render_cons, List.length_append, hblock, List.length_cons, storedLength_cons]
      cases rest with
      | nil =>
          simp only [render_nil, List.length_nil, storedLength_nil]
          omega
      | cons next rest =>
          have htail := ih hrest (List.cons_ne_nil _ _)
          rw [hwidth] at htail
          omega

theorem render_length_of_accepted {chain : List Block} (hne : chain ≠ [])
    (hvalid : (validateBlockchain sha256 chain).valid = true) :
    (render (retrieveData sha256 chain).blocks).length + 64 =
      159 * chain.length + storedLength chain := by
  have hview := retrieveData_blocks_view sha256 chain
  have hlength := congrArg List.length hview
  rw [List.length_map, List.length_map] at hlength
  rw [render_length_of_linked sha256 (linked_of_accepted sha256 hvalid)
    (retrieveData_blocks_ne_nil sha256 hne), hlength,
    storedLength_of_view hview, List.length_nil]
  rfl

/-! ## Whole replies -/

/-- The reply of `retrieve_data` is the text of every block, in chain order. -/
def ListsWholeChain (chain : List Block) : Prop :=
  (retrieveData sha256 chain).response = render (retrieveData sha256 chain).blocks

/-- A reply is whole when the text fits the response buffer. -/
theorem listsWholeChain_of_accepted {chain : List Block} (hne : chain ≠ [])
    (hvalid : (validateBlockchain sha256 chain).valid = true) :
    ListsWholeChain sha256 chain ↔
      (render (retrieveData sha256 chain).blocks).length ≤ maxResponseLength - 1 := by
  rw [ListsWholeChain, retrieveData_response_of_accepted sha256 hvalid,
    contents_of_ne_nil (retrieveData_blocks_ne_nil sha256 hne)]
  exact List.take_eq_self_iff _

/-- **A reply lists the whole chain** exactly when 159 characters for each block
and the data of all blocks come to at most 25663: the response buffer holds 25599,
and the first block has no previous hash. -/
theorem listsWholeChain_iff {chain : List Block} (hne : chain ≠ [])
    (hvalid : (validateBlockchain sha256 chain).valid = true) :
    ListsWholeChain sha256 chain ↔ 159 * chain.length + storedLength chain ≤ 25663 := by
  have hlength := render_length_of_accepted sha256 hne hvalid
  rw [listsWholeChain_of_accepted sha256 hne hvalid]
  simp only [maxResponseLength, maxLine]
  omega

/-- The theorem at a chain of two blocks. -/
theorem listsWholeChain_iff_tampered :
    ListsWholeChain Sha256.sha256 tamperedChain ↔
      159 * tamperedChain.length + storedLength tamperedChain ≤ 25663 :=
  listsWholeChain_iff Sha256.sha256 (List.cons_ne_nil _ _) tamperedChain_valid

/-! ## A long chain -/

/-- The chain of the data strings `ds`, properly linked from `p` on. -/
def linkedChain : Bytes → List Bytes → List Block
  | _, [] => []
  | p, d :: ds =>
      { data := CharBuf.ofStr 255 d
        hash := CharBuf.ofStr 64 (link sha256 (storedData d) p)
        previousHash := CharBuf.ofStr 64 p } ::
        linkedChain (link sha256 (storedData d) p) ds

@[simp] theorem linkedChain_length (p : Bytes) (ds : List Bytes) :
    (linkedChain sha256 p ds).length = ds.length := by
  induction ds generalizing p with
  | nil => rfl
  | cons d ds ih => rw [linkedChain, List.length_cons, ih, List.length_cons]

theorem linkedChain_valid (p : Bytes) (ds : List Bytes) :
    (check sha256 p (linkedChain sha256 p ds)).valid = true := by
  induction ds generalizing p with
  | nil => rfl
  | cons d ds ih =>
      have hdata : (CharBuf.ofStr 255 d).str = storedData d := CharBuf.str_ofStr 255 d
      rw [linkedChain, check]
      simp only [str_ofStr_link, hdata, if_true]
      exact ih _

theorem linkedChain_accepted (ds : List Bytes) :
    (validateBlockchain sha256 (linkedChain sha256 [] ds)).valid = true := by
  rw [validateBlockchain_eq_check]
  exact linkedChain_valid sha256 [] ds

theorem storedLength_linkedChain (p : Bytes) (ds : List Bytes) :
    storedLength (linkedChain sha256 p ds) = (ds.map fun d => (storedData d).length).sum := by
  induction ds generalizing p with
  | nil => rfl
  | cons d ds ih =>
      rw [linkedChain, storedLength_cons, ih, List.map_cons, List.sum_cons, CharBuf.str_ofStr]
      rfl

/-- A chain of 62 blocks with full data is accepted and not shown whole. -/
theorem linkedChain_cut {d : Bytes} (hd : (storedData d).length = 255) {n : Nat} (hn : 62 ≤ n) :
    (validateBlockchain sha256 (linkedChain sha256 [] (List.replicate n d))).valid = true ∧
      ¬ ListsWholeChain sha256 (linkedChain sha256 [] (List.replicate n d)) := by
  let chain := linkedChain sha256 [] (List.replicate n d)
  have hcount : chain.length = n := by
    rw [linkedChain_length, List.length_replicate]
  have hne : chain ≠ [] := by
    intro hnil
    rw [hnil, List.length_nil] at hcount
    omega
  have hvalid := linkedChain_accepted sha256 (List.replicate n d)
  have hstored : storedLength chain = 255 * n := by
    rw [storedLength_linkedChain, List.map_replicate, List.sum_replicate, hd, smul_eq_mul,
      Nat.mul_comm]
  refine ⟨hvalid, fun hwhole => ?_⟩
  have hlength := render_length_of_accepted sha256 hne hvalid
  have hfits := (listsWholeChain_of_accepted sha256 hne hvalid).mp hwhole
  rw [hcount, hstored] at hlength
  simp only [maxResponseLength, maxLine] at hfits
  omega

/-- 62 blocks, each of 255 characters. -/
theorem long_chain_cut :
    let chain := linkedChain Sha256.sha256 [] (List.replicate 62 (List.replicate 255 97))
    (validateBlockchain Sha256.sha256 chain).valid = true ∧ chain.length = 62 ∧
      ¬ ListsWholeChain Sha256.sha256 chain := by
  intro chain
  have hdata : (storedData (List.replicate 255 97)).length = 255 := by
    rw [storedData, cstr_replicate (by decide), List.length_take, List.length_replicate,
      Nat.min_self]
  obtain ⟨hvalid, hcut⟩ := linkedChain_cut Sha256.sha256 hdata (Nat.le_refl 62)
  exact ⟨hvalid, by rw [linkedChain_length, List.length_replicate], hcut⟩

end ShardedLedger.Server
