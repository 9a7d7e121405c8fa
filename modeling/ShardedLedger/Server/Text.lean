import ShardedLedger.Server.Binding
import ShardedLedger.Server.Listing
import ShardedLedger.Server.Representation
set_option autoImplicit false

/-!
# Server: the text determines the chain

The texts of the blocks stand one after the other with nothing escaped, and data
may contain any of the words between them; so the text cannot be split from the
front.  From the end it can: the widths of the last previous hash and hash are
known, and the hash tells how much of what stands before them is the data.
`render_injective` peels the blocks off one by one.

What is shown is the chain after its validation, which writes into every block
the hash of the one before it.  So two accepted chains with the same text agree in
data and hashes, and in the previous hashes as far as every block names its
predecessor (`retrieve_text_determines_chain`).
-/

namespace ShardedLedger.Server

open CString Sha256

/-- The three strings of a block. -/
def fields (b : Block) : Bytes × Bytes × Bytes := (b.data.str, b.hash.str, b.previousHash.str)

variable (sha256 : Bytes → Digest)

/-- The block carries the hash of its data and its previous hash. -/
structure SelfHashed (b : Block) : Prop where
  hash_eq : b.hash.str = link sha256 b.data.str b.previousHash.str
  previousText : PreviousText b.previousHash.str

theorem selfHashed_of_linked {p : Bytes} (hp : PreviousText p) {chain : List Block}
    (h : Linked sha256 p chain) : ∀ b ∈ chain, SelfHashed sha256 b := by
  induction chain generalizing p with
  | nil => exact fun b hb => absurd hb List.not_mem_nil
  | cons block rest ih =>
      obtain ⟨hprevious, hhash, hrest⟩ := h
      refine List.forall_mem_cons.mpr ⟨⟨?_, ?_⟩, ih (Or.inr ?_) hrest⟩
      · rw [hprevious, hhash]
      · rw [hprevious]
        exact hp
      · rw [hhash]
        exact hashText_hexDigest _

/-! ## One block -/

/-- A text that ends in the blank of a heading does not end in a hash. -/
theorem heading_ne_hash {q : Bytes} (hq : HashText q) (z t : Bytes) :
    z ++ ascii "\nPrevious Hash: " ≠ t ++ q := by
  have hne := hq.ne_nil
  intro h
  have hends := congrArg List.getLast? h
  rw [List.getLast?_append_of_ne_nil _ (by decide), List.getLast?_append_of_ne_nil _ hne,
    List.getLast?_eq_some_getLast hne] at hends
  have hdigit := hq.digits _ (List.getLast_mem hne)
  rw [← Option.some.inj hends] at hdigit
  exact absurd hdigit (by decide)

/-- So the last character tells whether there is a previous hash. -/
theorem previous_inj {y y' p p' : Bytes} (hp : PreviousText p) (hp' : PreviousText p')
    (heq : y ++ ascii "\nPrevious Hash: " ++ p = y' ++ ascii "\nPrevious Hash: " ++ p') :
    y = y' ∧ p = p' := by
  rcases hp with rfl | hp
  · rcases hp' with rfl | hp'
    · rw [List.append_nil, List.append_nil] at heq
      exact ⟨List.append_cancel_right heq, rfl⟩
    · rw [List.append_nil] at heq
      exact absurd heq (heading_ne_hash hp' y _)
  · rcases hp' with rfl | hp'
    · rw [List.append_nil] at heq
      exact absurd heq.symm (heading_ne_hash hp y' _)
    · obtain ⟨hfront, hhash⟩ :=
        List.append_inj' heq (hp.length_eq.trans hp'.length_eq.symm)
      exact ⟨List.append_cancel_right hfront, hhash⟩

/-- The end of a text shows the last hash and previous hash, and what stands
before them. -/
theorem entry_inj {x x' : Bytes} {b b' : Block} (hb : SelfHashed sha256 b)
    (hb' : SelfHashed sha256 b') (heq : x ++ entry b = x' ++ entry b') :
    x ++ ascii "Data: " ++ b.data.str = x' ++ ascii "Data: " ++ b'.data.str ∧
      b.hash.str = b'.hash.str ∧ b.previousHash.str = b'.previousHash.str := by
  have hwidth : b.hash.str.length = b'.hash.str.length := by
    rw [hb.hash_eq, hb'.hash_eq, link_length, link_length]
  simp only [entry, ← List.append_assoc] at heq
  have hend := List.append_cancel_right heq
  obtain ⟨hhashes, hprevious⟩ := previous_inj hb.previousText hb'.previousText hend
  obtain ⟨hfront, hhash⟩ := List.append_inj' hhashes hwidth
  exact ⟨List.append_cancel_right hfront, hhash, hprevious⟩

/-! ## All blocks -/

theorem entry_ne_nil (b : Block) : entry b ≠ [] := by
  intro hnil
  have hlength := entry_length b
  rw [hnil, List.length_nil] at hlength
  omega

theorem render_concat (front : List Block) (b : Block) :
    render (front ++ [b]) = render front ++ entry b := by
  rw [render, List.map_append, List.flatten_append, List.map_singleton, List.flatten_singleton]
  rfl

/-- **The text determines the blocks**, as long as their hashes tell apart what
was hashed for them. -/
theorem render_injective {left right : List Block} (hleft : ∀ b ∈ left, SelfHashed sha256 b)
    (hright : ∀ b ∈ right, SelfHashed sha256 b)
    (hinj : ∀ b ∈ left, ∀ b' ∈ right,
      sha256 (b.data.str ++ b.previousHash.str) = sha256 (b'.data.str ++ b'.previousHash.str) →
        b.data.str ++ b.previousHash.str = b'.data.str ++ b'.previousHash.str)
    (heq : render left = render right) : left.map fields = right.map fields := by
  induction left using List.reverseRecOn generalizing right with
  | nil =>
      cases right with
      | nil => rfl
      | cons b rest =>
          rw [render_nil, render_cons] at heq
          exact absurd (List.append_eq_nil_iff.mp heq.symm).1 (entry_ne_nil b)
  | append_singleton left b ih =>
      rcases List.eq_nil_or_concat' right with rfl | ⟨right, b', rfl⟩
      · rw [render_nil, render_concat] at heq
        exact absurd (List.append_eq_nil_iff.mp heq).2 (entry_ne_nil b)
      · rw [render_concat, render_concat] at heq
        have hmem : b ∈ left ++ [b] := List.mem_append_right _ List.mem_cons_self
        have hmem' : b' ∈ right ++ [b'] := List.mem_append_right _ List.mem_cons_self
        obtain ⟨hfront, hhash, hprevious⟩ :=
          entry_inj sha256 (hleft b hmem) (hright b' hmem') heq
        -- equal hashes: the same string was hashed, and its end is known
        have hdigest : sha256 (b.data.str ++ b.previousHash.str) =
            sha256 (b'.data.str ++ b'.previousHash.str) := by
          refine hexDigest_injective ?_
          exact (hleft b hmem).hash_eq.symm.trans (hhash.trans (hright b' hmem').hash_eq)
        have hdata : b.data.str = b'.data.str := by
          have hstring := hinj b hmem b' hmem' hdigest
          rw [hprevious] at hstring
          exact List.append_cancel_right hstring
        have hrest : render left = render right := by
          rw [hdata] at hfront
          exact List.append_cancel_right (List.append_cancel_right hfront)
        have hfields : fields b = fields b' := by
          rw [fields, fields, hdata, hhash, hprevious]
        rw [List.map_append, List.map_append, List.map_singleton, List.map_singleton, hfields,
          ih (fun c hc => hleft c (List.mem_append_left _ hc))
            (fun c hc => hright c (List.mem_append_left _ hc))
            (fun c hc c' hc' => hinj c (List.mem_append_left _ hc) c'
              (List.mem_append_left _ hc')) hrest]

/-- What was hashed for a block of an accepted chain is among the strings of its
validation. -/
theorem mem_hashed_of_accepted {p : Bytes} (hnul : (0 : UInt8) ∉ p) (hlength : p.length ≤ 64)
    {chain : List Block} (hvalid : (check sha256 p chain).valid = true) :
    ∀ b ∈ (check sha256 p chain).blocks,
      b.data.str ++ b.previousHash.str ∈ (check sha256 p chain).hashed := by
  induction chain generalizing p with
  | nil => exact fun b hb => absurd hb List.not_mem_nil
  | cons block rest ih =>
      obtain ⟨_, hrest, hcheck⟩ := check_cons_of_valid sha256 hvalid
      rw [hcheck]
      refine List.forall_mem_cons.mpr ⟨?_, fun b hb => ?_⟩
      · rw [previousHash_relink hnul hlength]
        exact List.mem_cons_self
      · exact List.mem_cons_of_mem _ (ih block.hash.nul_not_mem_str
          (Nat.le_of_lt_succ block.hash.str_length_lt) hrest b hb)

/-! ## Replies -/

/-- The full text of the chain, as the validation leaves it, fits the response
buffer. -/
def FitsResponse (chain : List Block) : Prop :=
  (render (retrieveData sha256 chain).blocks).length ≤ 25599

/-- Every block names the hash of the one before it; the first one names `p`. -/
def NamesPredecessor : Bytes → List Block → Prop
  | _, [] => True
  | p, block :: rest => block.previousHash.str = p ∧ NamesPredecessor block.hash.str rest

/-- A validation that accepts the chain changes no string of it exactly if every
block names its predecessor. -/
theorem check_blocks_fields_iff {p : Bytes} (hnul : (0 : UInt8) ∉ p) (hlength : p.length ≤ 64)
    {chain : List Block} (hvalid : (check sha256 p chain).valid = true) :
    (check sha256 p chain).blocks.map fields = chain.map fields ↔ NamesPredecessor p chain := by
  induction chain generalizing p with
  | nil => exact iff_of_true rfl trivial
  | cons block rest ih =>
      obtain ⟨_, hrest, hcheck⟩ := check_cons_of_valid sha256 hvalid
      have hfirst : fields (relink p block) = fields block ↔ block.previousHash.str = p := by
        rw [fields, fields, previousHash_relink hnul hlength]
        simp only [relink, Prod.mk.injEq, true_and]
        exact eq_comm
      rw [hcheck, List.map_cons, List.map_cons, List.cons.injEq, hfirst,
        ih block.hash.nul_not_mem_str (Nat.le_of_lt_succ block.hash.str_length_lt) hrest]
      rfl

theorem retrieveData_blocks_fields_iff {chain : List Block}
    (hvalid : (validateBlockchain sha256 chain).valid = true) :
    (retrieveData sha256 chain).blocks.map fields = chain.map fields ↔
      NamesPredecessor [] chain := by
  change (validateBlockchain sha256 chain).blocks.map fields = _ ↔ _
  rw [validateBlockchain_eq_check] at hvalid ⊢
  exact check_blocks_fields_iff sha256 List.not_mem_nil (Nat.zero_le _) hvalid

/-- Data and hash are among the three strings. -/
theorem view_eq_of_fields {left right : List Block} (h : left.map fields = right.map fields) :
    left.map view = right.map view := by
  have hviews := congrArg (List.map fun f : Bytes × Bytes × Bytes => (f.1, f.2.1)) h
  rw [List.map_map, List.map_map] at hviews
  exact hviews

/-- **The text determines the chains as the validation leaves them.**  If no two
different strings hashed while the two chains are validated have the same digest,
two accepted chains whose full texts fit the response buffer and that get the same
reply are left with the same blocks. -/
theorem retrieveData_blocks_fields {left right : List Block} (hleft : left ≠ [])
    (hright : right ≠ [])
    (hfree : CollisionFreeOn sha256
      ((validateBlockchain sha256 left).hashed ++ (validateBlockchain sha256 right).hashed))
    (hvalid : (validateBlockchain sha256 left).valid = true)
    (hvalid' : (validateBlockchain sha256 right).valid = true)
    (hfits : FitsResponse sha256 left) (hfits' : FitsResponse sha256 right)
    (htext : (retrieveData sha256 left).response = (retrieveData sha256 right).response) :
    (retrieveData sha256 left).blocks.map fields =
      (retrieveData sha256 right).blocks.map fields := by
  have hfirst : PreviousText [] := Or.inl rfl
  have hhashed : ∀ {chain : List Block}, (validateBlockchain sha256 chain).valid = true →
      ∀ b ∈ (retrieveData sha256 chain).blocks,
        b.data.str ++ b.previousHash.str ∈ (validateBlockchain sha256 chain).hashed := by
    intro chain haccepted
    change ∀ b ∈ (validateBlockchain sha256 chain).blocks, _
    rw [validateBlockchain_eq_check] at haccepted ⊢
    exact mem_hashed_of_accepted sha256 List.not_mem_nil (Nat.zero_le _) haccepted
  have hrender : render (retrieveData sha256 left).blocks =
      render (retrieveData sha256 right).blocks := by
    have hwhole := (listsWholeChain_of_accepted sha256 hleft hvalid).mpr hfits
    have hwhole' := (listsWholeChain_of_accepted sha256 hright hvalid').mpr hfits'
    exact hwhole.symm.trans (htext.trans hwhole')
  refine render_injective sha256
    (selfHashed_of_linked sha256 hfirst (linked_of_accepted sha256 hvalid))
    (selfHashed_of_linked sha256 hfirst (linked_of_accepted sha256 hvalid')) ?_ hrender
  intro b hb b' hb'
  exact hfree _ (List.mem_append_left _ (hhashed hvalid b hb)) _
    (List.mem_append_right _ (hhashed hvalid' b' hb'))

/-- **The `RETRIEVE` text determines data and hashes, and the previous hashes of
chains whose blocks name their predecessors.**  The text is made after the
validation has rewritten the previous hashes, so it cannot tell such a chain from
one in which some block names something else. -/
theorem retrieve_text_determines_chain {left right : List Block} (hleft : left ≠ [])
    (hright : right ≠ [])
    (hfree : CollisionFreeOn sha256
      ((validateBlockchain sha256 left).hashed ++ (validateBlockchain sha256 right).hashed))
    (hvalid : (validateBlockchain sha256 left).valid = true)
    (hvalid' : (validateBlockchain sha256 right).valid = true)
    (hfits : FitsResponse sha256 left) (hfits' : FitsResponse sha256 right)
    (htext : (retrieveData sha256 left).response = (retrieveData sha256 right).response) :
    left.map view = right.map view ∧
      (NamesPredecessor [] right →
        (left.map fields = right.map fields ↔ NamesPredecessor [] left)) := by
  have hblocks :=
    retrieveData_blocks_fields sha256 hleft hright hfree hvalid hvalid' hfits hfits' htext
  refine ⟨?_, fun hnames => ?_⟩
  · have hviews := view_eq_of_fields hblocks
    rwa [retrieveData_blocks_view, retrieveData_blocks_view] at hviews
  · rw [← (retrieveData_blocks_fields_iff sha256 hvalid').mpr hnames, ← hblocks, eq_comm]
    exact retrieveData_blocks_fields_iff sha256 hvalid

/-- Conversely the reply depends on data and hashes alone. -/
theorem check_blocks_fields_of_view {p : Bytes} {left right : List Block}
    (hview : left.map view = right.map view) (hvalid : (check sha256 p left).valid = true) :
    (check sha256 p left).blocks.map fields = (check sha256 p right).blocks.map fields := by
  induction left generalizing p right with
  | nil =>
      rw [List.map_nil] at hview
      rw [List.map_eq_nil_iff.mp hview.symm]
  | cons b left ih =>
      cases right with
      | nil => exact absurd hview (List.cons_ne_nil _ _)
      | cons b' right =>
          rw [List.map_cons, List.map_cons, List.cons.injEq] at hview
          obtain ⟨hdata, hhash⟩ := Prod.mk.inj hview.1
          have hfields : fields (relink p b) = fields (relink p b') := by
            simp only [fields, relink, hdata, hhash]
          rw [check] at hvalid
          split at hvalid
          · rename_i hlink
            have hlink' : b'.hash.str = link sha256 b'.data.str p := by
              rw [← hhash, ← hdata, hlink]
            rw [check, check, if_pos hlink, if_pos hlink', List.map_cons, List.map_cons, hfields,
              ← hhash, ih hview.2 hvalid]
          · simp at hvalid

theorem retrieveData_fields_of_view {left right : List Block}
    (hview : left.map view = right.map view)
    (hvalid : (validateBlockchain sha256 left).valid = true) :
    (retrieveData sha256 left).blocks.map fields =
      (retrieveData sha256 right).blocks.map fields := by
  change (validateBlockchain sha256 left).blocks.map fields =
    (validateBlockchain sha256 right).blocks.map fields
  rw [validateBlockchain_eq_check] at hvalid ⊢
  rw [validateBlockchain_eq_check]
  exact check_blocks_fields_of_view sha256 hview hvalid

theorem render_eq_of_fields {left right : List Block} (h : left.map fields = right.map fields) :
    render left = render right := by
  let text : Bytes × Bytes × Bytes → Bytes := fun f =>
    ascii "Data: " ++ f.1 ++ ascii "\nHash: " ++ f.2.1 ++ ascii "\nPrevious Hash: " ++ f.2.2 ++
      ascii "\n\n"
  have htexts := congrArg (List.map text) h
  rw [List.map_map, List.map_map] at htexts
  exact congrArg List.flatten htexts

theorem retrieveData_response_of_view {left right : List Block}
    (hview : left.map view = right.map view)
    (hvalid : (validateBlockchain sha256 left).valid = true) :
    (retrieveData sha256 left).response = (retrieveData sha256 right).response := by
  have hvalid' : (validateBlockchain sha256 right).valid = true := by
    rw [accepted_iff_sealed] at hvalid ⊢
    rwa [← hview]
  cases left with
  | nil =>
      rw [List.map_nil] at hview
      rw [List.map_eq_nil_iff.mp hview.symm]
  | cons b left =>
      have hright : right ≠ [] := by
        intro hnil
        rw [hnil] at hview
        exact absurd hview (List.cons_ne_nil _ _)
      have hblocks := retrieveData_fields_of_view sha256 hview hvalid
      rw [retrieveData_response_of_accepted sha256 hvalid,
        retrieveData_response_of_accepted sha256 hvalid',
        contents_of_ne_nil (retrieveData_blocks_ne_nil sha256 (List.cons_ne_nil b left)),
        contents_of_ne_nil (retrieveData_blocks_ne_nil sha256 hright), render_eq_of_fields hblocks]

theorem twoBlocks_fits (junk : UInt8) : FitsResponse Sha256.sha256 (twoBlocks junk) := by
  have hlength := congrArg List.length (retrieveData_blocks_view Sha256.sha256 (twoBlocks junk))
  rw [List.length_map, List.length_map] at hlength
  have hbound := render_length_le (retrieveData Sha256.sha256 (twoBlocks junk)).blocks
  rw [hlength, show (twoBlocks junk).length = 2 from rfl] at hbound
  exact Nat.le_trans hbound (by decide)

/-- The theorem at two chains that differ behind the terminators of their data. -/
theorem retrieve_text_determines_chain_twoBlocks :
    (twoBlocks 1).map view = (twoBlocks 2).map view ∧
      (NamesPredecessor [] (twoBlocks 2) →
        ((twoBlocks 1).map fields = (twoBlocks 2).map fields ↔
          NamesPredecessor [] (twoBlocks 1))) :=
  retrieve_text_determines_chain Sha256.sha256 (List.cons_ne_nil _ _) (List.cons_ne_nil _ _)
    twoBlocks_collisionFree (twoBlocks_valid 1) (twoBlocks_valid 2) (twoBlocks_fits 1)
    (twoBlocks_fits 2)
    (retrieveData_response_of_view Sha256.sha256
      ((twoBlocks_view 1).trans (twoBlocks_view 2).symm) (twoBlocks_valid 1))

theorem tamperedChain_view : tamperedChain.map view = (twoBlocks 1).map view := by
  rw [twoBlocks_view]
  simp only [tamperedChain, List.map_cons, List.map_nil, view, str_ofStr_link]
  rfl

/-- The chain of `a` and `b` and the one whose second previous hash is `x`: the
same strings are hashed for both and the same text is shown, but the previous
hashes differ. -/
theorem tamperedChain_text :
    tamperedChain ≠ [] ∧ twoBlocks 1 ≠ [] ∧
      CollisionFreeOn Sha256.sha256
        ((validateBlockchain Sha256.sha256 tamperedChain).hashed ++
          (validateBlockchain Sha256.sha256 (twoBlocks 1)).hashed) ∧
      (validateBlockchain Sha256.sha256 tamperedChain).valid = true ∧
      (validateBlockchain Sha256.sha256 (twoBlocks 1)).valid = true ∧
      FitsResponse Sha256.sha256 tamperedChain ∧ FitsResponse Sha256.sha256 (twoBlocks 1) ∧
      (retrieveData Sha256.sha256 tamperedChain).response =
        (retrieveData Sha256.sha256 (twoBlocks 1)).response ∧
      tamperedChain.map fields ≠ (twoBlocks 1).map fields := by
  have hblocks := retrieveData_fields_of_view Sha256.sha256 tamperedChain_view tamperedChain_valid
  have hfits : FitsResponse Sha256.sha256 tamperedChain := by
    rw [FitsResponse, render_eq_of_fields hblocks]
    exact twoBlocks_fits 1
  refine ⟨List.cons_ne_nil _ _, List.cons_ne_nil _ _, ?_, tamperedChain_valid, twoBlocks_valid 1,
    hfits, twoBlocks_fits 1,
    retrieveData_response_of_view Sha256.sha256 tamperedChain_view tamperedChain_valid, ?_⟩
  · have hhashed : (validateBlockchain Sha256.sha256 tamperedChain).hashed =
        (validateBlockchain Sha256.sha256 (twoBlocks 2)).hashed := by
      rw [hashed_of_accepted Sha256.sha256 tamperedChain_valid, tamperedChain_view,
        twoBlocks_hashed, twoBlocks_view]
      rfl
    rw [hhashed]
    exact twoBlocks_collisionFree.mono (List.append_subset.mpr
      ⟨List.subset_append_right _ _, List.subset_append_left _ _⟩)
  · intro hfields
    have hsecond := congrArg (fun l => l[1]?.map fun f : Bytes × Bytes × Bytes => f.2.2) hfields
    simp only [tamperedChain, twoBlocks, List.map_cons, List.getElem?_cons_succ,
      List.getElem?_cons_zero, Option.map_some, fields, str_ofStr_link] at hsecond
    have hlength := congrArg List.length (Option.some.inj hsecond)
    rw [link_length] at hlength
    exact absurd hlength (by decide)

end ShardedLedger.Server
