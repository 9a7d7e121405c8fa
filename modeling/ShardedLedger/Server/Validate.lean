import ShardedLedger.Foundation.HashChain
import ShardedLedger.Server.Block
set_option autoImplicit false

/-!
# Server: what `validate_blockchain` checks and what it overwrites

`validate_blockchain` calls `compute_hash` on every block it visits, and
`compute_hash` writes the block's `previous_hash` before anything compares it.
`check` is the loop with that write spelled out; `validateLoop_eq_check` shows
that the source's second comparison can never fail.

From `check` follow the two facts everything else in this directory rests on:
the verdict is the sealedness of the (data, hash) pairs (`check_valid_iff`), and
the call leaves the chain as it was exactly when the blocks it visits already
hold what it writes (`check_blocks_eq_iff`).
-/

namespace ShardedLedger.Server

open CString Sha256

/-- The part of a block that its hash commits to, and the hash. -/
def view (b : Block) : Bytes × Bytes := (b.data.str, b.hash.str)

/-- The stored hash of the block directly before position `i`; empty for the
first block. -/
def predecessorHash (chain : List Block) : Nat → Bytes
  | 0 => []
  | i + 1 => (chain[i]?.map fun b => b.hash.str).getD []

variable (sha256 : Bytes → Digest)

/-- Every block's hash is the digest of its data followed by its predecessor's
hash, and every later block names that hash as its previous one. -/
structure ChainIntact (chain : List Block) : Prop where
  hash_eq : ∀ i (h : i < chain.length),
    chain[i].hash.str = hexDigest (sha256 (chain[i].data.str ++ predecessorHash chain i))
  previousHash_eq : ∀ i (h : i < chain.length), 0 < i →
    chain[i].previousHash.str = predecessorHash chain i

/-- The block after `compute_hash` wrote the hash `p` into it. -/
def relink (p : Bytes) (b : Block) : Block := { b with previousHash := CharBuf.ofStr 64 p }

@[simp] theorem view_relink (p : Bytes) (b : Block) : view (relink p b) = view b := rfl

/-- The validation loop over strings: each visited block is rewritten, and the
loop goes on while the hashes are right. -/
def check : Bytes → List Block → Validation
  | _, [] => ⟨true, [], []⟩
  | p, block :: rest =>
      if block.hash.str = link sha256 block.data.str p then
        let next := check block.hash.str rest
        ⟨next.valid, relink p block :: next.blocks, (block.data.str ++ p) :: next.hashed⟩
      else ⟨false, relink p block :: rest, [block.data.str ++ p]⟩

/-- The source's loop is `check`: its comparison of `previous_hash` reads what
the call before it wrote, so it never fails. -/
theorem validateLoop_eq_check (isHead : Bool) (expected : CharBuf hashSize) (chain : List Block) :
    validateLoop sha256 isHead expected chain = check sha256 expected.str chain := by
  induction chain generalizing isHead expected with
  | nil => rfl
  | cons block rest ih =>
      have hwritten : (copyTerminated block.previousHash.toBuf expected.str).str = expected.str := by
        rw [str_copyTerminated, CharBuf.cstr_str, CharBuf.take_str]
      have hnext : (copyTerminated expected.toBuf block.hash.str).str = block.hash.str := by
        rw [str_copyTerminated, CharBuf.cstr_str, CharBuf.take_str]
      have hsecond : strncmp (hashSize - 1)
          (computeHash sha256 block.data block.previousHash.toBuf expected).blockPreviousHash.bytes
          expected.bytes = 0 := (strncmp_hash_eq_zero_iff _ _).mpr hwritten
      have hrelink : ({ block with previousHash := (computeHash sha256 block.data
          block.previousHash.toBuf expected).blockPreviousHash } : Block) =
          relink expected.str block := by
        rw [computeHash_blockPreviousHash, relink]
      by_cases hhash : block.hash.str = link sha256 block.data.str expected.str
      · have hfirst : strncmp (hashSize - 1) block.hash.bytes
            (computeHash sha256 block.data block.previousHash.toBuf expected).outputHash.bytes = 0 :=
          (strncmp_hash_eq_zero_iff _ _).mpr (by rw [computeHash_outputHash]; exact hhash)
        rw [check, if_pos hhash]
        simp only [validateLoop, hfirst, hsecond, ih, hnext, hrelink, computeHash_hashed]
        simp
      · have hfirst : strncmp (hashSize - 1) block.hash.bytes
            (computeHash sha256 block.data block.previousHash.toBuf expected).outputHash.bytes ≠ 0 := by
          rw [Ne, strncmp_hash_eq_zero_iff, computeHash_outputHash]
          exact hhash
        simp only [validateLoop, hfirst, ne_eq, not_false_eq_true, if_true, hrelink,
          computeHash_hashed, check, hhash, if_false]

theorem validateBlockchain_eq_check (chain : List Block) :
    validateBlockchain sha256 chain = check sha256 [] chain := by
  rw [validateBlockchain, validateLoop_eq_check, emptyHash_str]

/-! ## The verdict -/

theorem check_valid_iff (p : Bytes) (chain : List Block) :
    (check sha256 p chain).valid = true ↔
      HashChain.Sealed (link sha256) p (chain.map view) := by
  induction chain generalizing p with
  | nil => simp [check]
  | cons block rest ih =>
      rw [List.map_cons, HashChain.sealed_cons, check]
      split
      · rename_i hhash
        exact ⟨fun h => ⟨hhash, (ih _).mp h⟩, fun h => (ih _).mpr h.2⟩
      · rename_i hhash
        exact ⟨fun h => by simp at h, fun h => absurd h.1 hhash⟩

theorem accepted_iff_sealed (chain : List Block) :
    (validateBlockchain sha256 chain).valid = true ↔
      HashChain.Sealed (link sha256) [] (chain.map view) := by
  rw [validateBlockchain_eq_check, check_valid_iff]

/-- What a check that accepts does with its first block. -/
theorem check_cons_of_valid {p : Bytes} {block : Block} {rest : List Block}
    (hvalid : (check sha256 p (block :: rest)).valid = true) :
    block.hash.str = link sha256 block.data.str p ∧
      (check sha256 block.hash.str rest).valid = true ∧
      check sha256 p (block :: rest) =
        ⟨true, relink p block :: (check sha256 block.hash.str rest).blocks,
          (block.data.str ++ p) :: (check sha256 block.hash.str rest).hashed⟩ := by
  rw [check] at hvalid ⊢
  split at hvalid
  · rename_i hhash
    rw [if_pos hhash]
    exact ⟨hhash, hvalid, congrArg (fun valid => (⟨valid, _, _⟩ : Validation)) hvalid⟩
  · exact absurd hvalid Bool.false_ne_true

theorem predecessorHash_eq (chain : List Block) (i : Nat) :
    predecessorHash chain i = HashChain.predecessor [] (chain.map view) i := by
  cases i with
  | zero => rfl
  | succ i => simp [predecessorHash, HashChain.predecessor, view, Function.comp_def]

/-- The call returns 1 exactly when every block's hash is right for its data and
its predecessor's stored hash; no `previous_hash` has a part in it. -/
theorem validateBlockchain_valid_iff (chain : List Block) :
    (validateBlockchain sha256 chain).valid = true ↔
      ∀ i (h : i < chain.length),
        chain[i].hash.str = hexDigest (sha256 (chain[i].data.str ++ predecessorHash chain i)) := by
  rw [accepted_iff_sealed, HashChain.sealed_iff_getElem]
  simp only [List.length_map, List.getElem_map, predecessorHash_eq]
  rfl

/-! ## The write -/

/-- Every block that the loop visits from the predecessor hash `p` on already
holds, byte for byte, what `compute_hash` writes into it. -/
def Settled : Bytes → List Block → Prop
  | _, [] => True
  | p, block :: rest =>
      block.previousHash = CharBuf.ofStr 64 p ∧
        (block.hash.str = link sha256 block.data.str p → Settled block.hash.str rest)

/-- The same, position by position: a block is visited when all blocks before
it have the right hash. -/
def VisitedSettled (chain : List Block) : Prop :=
  ∀ i (h : i < chain.length),
    (∀ j (hj : j < i), chain[j].hash.str =
      hexDigest (sha256 (chain[j].data.str ++ predecessorHash chain j))) →
    chain[i].previousHash = CharBuf.ofStr 64 (predecessorHash chain i)

theorem relink_eq_self_iff (p : Bytes) (b : Block) :
    relink p b = b ↔ b.previousHash = CharBuf.ofStr 64 p := by
  cases b with
  | mk data hash previousHash => simp [relink, eq_comm]

/-- The loop changes nothing exactly when the visited blocks are settled. -/
theorem check_blocks_eq_iff (p : Bytes) (chain : List Block) :
    (check sha256 p chain).blocks = chain ↔ Settled sha256 p chain := by
  induction chain generalizing p with
  | nil => simp [check, Settled]
  | cons block rest ih =>
      rw [check, Settled]
      split
      · rename_i hhash
        simp only [List.cons.injEq, relink_eq_self_iff, ih]
        exact ⟨fun h => ⟨h.1, fun _ => h.2⟩, fun h => ⟨h.1, h.2 hhash⟩⟩
      · rename_i hhash
        simp only [List.cons.injEq, relink_eq_self_iff, and_true]
        exact ⟨fun h => ⟨h, fun h' => absurd h' hhash⟩, fun h => h.1⟩

/-- After a run of the loop the visited blocks are settled. -/
theorem settled_check (p : Bytes) (chain : List Block) :
    Settled sha256 p (check sha256 p chain).blocks := by
  induction chain generalizing p with
  | nil => trivial
  | cons block rest ih =>
      rw [check]
      split
      · exact ⟨rfl, fun _ => ih _⟩
      · rename_i hhash
        exact ⟨rfl, fun h => absurd h hhash⟩

/-- Data and hashes survive the loop, whatever the verdict. -/
theorem check_blocks_view (p : Bytes) (chain : List Block) :
    (check sha256 p chain).blocks.map view = chain.map view := by
  induction chain generalizing p with
  | nil => rfl
  | cons block rest ih =>
      rw [check]
      split
      · simp [ih]
      · simp

theorem settled_iff_getElem (p : Bytes) (chain : List Block) :
    Settled sha256 p chain ↔
      ∀ i (h : i < chain.length),
        (∀ j (hj : j < i), chain[j].hash.str = link sha256 chain[j].data.str
          (HashChain.predecessor p (chain.map view) j)) →
        chain[i].previousHash =
          CharBuf.ofStr 64 (HashChain.predecessor p (chain.map view) i) := by
  induction chain generalizing p with
  | nil => simp [Settled]
  | cons block rest ih =>
      have hpred : ∀ i, i < rest.length →
          HashChain.predecessor p ((block :: rest).map view) (i + 1) =
            HashChain.predecessor block.hash.str (rest.map view) i := by
        intro i hi
        exact HashChain.predecessor_cons_succ p (view block) (rest.map view) (by simpa using hi)
      rw [Settled, ih]
      constructor
      · rintro ⟨hhead, htail⟩ i hi hbefore
        cases i with
        | zero => exact hhead
        | succ i =>
            have hi' : i < rest.length := by simpa using hi
            rw [hpred i hi']
            refine htail (hbefore 0 (by omega)) i hi' ?_
            intro j hj
            have := hbefore (j + 1) (by omega)
            rw [hpred j (by omega)] at this
            exact this
      · intro hall
        refine ⟨hall 0 (by simp) (by simp), ?_⟩
        intro hhead i hi hbefore
        have := hall (i + 1) (by simpa using hi) ?_
        · rw [hpred i hi] at this
          exact this
        · intro j hj
          cases j with
          | zero => exact hhead
          | succ j =>
              rw [hpred j (by omega)]
              exact hbefore j (by omega)

theorem settled_nil_iff (chain : List Block) :
    Settled sha256 [] chain ↔ VisitedSettled sha256 chain := by
  simp only [settled_iff_getElem, VisitedSettled, predecessorHash_eq, link]

theorem validateBlockchain_blocks_eq_iff (chain : List Block) :
    (validateBlockchain sha256 chain).blocks = chain ↔ VisitedSettled sha256 chain := by
  rw [validateBlockchain_eq_check, check_blocks_eq_iff, settled_nil_iff]

/-- In a settled chain an accepted block names its predecessor's hash, so the
hashes decide about the whole chain. -/
theorem chainIntact_of_settled {chain : List Block} (hsettled : VisitedSettled sha256 chain)
    (hvalid : (validateBlockchain sha256 chain).valid = true) : ChainIntact sha256 chain := by
  have hhash := (validateBlockchain_valid_iff sha256 chain).mp hvalid
  refine ⟨hhash, ?_⟩
  intro i hi hpos
  rw [hsettled i hi (fun j hj => hhash j (by omega)), CharBuf.str_ofStr]
  obtain ⟨k, rfl⟩ := Nat.exists_eq_succ_of_ne_zero (Nat.pos_iff_ne_zero.mp hpos)
  have hk : k < chain.length := by omega
  simp only [predecessorHash, List.getElem?_eq_getElem hk, Option.map_some, Option.getD_some]
  rw [CharBuf.cstr_str, CharBuf.take_str]

/-! ## Validation as a check -/

/-- Validation tells intact chains from others, and only reads. -/
def ValidatesExactly (chain : List Block) : Prop :=
  ((validateBlockchain sha256 chain).valid = true ↔ ChainIntact sha256 chain) ∧
    (validateBlockchain sha256 chain).blocks = chain

/-- Validation is an exact and read-only check of precisely the chains whose
visited blocks already hold their predecessor's hash. -/
theorem validatesExactly_iff (chain : List Block) :
    ValidatesExactly sha256 chain ↔ VisitedSettled sha256 chain := by
  constructor
  · intro h
    exact (validateBlockchain_blocks_eq_iff sha256 chain).mp h.2
  · intro hsettled
    refine ⟨⟨chainIntact_of_settled sha256 hsettled, fun hintact => ?_⟩,
      (validateBlockchain_blocks_eq_iff sha256 chain).mpr hsettled⟩
    exact (validateBlockchain_valid_iff sha256 chain).mpr hintact.hash_eq

/-- The chain of the payloads `a` and `b`, with the second block's
`previous_hash` overwritten by `x`. -/
def tamperedChain : List Block :=
  let first := link Sha256.sha256 (ascii "a") []
  [ { data := CharBuf.ofStr 255 (ascii "a")
      hash := CharBuf.ofStr 64 first
      previousHash := emptyHash },
    { data := CharBuf.ofStr 255 (ascii "b")
      hash := CharBuf.ofStr 64 (link Sha256.sha256 (ascii "b") first)
      previousHash := CharBuf.ofStr 64 (ascii "x") } ]

theorem tamperedChain_valid :
    (validateBlockchain Sha256.sha256 tamperedChain).valid = true := by
  have hview : tamperedChain.map view =
      [((CharBuf.ofStr 255 (ascii "a")).str, link Sha256.sha256 (ascii "a") []),
        ((CharBuf.ofStr 255 (ascii "b")).str,
          link Sha256.sha256 (ascii "b") (link Sha256.sha256 (ascii "a") []))] := by
    simp only [tamperedChain, List.map_cons, List.map_nil, view, str_ofStr_link]
  have ha : (CharBuf.ofStr 255 (ascii "a")).str = ascii "a" := by decide
  have hb : (CharBuf.ofStr 255 (ascii "b")).str = ascii "b" := by decide
  rw [accepted_iff_sealed, hview, ha, hb]
  simp only [HashChain.sealed_cons, HashChain.sealed_nil, and_self]

/-- The second block does not name the hash of the first. -/
theorem tamperedChain_unlinked (h : 1 < tamperedChain.length) :
    tamperedChain[1].previousHash.str ≠ predecessorHash tamperedChain 1 := by
  have hwritten : (CharBuf.ofStr 64 (ascii "x")).str = ascii "x" := by decide
  have hfirst : predecessorHash tamperedChain 1 = link Sha256.sha256 (ascii "a") [] := by
    simp only [predecessorHash, tamperedChain, List.getElem?_cons_zero, Option.map_some,
      Option.getD_some, str_ofStr_link]
  intro heq
  have hlength := congrArg List.length (hwritten.symm.trans (heq.trans hfirst))
  rw [link_length] at hlength
  exact absurd hlength (by decide)

/-- The tampered field is accepted, and put right by the check itself. -/
theorem tamperedChain_accepted_and_rewritten :
    ((validateBlockchain Sha256.sha256 tamperedChain).valid = true ∧
      ¬ ChainIntact Sha256.sha256 tamperedChain) ∧
    (validateBlockchain Sha256.sha256 tamperedChain).blocks ≠ tamperedChain := by
  have hvalid := tamperedChain_valid
  have hsecond : 1 < tamperedChain.length := Nat.lt_succ_self 1
  refine ⟨⟨hvalid, fun hintact => ?_⟩, fun hunchanged => ?_⟩
  · exact tamperedChain_unlinked hsecond (hintact.previousHash_eq 1 hsecond Nat.one_pos)
  · have hsettled := (validateBlockchain_blocks_eq_iff Sha256.sha256 tamperedChain).mp hunchanged
    have hintact := chainIntact_of_settled Sha256.sha256 hsettled hvalid
    exact tamperedChain_unlinked hsecond (hintact.previousHash_eq 1 hsecond Nat.one_pos)

end ShardedLedger.Server
