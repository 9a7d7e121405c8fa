import ShardedLedger.Server.Text
set_option autoImplicit false

/-!
# Server: what is hashed for a block

`compute_hash` hashes the data followed by the previous hash, with nothing
between them.  The string leaves open only whether there is a previous hash at
all: data that ends in a hash may be a first block's, or shorter data with that
previous hash (`append_eq_append_iff`).  So a first block may stand in for a
whole front of a chain, and it gives itself away by its data
(`shorter_chain_absorbs`).
-/

namespace ShardedLedger.Server

open CString Sha256

/-- The first pair has no previous hash, and its data is the data and the
previous hash of the second. -/
def Absorbs (data previousHash data' previousHash' : Bytes) : Prop :=
  previousHash = [] ∧ previousHash' ≠ [] ∧ data = data' ++ previousHash'

/-- The data ends in 64 hexadecimal digits. -/
def EndsInHash (data : Bytes) : Prop := ∃ q, HashText q ∧ q <:+ data

theorem Absorbs.endsInHash {d p d' p' : Bytes} (h : Absorbs d p d' p') (hp' : PreviousText p') :
    EndsInHash d := by
  rcases hp' with hempty | hhash
  · exact absurd hempty h.2.1
  · exact ⟨p', hhash, d', h.2.2.symm⟩

/-- Two pairs give one string exactly when they are equal or one absorbs the
other. -/
theorem append_eq_append_iff {d p d' p' : Bytes} (hp : PreviousText p) (hp' : PreviousText p') :
    d ++ p = d' ++ p' ↔ (d = d' ∧ p = p') ∨ Absorbs d p d' p' ∨ Absorbs d' p' d p := by
  constructor
  · intro heq
    rcases hp with rfl | hhash
    · rcases hp' with rfl | hhash'
      · rw [List.append_nil, List.append_nil] at heq
        exact Or.inl ⟨heq, rfl⟩
      · rw [List.append_nil] at heq
        exact Or.inr (Or.inl ⟨rfl, hhash'.ne_nil, heq⟩)
    · rcases hp' with rfl | hhash'
      · rw [List.append_nil] at heq
        exact Or.inr (Or.inr ⟨rfl, hhash.ne_nil, heq.symm⟩)
      · exact Or.inl (List.append_inj' heq (hhash.length_eq.trans hhash'.length_eq.symm))
  · rintro (⟨rfl, rfl⟩ | ⟨rfl, _, rfl⟩ | ⟨rfl, _, rfl⟩)
    · rfl
    · rw [List.append_nil]
    · rw [List.append_nil]

variable (sha256 : Bytes → Digest)

/-- A first block and a later one with the same hash: the first absorbs the
later one. -/
theorem absorbs_of_hash_eq {first later : Block} (hfirst : SelfHashed sha256 first)
    (hlater : SelfHashed sha256 later) (hempty : first.previousHash.str = [])
    (hhash : HashText later.previousHash.str)
    (hfree : CollisionFreeOn sha256 [first.data.str ++ first.previousHash.str,
      later.data.str ++ later.previousHash.str])
    (heq : first.hash.str = later.hash.str) :
    Absorbs first.data.str first.previousHash.str later.data.str later.previousHash.str := by
  have hdigest : sha256 (first.data.str ++ first.previousHash.str) =
      sha256 (later.data.str ++ later.previousHash.str) := by
    refine hexDigest_injective ?_
    exact hfirst.hash_eq.symm.trans (heq.trans hlater.hash_eq)
  have hstring := hfree _ List.mem_cons_self _ (List.mem_cons_of_mem _ List.mem_cons_self) hdigest
  rcases (append_eq_append_iff hfirst.previousText hlater.previousText).mp hstring with
    ⟨_, hprevious⟩ | habsorbs | habsorbs
  · exact absurd (hprevious.symm.trans hempty) hhash.ne_nil
  · exact habsorbs
  · exact absurd habsorbs.1 hhash.ne_nil

/-! ## Chains -/

/-- The tip of a sealed chain is the text of a hash. -/
theorem hashText_tip {p : Bytes} {chain : List (Bytes × Bytes)}
    (h : HashChain.Sealed (link sha256) p chain) (hne : chain ≠ []) :
    HashText (HashChain.tip p chain) := by
  induction chain generalizing p with
  | nil => exact absurd rfl hne
  | cons e rest ih =>
      rw [HashChain.tip]
      cases rest with
      | nil =>
          rw [HashChain.tip, h.1]
          exact hashText_hexDigest _
      | cons e' rest => exact ih h.2 (List.cons_ne_nil _ _)

/-- An accepted chain and a shorter one with the same tip: behind its first block
the shorter one is the end of the longer one, and its first block absorbs the
block in that place with the hash of the block before it. -/
theorem shorter_chain_absorbs {front back back' : List Block} {b c : Block}
    (hfree : CollisionFreeOn sha256
      ((validateBlockchain sha256 (front ++ b :: back)).hashed ++
        (validateBlockchain sha256 (c :: back')).hashed))
    (hleft : (validateBlockchain sha256 (front ++ b :: back)).valid = true)
    (hright : (validateBlockchain sha256 (c :: back')).valid = true)
    (hfront : front ≠ []) (hlength : back.length = back'.length)
    (htip : (front ++ b :: back).getLast?.map (fun b => b.hash.str) =
      (c :: back').getLast?.map fun b => b.hash.str) :
    back.map view = back'.map view ∧ b.hash.str = c.hash.str ∧
      Absorbs c.data.str [] b.data.str (HashChain.tip [] (front.map view)) := by
  have hinj := link_injective_of_accepted sha256 hfree hleft hright
  rw [hashed_of_accepted sha256 hleft, hashed_of_accepted sha256 hright] at hfree
  rw [accepted_iff_sealed] at hleft hright
  rw [← getLast?_view, ← getLast?_view] at htip
  rw [List.map_append, List.map_cons] at hleft hfree hinj htip
  rw [List.map_cons] at hright hfree hinj htip
  have hviews : (back.map view).length = (back'.map view).length := by
    rw [List.length_map, List.length_map, hlength]
  obtain ⟨hback, hhash, hlink⟩ := HashChain.back_of_tip_eq (link sha256)
    (fun p q => p.length = q.length) (fun d p d' p' => by rw [link_length, link_length])
    hleft hright hviews hinj htip
  have hsealed := ((HashChain.sealed_append _ _ _ _).mp hleft).1
  have hprevious : HashText (HashChain.tip [] (front.map view)) :=
    hashText_tip sha256 hsealed (by rwa [Ne, List.map_eq_nil_iff])
  -- both blocks have one hash, so one string was hashed for them
  have hstring : b.data.str ++ HashChain.tip [] (front.map view) = c.data.str ++ [] := by
    refine hfree _ (List.mem_append_left _ ?_) _ (List.mem_append_right _ List.mem_cons_self)
      (hexDigest_injective hlink)
    rw [HashChain.inputs_append, List.map_append]
    exact List.mem_append_right _ List.mem_cons_self
  rw [List.append_nil] at hstring
  exact ⟨hback, hhash, rfl, hprevious.ne_nil, hstring.symm⟩

/-- A longer list, cut where a shorter one of the same end would begin. -/
theorem exists_cut {α : Type*} {left back : List α} (h : back.length + 1 < left.length) :
    ∃ front b back', left = front ++ b :: back' ∧ front ≠ [] ∧ back'.length = back.length := by
  obtain ⟨b, back', hdrop⟩ : ∃ b back', left.drop (left.length - (back.length + 1)) =
      b :: back' := by
    refine List.exists_cons_of_ne_nil ?_
    rw [Ne, List.drop_eq_nil_iff]
    omega
  have hlength := congrArg List.length hdrop
  rw [List.length_drop, List.length_cons] at hlength
  refine ⟨left.take (left.length - (back.length + 1)), b, back', ?_, ?_, by omega⟩
  · rw [← hdrop, List.take_append_drop]
  · rw [Ne, List.take_eq_nil_iff, not_or]
    refine ⟨by omega, fun hnil => ?_⟩
    rw [hnil] at h
    exact absurd h (Nat.not_lt_zero _)

/-- No shorter chain takes the place of an accepted one, unless its first block
ends in a hash. -/
theorem tip_ne_of_shorter {left right : List Block}
    (hfree : CollisionFreeOn sha256
      ((validateBlockchain sha256 left).hashed ++ (validateBlockchain sha256 right).hashed))
    (hleft : (validateBlockchain sha256 left).valid = true)
    (hright : (validateBlockchain sha256 right).valid = true)
    (hshorter : right.length < left.length)
    (hfirst : ∀ c ∈ right.head?, ¬ EndsInHash c.data.str) :
    left.getLast?.map (fun b => b.hash.str) ≠ right.getLast?.map fun b => b.hash.str := by
  intro htip
  cases right with
  | nil =>
      rw [List.getLast?_nil, Option.map_none, Option.map_eq_none_iff,
        List.getLast?_eq_none_iff] at htip
      rw [htip] at hshorter
      exact absurd hshorter (Nat.not_lt_zero _)
  | cons c back' =>
      obtain ⟨front, b, back, rfl, hfront, hlength⟩ := exists_cut hshorter
      have habsorbs :=
        (shorter_chain_absorbs sha256 hfree hleft hright hfront hlength htip).2.2
      refine hfirst c rfl (habsorbs.endsInHash (Or.inr ?_))
      rw [accepted_iff_sealed, List.map_append] at hleft
      exact hashText_tip sha256 ((HashChain.sealed_append _ _ _ _).mp hleft).1
        (by rwa [Ne, List.map_eq_nil_iff])

/-! ## The encoding -/

/-- **What the hashed string tells.**  Two pairs of data and previous hash give
one string exactly when they are equal or the data of one, which has no previous
hash, is the data of the other followed by its previous hash.  So, without a
collision, a first block whose data does not end in a hash never has the hash of
a later block, and a chain that begins with such a block never has the tip of a
longer one. -/
theorem hashed_string_ambiguity :
    (∀ (data data' : CharBuf maxLine) (old old' : Buf hashSize)
        (previousHash previousHash' : CharBuf hashSize),
      PreviousText previousHash.str → PreviousText previousHash'.str →
      ((computeHash sha256 data old previousHash).hashed =
          (computeHash sha256 data' old' previousHash').hashed ↔
        (data.str = data'.str ∧ previousHash.str = previousHash'.str) ∨
          Absorbs data.str previousHash.str data'.str previousHash'.str ∨
          Absorbs data'.str previousHash'.str data.str previousHash.str)) ∧
    (∀ first later : Block, SelfHashed sha256 first → SelfHashed sha256 later →
      first.previousHash.str = [] → HashText later.previousHash.str →
      CollisionFreeOn sha256 [first.data.str ++ first.previousHash.str,
        later.data.str ++ later.previousHash.str] →
      ¬ EndsInHash first.data.str → first.hash.str ≠ later.hash.str) ∧
    (∀ left right : List Block,
      CollisionFreeOn sha256
        ((validateBlockchain sha256 left).hashed ++ (validateBlockchain sha256 right).hashed) →
      (validateBlockchain sha256 left).valid = true →
      (validateBlockchain sha256 right).valid = true →
      right.length < left.length → (∀ c ∈ right.head?, ¬ EndsInHash c.data.str) →
      left.getLast?.map (fun b => b.hash.str) ≠ right.getLast?.map fun b => b.hash.str) := by
  refine ⟨?_, ?_, fun left right => tip_ne_of_shorter sha256⟩
  · intro data data' old old' previousHash previousHash' hprevious hprevious'
    rw [computeHash_hashed, computeHash_hashed]
    exact append_eq_append_iff hprevious hprevious'
  · intro first later hfirst hlater hempty hhash hfree hdata heq
    have habsorbs := absorbs_of_hash_eq sha256 hfirst hlater hempty hhash hfree heq
    exact hdata (habsorbs.endsInHash hlater.previousText)

/-- The chain of the block `x` alone. -/
theorem oneBlock_hashed :
    (validateBlockchain Sha256.sha256 (linkedChain Sha256.sha256 [] [ascii "x"])).hashed =
      [ascii "x"] := by
  have haccepted := linkedChain_accepted Sha256.sha256 [ascii "x"]
  have hdata : (CharBuf.ofStr 255 (ascii "x")).str = ascii "x" := by decide
  rw [hashed_of_accepted Sha256.sha256 haccepted]
  simp only [linkedChain, List.map_cons, List.map_nil, HashChain.inputs, view, hdata,
    List.append_nil]

/-- The theorem at that chain and one of two blocks. -/
theorem hashed_string_ambiguity_oneBlock :
    (twoBlocks 0).getLast?.map (fun b => b.hash.str) ≠
      (linkedChain Sha256.sha256 [] [ascii "x"]).getLast?.map fun b => b.hash.str := by
  refine (hashed_string_ambiguity Sha256.sha256).2.2 _ _ ?_ (twoBlocks_valid 0) ?_
    (Nat.lt_succ_self 1) ?_
  · rw [twoBlocks_hashed, oneBlock_hashed]
    unfold CollisionFreeOn
    decide +kernel
  · exact linkedChain_accepted _ _
  · intro c hc hends
    obtain ⟨q, hq, hsuffix⟩ := hends
    have hdata : c.data.str = ascii "x" := by
      rw [linkedChain, List.head?_cons, Option.mem_some_iff] at hc
      rw [← hc]
      decide
    have hlength := hsuffix.length_le
    rw [hq.length_eq, hdata] at hlength
    exact absurd hlength (by decide)

/-- The chain of `d` and `e`, and that of one block with the data `e` followed by
the hash of the first: the same tip. -/
theorem linkedChain_absorbed {d e : Bytes} (hd : storedData d = d) (he : storedData e = e)
    (hjoined : storedData (e ++ link sha256 d []) = e ++ link sha256 d []) :
    (linkedChain sha256 [] [d, e]).getLast?.map (fun b => b.hash.str) =
      (linkedChain sha256 [] [e ++ link sha256 d []]).getLast?.map fun b => b.hash.str := by
  simp only [linkedChain, List.getLast?_cons_cons, List.getLast?_singleton, Option.map_some,
    str_ofStr_link, hd, he, hjoined]
  simp only [link, List.append_nil]

/-- The block `b` behind the block `a`, and the first block whose data is `b`
followed by the hash of `a`: the same string, and two accepted chains with one
tip. -/
theorem joined_block_ambiguous :
    let first := link Sha256.sha256 (ascii "a") []
    let joined := ascii "b" ++ first
    ((CharBuf.ofStr 255 joined).str ≠ (CharBuf.ofStr 255 (ascii "b")).str ∧
      PreviousText emptyHash.str ∧ PreviousText (CharBuf.ofStr 64 first).str ∧
      ∀ old : Buf hashSize,
        (computeHash Sha256.sha256 (CharBuf.ofStr 255 joined) old emptyHash).hashed =
          (computeHash Sha256.sha256 (CharBuf.ofStr 255 (ascii "b")) old
            (CharBuf.ofStr 64 first)).hashed) ∧
    (validateBlockchain Sha256.sha256
        (linkedChain Sha256.sha256 [] [ascii "a", ascii "b"])).valid = true ∧
    (validateBlockchain Sha256.sha256 (linkedChain Sha256.sha256 [] [joined])).valid = true ∧
    (linkedChain Sha256.sha256 [] [ascii "a", ascii "b"]).getLast?.map (fun b => b.hash.str) =
      (linkedChain Sha256.sha256 [] [joined]).getLast?.map fun b => b.hash.str := by
  intro first joined
  have hb : storedData (ascii "b") = ascii "b" := by decide
  have hlength : joined.length = 65 := by
    rw [List.length_append, link_length]
    rfl
  have hjoined : storedData joined = joined := by
    rw [storedData_eq_self_iff, hlength]
    refine ⟨by decide, ?_⟩
    rw [List.mem_append, not_or]
    exact ⟨by decide, nul_not_mem_link _ _ _⟩
  have hdata : (CharBuf.ofStr 255 joined).str = joined :=
    (CharBuf.str_ofStr 255 joined).trans hjoined
  have hdata' : (CharBuf.ofStr 255 (ascii "b")).str = ascii "b" :=
    (CharBuf.str_ofStr 255 (ascii "b")).trans hb
  have hfirst : (CharBuf.ofStr 64 first).str = first := str_ofStr_link _ _ _
  refine ⟨⟨?_, Or.inl emptyHash_str, ?_, ?_⟩, ?_, ?_, ?_⟩
  · intro heq
    rw [hdata, hdata'] at heq
    rw [heq] at hlength
    exact absurd hlength (by decide)
  · rw [hfirst]
    exact Or.inr (hashText_hexDigest _)
  · intro old
    rw [computeHash_hashed, computeHash_hashed, hdata, hdata', hfirst, emptyHash_str,
      List.append_nil]
  · exact linkedChain_accepted _ _
  · exact linkedChain_accepted _ _
  · exact linkedChain_absorbed Sha256.sha256 (by decide) hb hjoined

end ShardedLedger.Server
