import ShardedLedger.Server.Validate
set_option autoImplicit false

/-!
# Server: the tip hash commits to the whole chain

The string that is hashed for a block has no separator between the data and the
previous hash.  Within one position of two chains that does no harm: both
previous hashes are empty (first block) or 64 characters long, so the split can
be read off from the end.  This is the `Kind` under which the library's
commitment theorem is used.
-/

namespace ShardedLedger.Server

open CString Sha256

variable (sha256 : Bytes → Digest)

/-- An accepted chain was hashed block by block, each with the stored hash of
its predecessor. -/
theorem check_hashed_of_valid {p : Bytes} {chain : List Block}
    (hvalid : (check sha256 p chain).valid = true) :
    (check sha256 p chain).hashed =
      (HashChain.inputs p (chain.map view)).map fun x => x.1 ++ x.2 := by
  induction chain generalizing p with
  | nil => rfl
  | cons block rest ih =>
      obtain ⟨_, hrest, hcheck⟩ := check_cons_of_valid sha256 hvalid
      rw [hcheck, List.map_cons, HashChain.inputs, List.map_cons, ih hrest]
      rfl

theorem hashed_of_accepted {chain : List Block}
    (hvalid : (validateBlockchain sha256 chain).valid = true) :
    (validateBlockchain sha256 chain).hashed =
      (HashChain.inputs [] (chain.map view)).map fun x => x.1 ++ x.2 := by
  rw [validateBlockchain_eq_check] at hvalid ⊢
  exact check_hashed_of_valid sha256 hvalid

/-- Without a collision a link determines the data and the previous hash, once
the width of the previous hash is known. -/
theorem link_injective_of_width {strings : List Bytes} (hfree : CollisionFreeOn sha256 strings)
    {d p d' p' : Bytes} (hmem : d ++ p ∈ strings) (hmem' : d' ++ p' ∈ strings)
    (hwidth : p.length = p'.length) (hlink : link sha256 d p = link sha256 d' p') :
    (d, p) = (d', p') := by
  have hdigest : sha256 (d ++ p) = sha256 (d' ++ p') := hexDigest_injective hlink
  have hstring : d ++ p = d' ++ p' := hfree _ hmem _ hmem' hdigest
  obtain ⟨hd, hp⟩ := List.append_inj' hstring hwidth
  rw [hd, hp]

/-- So, without a collision among what was hashed for two accepted chains, a
hash that occurs in both was computed from one pair. -/
theorem link_injective_of_accepted {left right : List Block}
    (hfree : CollisionFreeOn sha256
      ((validateBlockchain sha256 left).hashed ++ (validateBlockchain sha256 right).hashed))
    (hleft : (validateBlockchain sha256 left).valid = true)
    (hright : (validateBlockchain sha256 right).valid = true) :
    ∀ x ∈ HashChain.inputs [] (left.map view), ∀ y ∈ HashChain.inputs [] (right.map view),
      x.2.length = y.2.length → link sha256 x.1 x.2 = link sha256 y.1 y.2 → x = y := by
  rw [hashed_of_accepted sha256 hleft, hashed_of_accepted sha256 hright] at hfree
  intro x hx y hy hwidth hlink
  refine link_injective_of_width sha256 hfree ?_ ?_ hwidth hlink
  · exact List.mem_append_left _ (List.mem_map_of_mem hx)
  · exact List.mem_append_right _ (List.mem_map_of_mem hy)

theorem getLast?_view (chain : List Block) :
    (chain.map view).getLast?.map Prod.snd = chain.getLast?.map fun b => b.hash.str := by
  rw [List.getLast?_map, Option.map_map]
  rfl

/-- Two accepted chains of one length and one tip hash store the same data under
the same hashes. -/
theorem views_eq_of_tip_eq {left right : List Block}
    (hfree : CollisionFreeOn sha256
      ((validateBlockchain sha256 left).hashed ++ (validateBlockchain sha256 right).hashed))
    (hlength : left.length = right.length)
    (hleft : (validateBlockchain sha256 left).valid = true)
    (hright : (validateBlockchain sha256 right).valid = true)
    (htip : left.getLast?.map (fun b => b.hash.str) = right.getLast?.map fun b => b.hash.str) :
    left.map view = right.map view := by
  have hviews : (left.map view).length = (right.map view).length := by
    rw [List.length_map, List.length_map, hlength]
  refine (HashChain.eq_of_tip_eq (link sha256) (fun p q => p.length = q.length)
    (fun d p d' p' => ?_) ((accepted_iff_sealed sha256 left).mp hleft)
    ((accepted_iff_sealed sha256 right).mp hright) hviews rfl
    (link_injective_of_accepted sha256 hfree hleft hright) ?_).1
  · rw [link_length, link_length]
  · rw [getLast?_view, getLast?_view]
    exact htip

/-- **The tip hash binds the history.**  If no two different strings hashed
while the two chains are validated have the same digest, then two accepted
chains with the same number of blocks and the same last hash agree in the data
and the hash of every block. -/
theorem tip_hash_binds_history (left right : List Block)
    (hfree : CollisionFreeOn sha256
      ((validateBlockchain sha256 left).hashed ++ (validateBlockchain sha256 right).hashed))
    (hlength : left.length = right.length)
    (hleft : (validateBlockchain sha256 left).valid = true)
    (hright : (validateBlockchain sha256 right).valid = true)
    (htip : left.getLast?.map (fun b => b.hash.str) = right.getLast?.map fun b => b.hash.str) :
    ∀ i (hi : i < left.length) (hi' : i < right.length),
      left[i].data.str = right[i].data.str ∧ left[i].hash.str = right[i].hash.str := by
  have hviews := views_eq_of_tip_eq sha256 hfree hlength hleft hright htip
  intro i hi hi'
  have hget : view left[i] = view right[i] := by
    have := congrArg (fun l => l[i]?) hviews
    simpa [List.getElem?_eq_getElem hi, List.getElem?_eq_getElem hi'] using this
  exact Prod.mk.inj hget

/-- A two-block chain whose data arrays hold the strings `a` and `b` and, behind
the terminator, the byte `junk`. -/
def twoBlocks (junk : UInt8) : List Block :=
  let data (c : UInt8) : CharBuf maxLine :=
    { bytes := [c, 0, junk] ++ List.replicate 253 0
      length_eq := by rw [List.length_append, List.length_replicate]; rfl
      terminated := List.mem_append_left _ (by simp) }
  let first := link Sha256.sha256 (ascii "a") []
  [ { data := data 97, hash := CharBuf.ofStr 64 first, previousHash := emptyHash },
    { data := data 98, hash := CharBuf.ofStr 64 (link Sha256.sha256 (ascii "b") first)
      previousHash := CharBuf.ofStr 64 first } ]

theorem twoBlocks_view (junk : UInt8) :
    (twoBlocks junk).map view =
      [(ascii "a", link Sha256.sha256 (ascii "a") []),
        (ascii "b", link Sha256.sha256 (ascii "b") (link Sha256.sha256 (ascii "a") []))] := by
  have hdata : ∀ c, c ≠ 0 → cstr ([c, 0, junk] ++ List.replicate 253 0) = [c] := by
    intro c hc
    rw [List.cons_append, cstr_cons_of_ne hc, List.cons_append, cstr_nul_cons]
  simp only [twoBlocks, List.map_cons, List.map_nil, view, str_ofStr_link]
  unfold CharBuf.str
  rw [hdata 97 (by decide), hdata 98 (by decide)]
  rfl

theorem twoBlocks_valid (junk : UInt8) :
    (validateBlockchain Sha256.sha256 (twoBlocks junk)).valid = true := by
  rw [accepted_iff_sealed, twoBlocks_view]
  simp only [HashChain.sealed_cons, HashChain.sealed_nil, and_self]

/-- Checking either chain hashes `a`, and `b` followed by the digest of `a`. -/
theorem twoBlocks_hashed (junk : UInt8) :
    (validateBlockchain Sha256.sha256 (twoBlocks junk)).hashed =
      [ascii "a", ascii "b" ++ link Sha256.sha256 (ascii "a") []] := by
  rw [hashed_of_accepted Sha256.sha256 (twoBlocks_valid junk), twoBlocks_view]
  rfl

theorem twoBlocks_collisionFree :
    CollisionFreeOn Sha256.sha256
      ((validateBlockchain Sha256.sha256 (twoBlocks 1)).hashed ++
        (validateBlockchain Sha256.sha256 (twoBlocks 2)).hashed) := by
  rw [twoBlocks_hashed, twoBlocks_hashed]
  refine CollisionFreeOn.mono
    (collisionFreeOn_pair (s := ascii "a")
      (t := ascii "b" ++ link Sha256.sha256 (ascii "a") []) ?_) ?_
  · decide +kernel
  · exact List.append_subset.mpr ⟨List.Subset.refl _, List.Subset.refl _⟩

/-- The theorem at two chains that differ behind the terminators. -/
theorem tip_hash_binds_history_twoBlocks :
    twoBlocks 1 ≠ twoBlocks 2 ∧
    ∀ i (_ : i < (twoBlocks 1).length) (_ : i < (twoBlocks 2).length),
      (twoBlocks 1)[i].data.str = (twoBlocks 2)[i].data.str ∧
        (twoBlocks 1)[i].hash.str = (twoBlocks 2)[i].hash.str :=
  ⟨by decide +kernel,
    tip_hash_binds_history Sha256.sha256 (twoBlocks 1) (twoBlocks 2)
      twoBlocks_collisionFree rfl (twoBlocks_valid 1) (twoBlocks_valid 2) rfl⟩

/-- Tampering that keeps the number of blocks and the tip hash is detected. -/
theorem tampering_detected {left right : List Block}
    (hfree : CollisionFreeOn sha256
      ((validateBlockchain sha256 left).hashed ++ (validateBlockchain sha256 right).hashed))
    (hlength : left.length = right.length)
    (hleft : (validateBlockchain sha256 left).valid = true)
    (htip : left.getLast?.map (fun b => b.hash.str) = right.getLast?.map fun b => b.hash.str)
    (hchanged : left.map view ≠ right.map view) :
    (validateBlockchain sha256 right).valid = false := by
  cases hright : (validateBlockchain sha256 right).valid with
  | false => rfl
  | true => exact absurd (views_eq_of_tip_eq sha256 hfree hlength hleft hright htip) hchanged

end ShardedLedger.Server
