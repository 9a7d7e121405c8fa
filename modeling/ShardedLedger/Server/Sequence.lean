import ShardedLedger.Server.Retrieve
set_option autoImplicit false

/-!
# Server: the chain of a sequence of payloads

`chainOf` is the chain that a sequence of stored payloads leads to; what the
allocations return does not matter.  Up to two blocks it validates.  With a third
block it does not, unless SHA-256 collides on strings that the shard has hashed
(`ThirdHashed`) or the first payload ends in its own digest.
-/

namespace ShardedLedger.Server

open CString Sha256

variable (sha256 : Bytes → Digest)

/-- The chain after the payloads have been stored. -/
def chainOf (payloads : List Bytes) : List Block :=
  storeAll sha256 (payloads.map fun p => (zeroBlock, p))

@[simp] theorem chainOf_nil : chainOf sha256 [] = [] := rfl

theorem chainOf_concat (payloads : List Bytes) (p : Bytes) (raw : RawBlock) :
    chainOf sha256 (payloads ++ [p]) =
      (storeData sha256 (some raw) p (chainOf sha256 payloads)).blocks := by
  rw [chainOf, List.map_append, List.map_singleton, storeAll_concat, storeData_some,
    storeData_some]
  rfl

theorem chainOf_reachable (payloads : List Bytes) : Reachable sha256 (chainOf sha256 payloads) :=
  storeAll_reachable sha256 _

@[simp] theorem chainOf_length (payloads : List Bytes) :
    (chainOf sha256 payloads).length = payloads.length := by
  rw [chainOf, storeAll_length, List.length_map]

theorem headLinked_fst (ds : List Bytes) : (headLinked sha256 ds).map Prod.fst = ds := by
  cases ds with
  | nil => rfl
  | cons d ds =>
      simp only [headLinked, List.map_cons, List.map_map, List.cons.injEq, true_and]
      exact List.map_id ds

theorem chainOf_view (payloads : List Bytes) :
    (chainOf sha256 payloads).map view = headLinked sha256 (payloads.map storedData) := by
  rw [chainOf, storeAll_view, List.map_map]
  rfl

/-- The blocks hold the payloads, in order. -/
theorem chainOf_data (payloads : List Bytes) :
    (chainOf sha256 payloads).map (fun b => b.data.str) = payloads.map storedData := by
  have hview := congrArg (List.map Prod.fst) (chainOf_view sha256 payloads)
  rw [headLinked_fst, List.map_map] at hview
  exact hview

/-- Every hash is a full digest. -/
theorem hash_length_of_mem_chainOf {payloads : List Bytes} {b : Block}
    (h : b ∈ chainOf sha256 payloads) : b.hash.str.length = 64 := by
  have hmem : view b ∈ headLinked sha256 (payloads.map storedData) := by
    rw [← chainOf_view]
    exact List.mem_map_of_mem h
  change (view b).2.length = 64
  cases hds : payloads.map storedData with
  | nil => simp [hds, headLinked] at hmem
  | cons d ds =>
      rw [hds, headLinked] at hmem
      rcases List.mem_cons.mp hmem with hhead | hrest
      · rw [hhead]
        exact link_length sha256 _ _
      · obtain ⟨e, _, heq⟩ := List.mem_map.mp hrest
        rw [← heq]
        exact link_length sha256 _ _

theorem chainOf_valid_iff (payloads : List Bytes) :
    (validateBlockchain sha256 (chainOf sha256 payloads)).valid = true ↔
      LinksAgree sha256 (payloads.map storedData) := by
  rw [chainOf, storeAll_valid_iff, List.map_map]
  rfl

/-! ## The strings hashed for the first three blocks -/

/-- The strings that are hashed while a third block is stored are among
`hashed`: the first two blocks, and the third after the hash of the first (by
`store_data`) and of the second (by the validation). -/
def ThirdHashed (hashed : List Bytes) : List Bytes → Prop
  | d₀ :: d₁ :: d₂ :: _ =>
      d₀ ∈ hashed ∧ d₁ ++ hexDigest (sha256 d₀) ∈ hashed ∧
        d₂ ++ hexDigest (sha256 d₀) ∈ hashed ∧
        d₂ ++ hexDigest (sha256 (d₁ ++ hexDigest (sha256 d₀))) ∈ hashed
  | _ => True

theorem ThirdHashed.mono {hashed hashed' ds : List Bytes} (h : ThirdHashed sha256 hashed ds)
    (hsub : hashed ⊆ hashed') : ThirdHashed sha256 hashed' ds := by
  match ds with
  | [] => trivial
  | [_] => trivial
  | [_, _] => trivial
  | _ :: _ :: _ :: _ => exact ⟨hsub h.1, hsub h.2.1, hsub h.2.2.1, hsub h.2.2.2⟩

/-- What is stored behind the third block does not matter. -/
theorem ThirdHashed.concat {hashed ds : List Bytes} (h : ThirdHashed sha256 hashed ds)
    (hlength : ds.length ≠ 2) (d : Bytes) : ThirdHashed sha256 hashed (ds ++ [d]) := by
  match ds with
  | [] => trivial
  | [_] => trivial
  | [_, _] => exact absurd rfl hlength
  | _ :: _ :: _ :: _ => exact h

/-- The first block of a validation is hashed. -/
theorem mem_check_hashed (p : Bytes) (block : Block) (rest : List Block) :
    block.data.str ++ p ∈ (check sha256 p (block :: rest)).hashed := by
  rw [check]
  split
  · exact List.mem_cons_self
  · exact List.mem_cons_self

/-- Behind a block with the right hash the validation goes on. -/
theorem check_hashed_subset {p : Bytes} {block : Block} (rest : List Block)
    (h : block.hash.str = link sha256 block.data.str p) :
    (check sha256 block.hash.str rest).hashed ⊆ (check sha256 p (block :: rest)).hashed := by
  rw [check, if_pos h]
  exact List.subset_cons_self _ _

/-- Storing the third payload hashes them. -/
theorem thirdHashed_storeData (p₀ p₁ p₂ : Bytes) (raw : RawBlock) :
    ThirdHashed sha256 (storeData sha256 (some raw) p₂ (chainOf sha256 [p₀, p₁])).hashed
      [storedData p₀, storedData p₁, storedData p₂] := by
  have hview := chainOf_view sha256 [p₀, p₁]
  match chainOf sha256 [p₀, p₁], hview with
  | [b₀, b₁], hview =>
      have h₀ : view b₀ = (storedData p₀, link sha256 (storedData p₀) []) := by
        simpa [headLinked] using congrArg List.head? hview
      have h₁ : view b₁ =
          (storedData p₁, link sha256 (storedData p₁) (link sha256 (storedData p₀) [])) := by
        simpa [headLinked] using congrArg (fun l => l.getLast?) hview
      obtain ⟨hdata₀, hhash₀⟩ := Prod.mk.inj h₀
      obtain ⟨hdata₁, hhash₁⟩ := Prod.mk.inj h₁
      have hright₀ : b₀.hash.str = link sha256 b₀.data.str [] := by rw [hhash₀, hdata₀]
      have hright₁ : b₁.hash.str = link sha256 b₁.data.str b₀.hash.str := by
        rw [hhash₁, hdata₁, hhash₀]
      let b₂ := newBlock sha256 p₂ [b₀, b₁]
      have hdata₂ : b₂.data.str = storedData p₂ :=
        congrArg Prod.fst (view_newBlock sha256 p₂ [b₀, b₁])
      have hfirst := mem_check_hashed sha256 [] b₀ [b₁, b₂]
      have hsecond := check_hashed_subset sha256 [b₁, b₂] hright₀
        (mem_check_hashed sha256 b₀.hash.str b₁ [b₂])
      have hthird := check_hashed_subset sha256 [b₁, b₂] hright₀
        (check_hashed_subset sha256 [b₂] hright₁ (mem_check_hashed sha256 b₁.hash.str b₂ []))
      rw [hdata₀, List.append_nil] at hfirst
      rw [hdata₁, hhash₀] at hsecond
      rw [hdata₂, hhash₁] at hthird
      have hhead : headHash [b₀, b₁] = link sha256 (storedData p₀) [] := hhash₀
      rw [storeData_eq, hhead]
      simp only [link, List.append_nil] at hsecond hthird ⊢
      exact ⟨List.mem_cons_of_mem _ hfirst, List.mem_cons_of_mem _ hsecond,
        List.mem_cons_self, List.mem_cons_of_mem _ hthird⟩
  | [], hview => simp [headLinked] at hview
  | [_], hview => simp [headLinked] at hview
  | _ :: _ :: _ :: _, hview => simp [headLinked] at hview

/-- Without a collision among them, and if the first payload does not end in its
own digest, a chain of three or more blocks does not validate. -/
theorem chainOf_invalid {payloads hashed : List Bytes} (hlength : 3 ≤ payloads.length)
    (hthird : ThirdHashed sha256 hashed (payloads.map storedData))
    (hfree : CollisionFreeOn sha256 hashed)
    (hdigest : ∀ p ∈ payloads, ¬ hexDigest (sha256 (storedData p)) <:+ storedData p) :
    (validateBlockchain sha256 (chainOf sha256 payloads)).valid = false := by
  rw [Bool.eq_false_iff, Ne, chainOf_valid_iff]
  intro hagree
  match payloads, hlength with
  | p₀ :: p₁ :: p₂ :: rest, _ =>
      obtain ⟨h₀, h₁, hhead, hlast⟩ := hthird
      have heq := suffix_of_linksAgree sha256 hagree hfree h₀ h₁ hhead hlast
      exact hdigest p₀ List.mem_cons_self ⟨storedData p₁, heq⟩

end ShardedLedger.Server
