import Mathlib
set_option autoImplicit false

/-!
# Foundation: seeded generators read in blocks

A seed determines a stream of 32-bit words.  A reader takes them in order, in
blocks of four: `block w k` is the 128-bit number in the `k`-th block, the first
word least significant.

`NoRepeat` is what an ideal generator gives: among the blocks that are drawn, two
blocks are equal only if they are the same block of the same stream.
-/

namespace ShardedLedger.Generator

/-- The words of one stream. -/
abbrev Words : Type := Nat → UInt32

/-- The number in the `k`-th block of four words. -/
def block (words : Words) (k : Nat) : Nat :=
  Nat.ofDigits (2 ^ 32) ((List.range 4).map fun j => (words (4 * k + j)).toNat)

/-- The same words stand in two blocks. -/
def SameBlock (words : Words) (k : Nat) (words' : Words) (k' : Nat) : Prop :=
  ∀ j < 4, words (4 * k + j) = words' (4 * k' + j)

variable {S : Type*}

/-- No two drawn blocks carry the same words. -/
def NoRepeat (words : S → Words) (drawn : S → Nat → Prop) : Prop :=
  ∀ s k s' k', drawn s k → drawn s' k' → SameBlock (words s) k (words s') k' →
    s = s' ∧ k = k'

theorem block_lt (words : Words) (k : Nat) : block words k < 2 ^ 128 := by
  have h := Nat.ofDigits_lt_base_pow_length (b := 2 ^ 32)
    (l := (List.range 4).map fun j => (words (4 * k + j)).toNat) (by decide) (by
      intro d hd
      obtain ⟨j, _, rfl⟩ := List.mem_map.mp hd
      exact (words (4 * k + j)).toNat_lt)
  rw [List.length_map, List.length_range, ← Nat.pow_mul] at h
  exact h

/-- The number determines the words. -/
theorem sameBlock_of_block_eq {words words' : Words} {k k' : Nat}
    (h : block words k = block words' k') : SameBlock words k words' k' := by
  have hdigits : (List.range 4).map (fun j => (words (4 * k + j)).toNat) =
      (List.range 4).map fun j => (words' (4 * k' + j)).toNat := by
    refine Nat.ofDigits_inj_of_len_eq (b := 2 ^ 32) (by decide) (by simp) ?_ ?_ h
    · intro d hd
      obtain ⟨j, _, rfl⟩ := List.mem_map.mp hd
      exact (words (4 * k + j)).toNat_lt
    · intro d hd
      obtain ⟨j, _, rfl⟩ := List.mem_map.mp hd
      exact (words' (4 * k' + j)).toNat_lt
  intro j hj
  exact UInt32.toNat_inj.mp (List.map_inj_left.mp hdigits j (List.mem_range.mpr hj))

/-- Without a repetition the number determines the block. -/
theorem NoRepeat.eq_of_block_eq {words : S → Words} {drawn : S → Nat → Prop}
    (h : NoRepeat words drawn) {s s' : S} {k k' : Nat} (hdrawn : drawn s k)
    (hdrawn' : drawn s' k') (hblock : block (words s) k = block (words s') k') :
    s = s' ∧ k = k' :=
  h s k s' k' hdrawn hdrawn' (sameBlock_of_block_eq hblock)

/-! ## Two readers -/

/-- The stream and the number of each block that is read: by a first reader, of
the stream of `s`, the `blocks`, and by a second one, of the stream of `t`,
`count` blocks from `start` on. -/
def reads (s t : S) (blocks : List Nat) (start count : Nat) : List (S × Nat) :=
  blocks.map (Prod.mk s) ++ (List.range' start count).map (Prod.mk t)

/-- The readers come across each other exactly if their streams are the same and
the second one gets as far as a block of the first one.  This holds of any part
`p` of the blocks. -/
theorem nodup_filter_reads_iff {s t : S} {blocks : List Nat} {start count : Nat}
    (hblocks : blocks.Nodup) (hstart : ∀ b ∈ blocks, start ≤ b) (p : S × Nat → Bool) :
    ((reads s t blocks start count).filter p).Nodup ↔
      ¬ (s = t ∧ ∃ b ∈ blocks, b < start + count ∧ p (s, b)) := by
  have hfirst : ((blocks.map (Prod.mk s)).filter p).Nodup :=
    (hblocks.map (Prod.mk_right_injective s)).filter p
  have hrange : (List.range' start count).Nodup := List.nodup_range'
  have hsecond : (((List.range' start count).map (Prod.mk t)).filter p).Nodup :=
    (hrange.map (Prod.mk_right_injective t)).filter p
  rw [reads, List.filter_append, List.nodup_append', and_iff_right hfirst, and_iff_right hsecond]
  constructor
  · rintro hdisjoint ⟨rfl, b, hb, hlt, hp⟩
    refine hdisjoint (a := (s, b)) ?_ ?_
    · exact List.mem_filter.mpr ⟨List.mem_map_of_mem hb, hp⟩
    · have hread : b ∈ List.range' start count :=
        List.mem_range'_1.mpr ⟨hstart b hb, hlt⟩
      exact List.mem_filter.mpr ⟨List.mem_map_of_mem hread, hp⟩
  · intro h r hr hr'
    obtain ⟨hmem, hp⟩ := List.mem_filter.mp hr
    obtain ⟨hmem', _⟩ := List.mem_filter.mp hr'
    obtain ⟨b, hb, rfl⟩ := List.mem_map.mp hmem
    obtain ⟨b', hread, heq⟩ := List.mem_map.mp hmem'
    obtain ⟨rfl, rfl⟩ := Prod.mk.inj heq
    exact h ⟨rfl, b', hb, (List.mem_range'_1.mp hread).2, hp⟩

/-- Without a repetition, values that determine the numbers of their blocks are
distinct exactly if the blocks are. -/
theorem NoRepeat.nodup_map_iff {words : S → Words} {drawn : S → Nat → Prop}
    (h : NoRepeat words drawn) {β : Type*} {f : S × Nat → β} {l : List (S × Nat)}
    (hdrawn : ∀ r ∈ l, drawn r.1 r.2)
    (hf : ∀ r ∈ l, ∀ r' ∈ l, f r = f r' → block (words r.1) r.2 = block (words r'.1) r'.2) :
    (l.map f).Nodup ↔ l.Nodup := by
  refine ⟨List.Nodup.of_map f, ?_⟩
  intro hnodup
  refine hnodup.map_on ?_
  intro r hr r' hr' heq
  obtain ⟨hseed, hblock⟩ :=
    h.eq_of_block_eq (hdrawn r hr) (hdrawn r' hr') (hf r hr r' hr' heq)
  exact Prod.ext hseed hblock

end ShardedLedger.Generator
