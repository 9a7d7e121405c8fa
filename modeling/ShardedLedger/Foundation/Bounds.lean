import Mathlib
set_option autoImplicit false

/-!
# Foundation: accesses to arrays

An access touches `length` bytes of an array from `offset` on.  The numbers are
the integers that the program computes: where it subtracts without a check, a
length comes out negative, and so does the size of an array that is declared
with it.
-/

namespace ShardedLedger.Bounds

/-- A read or a write of consecutive bytes of an array. -/
structure Access where
  capacity : Int
  offset : Int
  length : Int
  deriving DecidableEq

namespace Access

/-- The access stays inside the array. -/
def Inside (access : Access) : Prop :=
  0 ≤ access.offset ∧ 0 ≤ access.length ∧ access.offset + access.length ≤ access.capacity

instance (access : Access) : Decidable access.Inside :=
  inferInstanceAs (Decidable (_ ∧ _ ∧ _))

/-- An access to all of an array. -/
def whole (capacity : Int) : Access := ⟨capacity, 0, capacity⟩

@[simp] theorem whole_inside_iff (capacity : Int) : (whole capacity).Inside ↔ 0 ≤ capacity := by
  simp [whole, Inside]

/-- The beginning of an array. -/
@[simp] theorem inside_zero_iff (capacity length : Int) :
    (⟨capacity, 0, length⟩ : Access).Inside ↔ 0 ≤ length ∧ length ≤ capacity := by
  simp [Inside]

end Access

/-- Accesses, all inside their arrays. -/
def AllInside (accesses : List Access) : Prop := ∀ access ∈ accesses, access.Inside

instance (accesses : List Access) : Decidable (AllInside accesses) :=
  inferInstanceAs (Decidable (∀ access ∈ accesses, access.Inside))

@[simp] theorem allInside_nil : AllInside [] := by
  intro access h
  exact absurd h List.not_mem_nil

@[simp] theorem allInside_cons (access : Access) (rest : List Access) :
    AllInside (access :: rest) ↔ access.Inside ∧ AllInside rest :=
  List.forall_mem_cons

@[simp] theorem allInside_append (before after : List Access) :
    AllInside (before ++ after) ↔ AllInside before ∧ AllInside after :=
  List.forall_mem_append

/-- The fields of an array that follow one another from `offset` on. -/
def fields (capacity : Int) : Int → List Int → List Access
  | _, [] => []
  | offset, length :: rest => ⟨capacity, offset, length⟩ :: fields capacity (offset + length) rest

/-- Consecutive fields stay inside when no length is negative and all together
fit behind the offset. -/
theorem allInside_fields_iff {capacity offset : Int} (hoffset : 0 ≤ offset)
    (hcapacity : offset ≤ capacity) (lengths : List Int) :
    AllInside (fields capacity offset lengths) ↔
      (∀ length ∈ lengths, 0 ≤ length) ∧ offset + lengths.sum ≤ capacity := by
  induction lengths generalizing offset with
  | nil => simpa [fields] using hcapacity
  | cons length rest ih =>
      simp only [fields, allInside_cons, Access.Inside, List.forall_mem_cons, List.sum_cons]
      constructor
      · rintro ⟨⟨_, hlength, hfits⟩, hrest⟩
        obtain ⟨hpos, hsum⟩ := (ih (by omega) hfits).mp hrest
        exact ⟨⟨hlength, hpos⟩, by omega⟩
      · rintro ⟨⟨hlength, hpos⟩, hsum⟩
        have hrest : 0 ≤ rest.sum := List.sum_nonneg hpos
        have hfits : offset + length ≤ capacity := by omega
        exact ⟨⟨hoffset, hlength, hfits⟩, (ih (by omega) hfits).mpr ⟨hpos, by omega⟩⟩

end ShardedLedger.Bounds
