import Mathlib
set_option autoImplicit false

/-!
# Foundation: dealing a list round robin

`deal n i l` is the sublist of `l` at the positions congruent to `i` modulo `n`:
what the `i`-th of `n` receivers holds when the elements of `l` are handed out in
turn.  `deal_concat` is the step of a dealer whose cursor is the number of
elements handed out so far, modulo `n`.
-/

namespace ShardedLedger.RoundRobin

variable {α : Type*}

/-- The elements at the positions congruent to `i` modulo `n`. -/
def deal (n i : Nat) (l : List α) : List α :=
  (l.zipIdx.filter fun p => p.2 % n = i).map Prod.fst

@[simp] theorem deal_nil (n i : Nat) : deal n i ([] : List α) = [] := rfl

/-- The next element goes to the receiver the cursor points to, and to no other. -/
theorem deal_concat (n i : Nat) (l : List α) (a : α) :
    deal n i (l ++ [a]) = deal n i l ++ if l.length % n = i then [a] else [] := by
  simp only [deal, List.zipIdx_append, List.filter_append, List.map_append]
  congr 1
  by_cases h : l.length % n = i
  · simp [h]
  · simp [h]

theorem deal_concat_self {n i : Nat} {l : List α} (h : l.length % n = i) (a : α) :
    deal n i (l ++ [a]) = deal n i l ++ [a] := by
  rw [deal_concat, if_pos h]

theorem deal_concat_other {n i : Nat} {l : List α} (h : l.length % n ≠ i) (a : α) :
    deal n i (l ++ [a]) = deal n i l := by
  rw [deal_concat, if_neg h, List.append_nil]

theorem mem_of_mem_deal {n i : Nat} {l : List α} {a : α} (h : a ∈ deal n i l) : a ∈ l := by
  obtain ⟨p, hp, rfl⟩ := List.mem_map.mp h
  exact List.fst_mem_of_mem_zipIdx (List.mem_of_mem_filter hp)

end ShardedLedger.RoundRobin
