import Mathlib
set_option autoImplicit false

/-!
# Foundation: singly linked lists in a heap

A heap gives the cells of the addresses that are allocated.  A cell is a content
and the pointer to the next cell; a pointer is an address or null.  Loading and
storing through a pointer that is null or dangling has no result, and neither
has freeing a cell that is not allocated: a program that has a result made no
such access.

`Segment heap p as xs q` says that from the pointer `p` the cells at the
addresses `as`, with the contents `xs`, lead to the pointer `q`.  A segment that
ends in null visits no address twice (`Segment.nodup`), so that writing to one
of its cells leaves the others alone.
-/

namespace ShardedLedger.LinkedList

/-- A cell of a singly linked list. -/
structure Cell (Addr α : Type) where
  content : α
  next : Option Addr

/-- The cells of the addresses that are allocated. -/
abbrev Heap (Addr α : Type) : Type := Addr → Option (Cell Addr α)

variable {Addr α : Type}

namespace Heap

/-- The heap in which nothing is allocated. -/
def empty : Heap Addr α := fun _ => none

/-- `*p`. -/
def load (heap : Heap Addr α) : Option Addr → Option (Cell Addr α)
  | none => none
  | some a => heap a

@[simp] theorem load_some (heap : Heap Addr α) (a : Addr) : heap.load (some a) = heap a := rfl

/-- The allocated addresses are exactly those of the list. -/
def Owns (heap : Heap Addr α) (as : List Addr) : Prop := ∀ a, (heap a).isSome = true ↔ a ∈ as

theorem owns_empty : Owns (empty : Heap Addr α) [] := by
  intro a
  simp [empty]

theorem Owns.eq_empty {heap : Heap Addr α} (h : heap.Owns []) : heap = empty := by
  funext a
  have hnone := (h a).not.mpr List.not_mem_nil
  rwa [Bool.not_eq_true, Option.isSome_eq_false_iff, Option.isNone_iff_eq_none] at hnone

variable [DecidableEq Addr]

/-- The heap with the given cell at an address, allocated or not. -/
def put (heap : Heap Addr α) (a : Addr) (cell : Cell Addr α) : Heap Addr α :=
  Function.update heap a (some cell)

/-- `*p = cell`. -/
def store (heap : Heap Addr α) (p : Option Addr) (cell : Cell Addr α) : Option (Heap Addr α) :=
  match p with
  | none => none
  | some a => if (heap a).isSome then some (heap.put a cell) else none

/-- `free(p)`: nothing for a null pointer, and a fault for an address that is
not allocated. -/
def free (heap : Heap Addr α) : Option Addr → Option (Heap Addr α)
  | none => some heap
  | some a => if (heap a).isSome then some (Function.update heap a none) else none

@[simp] theorem put_self (heap : Heap Addr α) (a : Addr) (cell : Cell Addr α) :
    heap.put a cell a = some cell := Function.update_self _ _ _

theorem put_of_ne (heap : Heap Addr α) {a b : Addr} (h : b ≠ a) (cell : Cell Addr α) :
    heap.put a cell b = heap b := Function.update_of_ne h _ _

@[simp] theorem put_put (heap : Heap Addr α) (a : Addr) (cell cell' : Cell Addr α) :
    (heap.put a cell).put a cell' = heap.put a cell' := Function.update_idem _ _ _

theorem store_eq_put {heap : Heap Addr α} {a : Addr} {old : Cell Addr α} (h : heap a = some old)
    (cell : Cell Addr α) : heap.store (some a) cell = some (heap.put a cell) := by
  simp only [store, h, Option.isSome_some, if_true]

theorem free_eq_update {heap : Heap Addr α} {a : Addr} {old : Cell Addr α}
    (h : heap a = some old) : heap.free (some a) = some (Function.update heap a none) := by
  simp only [free, h, Option.isSome_some, if_true]

/-- Writing to an allocated cell allocates nothing. -/
theorem Owns.put {heap : Heap Addr α} {as : List Addr} (h : heap.Owns as) {a : Addr}
    (ha : a ∈ as) (cell : Cell Addr α) : (heap.put a cell).Owns as := by
  intro b
  by_cases hb : b = a
  · subst hb
    simp [ha]
  · rw [put_of_ne heap hb]
    exact h b

/-- Writing to a fresh address allocates it. -/
theorem Owns.put_concat {heap : Heap Addr α} {as : List Addr} (h : heap.Owns as) (a : Addr)
    (cell : Cell Addr α) : (heap.put a cell).Owns (as ++ [a]) := by
  intro b
  rw [List.mem_append, List.mem_singleton]
  by_cases hb : b = a
  · subst hb
    simp
  · rw [put_of_ne heap hb, h b]
    simp [hb]

end Heap

/-! ## Segments -/

/-- From `p` the cells at the addresses, with the contents, lead to `q`. -/
inductive Segment (heap : Heap Addr α) :
    Option Addr → List Addr → List α → Option Addr → Prop
  | nil (p : Option Addr) : Segment heap p [] [] p
  | cons {a : Addr} {x : α} {next q : Option Addr} {as : List Addr} {xs : List α}
      (hcell : heap a = some ⟨x, next⟩) (hrest : Segment heap next as xs q) :
      Segment heap (some a) (a :: as) (x :: xs) q

namespace Segment

variable {heap : Heap Addr α} {p q : Option Addr} {as bs : List Addr} {xs ys : List α}

theorem length_eq (h : Segment heap p as xs q) : as.length = xs.length := by
  induction h with
  | nil p => rfl
  | cons hcell hrest ih => rw [List.length_cons, List.length_cons, ih]

/-- A segment without contents goes nowhere. -/
theorem eq_of_nil (h : Segment heap p as ([] : List α) q) : p = q := by
  cases h with
  | nil => rfl

/-- A segment with a content has a first cell. -/
theorem exists_cons {x : α} (h : Segment heap p as (x :: xs) q) :
    ∃ a next as', p = some a ∧ as = a :: as' ∧ heap a = some ⟨x, next⟩ ∧
      Segment heap next as' xs q := by
  cases h with
  | cons hcell hrest => exact ⟨_, _, _, rfl, rfl, hcell, hrest⟩

/-- **Frame.**  A heap with the same cells at the addresses has the same segment. -/
theorem frame {heap' : Heap Addr α} (h : Segment heap p as xs q)
    (hsame : ∀ a ∈ as, heap' a = heap a) : Segment heap' p as xs q := by
  induction h with
  | nil p => exact .nil p
  | cons hcell hrest ih =>
      rw [List.forall_mem_cons] at hsame
      exact .cons (hsame.1.trans hcell) (ih hsame.2)

/-- A segment followed by another. -/
theorem append {r : Option Addr} (h : Segment heap p as xs q) (h' : Segment heap q bs ys r) :
    Segment heap p (as ++ bs) (xs ++ ys) r := by
  induction h with
  | nil p => exact h'
  | cons hcell hrest ih => exact .cons hcell (ih h')

/-- From one pointer only one segment leads to null. -/
theorem unique (h : Segment heap p as xs none) (h' : Segment heap p bs ys none) :
    as = bs ∧ xs = ys := by
  induction as generalizing p xs bs ys with
  | nil =>
      cases h
      cases h'
      exact ⟨rfl, rfl⟩
  | cons a as ih =>
      rcases h with - | ⟨hcell, hrest⟩
      rcases h' with - | ⟨hcell', hrest'⟩
      have hsame := Option.some.inj (hcell.symm.trans hcell')
      obtain ⟨rfl, rfl⟩ := Cell.mk.inj hsame
      obtain ⟨rfl, rfl⟩ := ih hrest hrest'
      exact ⟨rfl, rfl⟩

/-- From each of its cells the rest of the segment leads on. -/
theorem suffix_of_mem (h : Segment heap p as xs q) {a : Addr} (ha : a ∈ as) :
    ∃ bs ys, bs.length < as.length ∧ Segment heap (some a) (a :: bs) ys q := by
  induction h with
  | nil p => exact absurd ha List.not_mem_nil
  | @cons b x next q as xs hcell hrest ih =>
      rcases List.mem_cons.mp ha with rfl | ha
      · exact ⟨as, x :: xs, Nat.lt_succ_self _, .cons hcell hrest⟩
      · obtain ⟨bs, ys, hlength, hsuffix⟩ := ih ha
        exact ⟨bs, ys, hlength.trans (Nat.lt_succ_self _), hsuffix⟩

/-- **A segment to null is acyclic.**  Otherwise two segments of different
length would lead to null from the address that comes twice. -/
theorem nodup (h : Segment heap p as xs none) : as.Nodup := by
  induction as generalizing p xs with
  | nil => exact List.nodup_nil
  | cons a as ih =>
      rcases h with - | ⟨hcell, hrest⟩
      refine List.nodup_cons.mpr ⟨fun hmem => ?_, ih hrest⟩
      obtain ⟨bs, ys, hlength, hsuffix⟩ := hrest.suffix_of_mem hmem
      have hsame := (unique (.cons hcell hrest) hsuffix).1
      have hlong := congrArg List.length hsame
      simp only [List.length_cons] at hlong
      omega

theorem isSome_of_mem (h : Segment heap p as xs q) {a : Addr} (ha : a ∈ as) :
    (heap a).isSome = true := by
  obtain ⟨bs, ys, -, hsuffix⟩ := h.suffix_of_mem ha
  rcases hsuffix with - | ⟨hcell, hrest⟩
  rw [hcell]
  rfl

/-- A segment that is not empty starts at an address. -/
theorem exists_head (h : Segment heap p as xs q) (hne : as ≠ []) : ∃ a, p = some a := by
  cases h with
  | nil => exact absurd rfl hne
  | cons hcell hrest => exact ⟨_, rfl⟩

theorem head_eq {a : Addr} (h : Segment heap p (a :: as) xs q) : p = some a := by
  cases h with
  | cons hcell hrest => rfl

/-- A list that is a longer one later keeps the contents of its cells, and the
pointers between them. -/
theorem keeps_cell {heap' : Heap Addr α} (h : Segment heap p as xs none)
    (h' : Segment heap' p (as ++ bs) (xs ++ ys) none) {a : Addr} (ha : a ∈ as) :
    ∃ x next next', heap a = some ⟨x, next⟩ ∧ heap' a = some ⟨x, next'⟩ ∧
      ∀ b, next = some b → next' = some b := by
  induction as generalizing p xs with
  | nil => exact absurd ha List.not_mem_nil
  | cons c as ih =>
      cases h with
      | @cons _ x next _ _ xs hcell hrest =>
      cases h' with
      | @cons _ _ next' _ _ _ hcell' hrest' =>
      have hnext : ∀ b, next = some b → next' = some b := by
        rintro b rfl
        cases hrest with
        | cons _ _ =>
        cases hrest' with
        | cons _ _ => rfl
      rcases List.mem_cons.mp ha with rfl | ha
      · exact ⟨x, next, next', hcell, hcell', hnext⟩
      · obtain ⟨b, rfl⟩ := hrest.exists_head (List.ne_nil_of_mem ha)
        rw [hnext b rfl] at hrest'
        exact ih hrest hrest' ha

variable [DecidableEq Addr]

/-- Writing elsewhere leaves the segment. -/
theorem put_of_notMem (h : Segment heap p as xs q) {a : Addr} (ha : a ∉ as)
    (cell : Cell Addr α) : Segment (heap.put a cell) p as xs q := by
  refine h.frame fun b hb => Heap.put_of_ne heap ?_ cell
  rintro rfl
  exact ha hb

/-- The content of the first cell is replaced. -/
theorem put_head {a : Addr} {x : α} {next : Option Addr} (y : α)
    (hcell : heap a = some ⟨x, next⟩) (hrest : Segment heap next as xs none) :
    Segment (heap.put a ⟨y, next⟩) (some a) (a :: as) (y :: xs) none := by
  have hnodup := nodup (.cons hcell hrest)
  exact .cons (heap.put_self a _) (hrest.put_of_notMem (List.nodup_cons.mp hnodup).1 _)

/-- The last cell holds its content and null, and linking it to another pointer
moves the end of the segment there. -/
theorem link_last (h : Segment heap p as xs none) {a : Addr} (ha : as.getLast? = some a) :
    ∃ x, heap a = some ⟨x, none⟩ ∧ ∀ q, Segment (heap.put a ⟨x, q⟩) p as xs q := by
  induction as generalizing p xs with
  | nil => cases ha
  | cons b as ih =>
      have hnodup := h.nodup
      rcases h with - | ⟨hcell, hrest⟩
      rcases as with - | ⟨c, as⟩
      · cases hrest
        cases ha
        exact ⟨_, hcell, fun q => .cons (heap.put_self _ _) (.nil q)⟩
      · rw [List.getLast?_cons_cons] at ha
        obtain ⟨x, hx, hlink⟩ := ih hrest ha
        refine ⟨x, hx, fun q => .cons ?_ (hlink q)⟩
        have hne : b ≠ a := by
          rintro rfl
          exact (List.nodup_cons.mp hnodup).1 (List.mem_of_getLast? ha)
        rw [Heap.put_of_ne heap hne, hcell]

/-- A new cell, allocated at a fresh address, is linked behind the last one. -/
theorem link_new (h : Segment heap p as xs none) {a b : Addr} (ha : as.getLast? = some a)
    (hb : b ∉ as) {y : α} (hcell : heap b = some ⟨y, none⟩) :
    ∃ x, heap a = some ⟨x, none⟩ ∧
      Segment (heap.put a ⟨x, some b⟩) p (as ++ [b]) (xs ++ [y]) none := by
  obtain ⟨x, hx, hlink⟩ := h.link_last ha
  have hne : b ≠ a := by
    rintro rfl
    exact hb (List.mem_of_getLast? ha)
  have hnew : heap.put a ⟨x, some b⟩ b = some ⟨y, none⟩ := by rw [Heap.put_of_ne heap hne, hcell]
  exact ⟨x, hx, (hlink (some b)).append (.cons hnew (.nil none))⟩

end Segment

end ShardedLedger.LinkedList
