import Mathlib
set_option autoImplicit false

/-!
# Foundation: hash-linked chains

A chain is a list of entries, each a payload with its hash.  `link d p` is the
hash of the payload `d` after a predecessor with hash `p`; `Sealed link p` says
that every entry of a chain carries the hash of its payload and its predecessor,
the first one after `p`.

The result of this module is `eq_of_tip_eq`: two sealed chains of one length and
one tip hash are the same chain, as long as the link does not collide on what
was hashed to check them; `back_of_tip_eq` says what is left of that when
the lengths differ.  Injectivity of the link is asked for only between
predecessors of one *kind*: a link that has no separator between payload and
predecessor hash is not injective across predecessors of different width.
-/

namespace ShardedLedger.HashChain

variable {D H : Type*} (link : D → H → H)

/-- Every entry carries the hash of its payload after its predecessor's hash. -/
def Sealed : H → List (D × H) → Prop
  | _, [] => True
  | p, e :: rest => e.2 = link e.1 p ∧ Sealed e.2 rest

/-- What the link is applied to when a chain is checked from `p` on. -/
def inputs : H → List (D × H) → List (D × H)
  | _, [] => []
  | p, e :: rest => (e.1, p) :: inputs e.2 rest

/-- The hash that entry `i` is linked to: `p` for the first one. -/
def predecessor (p : H) (chain : List (D × H)) : Nat → H
  | 0 => p
  | i + 1 => (chain[i]?.map Prod.snd).getD p

@[simp] theorem sealed_nil (p : H) : Sealed link p [] := trivial

@[simp] theorem sealed_cons (p : H) (e : D × H) (rest : List (D × H)) :
    Sealed link p (e :: rest) ↔ e.2 = link e.1 p ∧ Sealed link e.2 rest := Iff.rfl

theorem predecessor_cons_succ (p : H) (e : D × H) (rest : List (D × H)) {i : Nat}
    (h : i < rest.length) :
    predecessor p (e :: rest) (i + 1) = predecessor e.2 rest i := by
  cases i with
  | zero => simp [predecessor]
  | succ i =>
      have hi : i < rest.length := by omega
      simp [predecessor, List.getElem?_eq_getElem hi]

/-- The recursive definition says the same as the condition on every position. -/
theorem sealed_iff_getElem (p : H) (chain : List (D × H)) :
    Sealed link p chain ↔
      ∀ i (h : i < chain.length), chain[i].2 = link chain[i].1 (predecessor p chain i) := by
  induction chain generalizing p with
  | nil => simp
  | cons e rest ih =>
      rw [sealed_cons, ih]
      constructor
      · rintro ⟨hhead, htail⟩ i hi
        cases i with
        | zero => exact hhead
        | succ i =>
            have hi' : i < rest.length := by simpa using hi
            rw [predecessor_cons_succ p e rest hi']
            exact htail i hi'
      · intro hall
        refine ⟨hall 0 (by simp), ?_⟩
        intro i hi
        have := hall (i + 1) (by simpa using hi)
        rw [predecessor_cons_succ p e rest hi] at this
        exact this

/-- The hash of the last entry; `p` when there is none. -/
def tip (p : H) : List (D × H) → H
  | [] => p
  | e :: rest => tip e.2 rest

/-- Behind a front, a chain is sealed from the front's tip on. -/
theorem sealed_append (p : H) (front back : List (D × H)) :
    Sealed link p (front ++ back) ↔ Sealed link p front ∧ Sealed link (tip p front) back := by
  induction front generalizing p with
  | nil => exact ⟨fun h => ⟨trivial, h⟩, fun h => h.2⟩
  | cons e front ih =>
      rw [List.cons_append, sealed_cons, ih, sealed_cons, tip, and_assoc]

theorem inputs_append (p : H) (front back : List (D × H)) :
    inputs p (front ++ back) = inputs p front ++ inputs (tip p front) back := by
  induction front generalizing p with
  | nil => rfl
  | cons e front ih => rw [List.cons_append, inputs, ih, inputs, tip, List.cons_append]

/-- A sealed chain stays sealed when it is cut. -/
theorem sealed_of_append {p : H} {front back : List (D × H)}
    (h : Sealed link p (front ++ back)) : Sealed link p front :=
  ((sealed_append link p front back).mp h).1

section Commitment

/-! `Kind` relates the hashes that may be confused with one another: every two
hashes that the link produced, and the starting hashes where a statement says so. -/

variable (Kind : H → H → Prop) (hkind : ∀ d p d' p', Kind (link d p) (link d' p'))

include hkind

/-- Behind two entries whose hashes may be confused, equal tips make the rest of
the chains equal, and then the hashes of the two entries. -/
theorem heads_of_tip_eq {a c : D × H} {left right : List (D × H)}
    (hleft : Sealed link a.2 left) (hright : Sealed link c.2 right)
    (hlen : left.length = right.length) (hac : Kind a.2 c.2)
    (hinj : ∀ x ∈ inputs a.2 left, ∀ y ∈ inputs c.2 right,
      Kind x.2 y.2 → link x.1 x.2 = link y.1 y.2 → x = y)
    (htip : (a :: left).getLast?.map Prod.snd = (c :: right).getLast?.map Prod.snd) :
    left = right ∧ a.2 = c.2 := by
  induction left generalizing right a c with
  | nil =>
      have hnil : right = [] := List.length_eq_zero_iff.mp hlen.symm
      subst hnil
      exact ⟨rfl, by simpa using htip⟩
  | cons b left ih =>
      cases right with
      | nil => simp at hlen
      | cons d right =>
          obtain ⟨hb, hleft⟩ := hleft
          obtain ⟨hd, hright⟩ := hright
          have hkind' : Kind b.2 d.2 := by rw [hb, hd]; exact hkind _ _ _ _
          have htip' : (b :: left).getLast?.map Prod.snd =
              (d :: right).getLast?.map Prod.snd := by
            simpa [List.getLast?_cons_cons] using htip
          obtain ⟨htails, hhash⟩ := ih hleft hright (by simpa using hlen) hkind'
            (fun x hx y hy => hinj x (List.mem_cons_of_mem _ hx) y (List.mem_cons_of_mem _ hy))
            htip'
          -- the equal hashes of `b` and `d` hand back their predecessors'
          have hlink : link b.1 a.2 = link d.1 c.2 := by rw [← hb, ← hd, hhash]
          have hpair : (b.1, a.2) = (d.1, c.2) :=
            hinj (b.1, a.2) (by simp [inputs]) (d.1, c.2) (by simp [inputs]) hac hlink
          obtain ⟨hdata, hstart⟩ := Prod.mk.inj hpair
          have hbd : b = d := Prod.ext hdata hhash
          exact ⟨by rw [hbd, htails], hstart⟩

/-- **Commitment.**  Two sealed chains of one length whose last entries carry
the same hash are equal, and so are their starting hashes if there is an entry. -/
theorem eq_of_tip_eq {left right : List (D × H)} {p q : H}
    (hleft : Sealed link p left) (hright : Sealed link q right)
    (hlen : left.length = right.length) (hpq : Kind p q)
    (hinj : ∀ x ∈ inputs p left, ∀ y ∈ inputs q right,
      Kind x.2 y.2 → link x.1 x.2 = link y.1 y.2 → x = y)
    (htip : left.getLast?.map Prod.snd = right.getLast?.map Prod.snd) :
    left = right ∧ (left ≠ [] → p = q) := by
  cases left with
  | nil =>
      have hnil : right = [] := List.length_eq_zero_iff.mp hlen.symm
      exact ⟨hnil.symm, fun h => absurd rfl h⟩
  | cons a left =>
      cases right with
      | nil => simp at hlen
      | cons c right =>
          obtain ⟨ha, hleft⟩ := hleft
          obtain ⟨hc, hright⟩ := hright
          have hac : Kind a.2 c.2 := by rw [ha, hc]; exact hkind _ _ _ _
          obtain ⟨htails, hhash⟩ := heads_of_tip_eq link Kind hkind hleft hright
            (by simpa using hlen) hac
            (fun x hx y hy => hinj x (List.mem_cons_of_mem _ hx) y (List.mem_cons_of_mem _ hy))
            htip
          have hlink : link a.1 p = link c.1 q := by rw [← ha, ← hc, hhash]
          have hpair : (a.1, p) = (c.1, q) :=
            hinj (a.1, p) (by simp [inputs]) (c.1, q) (by simp [inputs]) hpq hlink
          obtain ⟨hdata, hstart⟩ := Prod.mk.inj hpair
          have heq : a = c := Prod.ext hdata hhash
          exact ⟨by rw [heq, htails], fun _ => hstart⟩

/-- **Chains of different lengths.**  A sealed chain and a shorter one with the
same tip: they agree behind the shorter one's first entry, and that entry has the
hash of the entry in its place. -/
theorem back_of_tip_eq {front back back' : List (D × H)} {e c : D × H} {p q : H}
    (hleft : Sealed link p (front ++ e :: back)) (hright : Sealed link q (c :: back'))
    (hlen : back.length = back'.length)
    (hinj : ∀ x ∈ inputs p (front ++ e :: back), ∀ y ∈ inputs q (c :: back'),
      Kind x.2 y.2 → link x.1 x.2 = link y.1 y.2 → x = y)
    (htip : (front ++ e :: back).getLast?.map Prod.snd = (c :: back').getLast?.map Prod.snd) :
    back = back' ∧ e.2 = c.2 ∧ link e.1 (tip p front) = link c.1 q := by
  obtain ⟨_, he, hback⟩ := (sealed_append link p front (e :: back)).mp hleft
  obtain ⟨hc, hback'⟩ := hright
  have hec : Kind e.2 c.2 := by rw [he, hc]; exact hkind _ _ _ _
  rw [inputs_append] at hinj
  have htip' : (e :: back).getLast?.map Prod.snd = (c :: back').getLast?.map Prod.snd := by
    rwa [List.getLast?_append_of_ne_nil _ (List.cons_ne_nil e back)] at htip
  obtain ⟨htails, hhash⟩ := heads_of_tip_eq link Kind hkind hback hback' hlen hec
    (fun x hx y hy => hinj x (List.mem_append_right _ (List.mem_cons_of_mem _ hx)) y
      (List.mem_cons_of_mem _ hy)) htip'
  exact ⟨htails, hhash, he.symm.trans (hhash.trans hc)⟩

end Commitment

end ShardedLedger.HashChain
