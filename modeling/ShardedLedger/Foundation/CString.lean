import Mathlib
set_option autoImplicit false

/-!
# Foundation: C strings in fixed character arrays

A C string is the part of a byte sequence before its first NUL.  The functions
below are the ones of `<string.h>` and `<stdio.h>` that bounded string code is
written with, on lists of bytes: `strncpy`, `strcmp`, `strncmp`, `strncat`, and
the truncation of `snprintf`.

`CharBuf n` is a character array of `n` bytes that holds a C string: the
terminating NUL inside the array is a field, so an unterminated buffer cannot be
built.  `copyTerminated` is the idiom

    strncpy(dst, src, N - 1); dst[N - 1] = '\0';

which turns an array of any content into such a buffer.
-/

namespace ShardedLedger.CString

/-- A sequence of bytes in memory or on a wire. -/
abbrev Bytes : Type := List UInt8

/-- An array of exactly `n` bytes, of any content. -/
abbrev Buf (n : Nat) : Type := List.Vector UInt8 n

/-- The bytes of an ASCII text. -/
def ascii (s : String) : Bytes := s.toList.map fun c => UInt8.ofNat c.toNat

/-! ## The C string in a byte sequence -/

/-- The C string that starts at the first byte: everything before the first NUL. -/
def cstr (s : Bytes) : Bytes := s.takeWhile (· ≠ 0)

@[simp] theorem cstr_nil : cstr [] = [] := rfl

@[simp] theorem cstr_nul_cons (s : Bytes) : cstr (0 :: s) = [] := by
  simp [cstr]

theorem cstr_cons_of_ne {c : UInt8} (h : c ≠ 0) (s : Bytes) :
    cstr (c :: s) = c :: cstr s := by
  simp [cstr, h]

/-- The string is cut at the first NUL, and beyond the end of a list stands a NUL. -/
theorem cstr_eq_headD (s : Bytes) :
    cstr s = if s.headD 0 = 0 then [] else s.headD 0 :: cstr s.tail := by
  cases s with
  | nil => rfl
  | cons c s =>
      split
      · rename_i hc
        rw [List.headD_cons] at hc
        rw [hc, cstr_nul_cons]
      · rename_i hc
        exact cstr_cons_of_ne hc s

theorem nul_not_mem_cstr (s : Bytes) : (0 : UInt8) ∉ cstr s := by
  intro h
  have := List.mem_takeWhile_imp h
  simp at this

/-- A sequence without NUL bytes is its own C string. -/
theorem cstr_eq_self {s : Bytes} (h : (0 : UInt8) ∉ s) : cstr s = s := by
  unfold cstr
  rw [List.takeWhile_eq_self_iff]
  intro c hc
  have hne : c ≠ 0 := fun h0 => h (h0 ▸ hc)
  simpa using hne

theorem cstr_replicate {c : UInt8} (hc : c ≠ 0) (n : Nat) :
    cstr (List.replicate n c) = List.replicate n c :=
  cstr_eq_self fun h => hc (List.eq_of_mem_replicate h).symm

@[simp] theorem cstr_cstr (s : Bytes) : cstr (cstr s) = cstr s :=
  cstr_eq_self (nul_not_mem_cstr s)

/-- What stands behind a NUL is not part of the string. -/
theorem cstr_append_nul {s : Bytes} (h : (0 : UInt8) ∉ s) (t : Bytes) :
    cstr (s ++ 0 :: t) = s := by
  induction s with
  | nil => simp
  | cons c s ih =>
      simp only [List.mem_cons, not_or] at h
      rw [List.cons_append, cstr_cons_of_ne (Ne.symm h.1), ih h.2]

theorem cstr_initial (s : Bytes) : cstr s <+: s := List.takeWhile_prefix _

theorem cstr_length_le (s : Bytes) : (cstr s).length ≤ s.length :=
  (cstr_initial s).length_le

/-- A NUL in the sequence leaves room: the string is strictly shorter. -/
theorem cstr_length_lt {s : Bytes} (h : (0 : UInt8) ∈ s) : (cstr s).length < s.length := by
  refine Nat.lt_of_le_of_ne (cstr_length_le s) ?_
  intro heq
  have hs : cstr s = s := (cstr_initial s).eq_of_length heq
  rw [← hs] at h
  exact nul_not_mem_cstr s h

/-- Appending the terminator the receiver writes does not change the string. -/
theorem cstr_append_singleton_nul (s : Bytes) : cstr (s ++ [0]) = cstr s := by
  induction s with
  | nil => simp
  | cons c s ih =>
      by_cases hc : c = 0
      · subst hc; simp
      · rw [List.cons_append, cstr_cons_of_ne hc, cstr_cons_of_ne hc, ih]

theorem nul_not_mem_take {s : Bytes} (h : (0 : UInt8) ∉ s) (n : Nat) :
    (0 : UInt8) ∉ s.take n :=
  fun hm => h (List.mem_of_mem_take hm)

theorem cstr_eq_nil_iff {s : Bytes} : cstr s = [] ↔ s.head? = none ∨ s.head? = some 0 := by
  cases s with
  | nil => simp
  | cons c s =>
      by_cases hc : c = 0
      · simp [hc]
      · simp [cstr_cons_of_ne hc, hc]

/-! ## Comparison -/

/-- `strncmp(a, b, n)`: the difference of the first characters that differ
among the first `n`, or zero; a NUL ends both strings. -/
def strncmp : Nat → Bytes → Bytes → Int
  | 0, _, _ => 0
  | n + 1, a, b =>
      let x := a.headD 0
      let y := b.headD 0
      if x ≠ y then (x.toNat : Int) - y.toNat
      else if x = 0 then 0
      else strncmp n a.tail b.tail

/-- Different characters have a non-zero difference. -/
theorem toNat_sub_ne_zero {x y : UInt8} (h : x ≠ y) : (x.toNat : Int) - y.toNat ≠ 0 := by
  intro hzero
  exact h (UInt8.toNat_inj.mp (by omega))

/-- The comparison is zero exactly when the strings agree up to `n` characters. -/
theorem strncmp_eq_zero_iff (n : Nat) (a b : Bytes) :
    strncmp n a b = 0 ↔ (cstr a).take n = (cstr b).take n := by
  induction n generalizing a b with
  | zero => simp [strncmp]
  | succ n ih =>
      unfold strncmp
      rw [cstr_eq_headD a, cstr_eq_headD b]
      by_cases hheads : a.headD 0 = b.headD 0
      · by_cases hend : b.headD 0 = 0
        · simp only [hheads, hend]
          simp
        · simp only [hheads, hend]
          simp [ih]
      · have hne : ((a.headD 0).toNat : Int) - (b.headD 0).toNat ≠ 0 := toNat_sub_ne_zero hheads
        refine iff_of_false (by simpa only [ne_eq, hheads, not_false_eq_true, if_true] using hne) ?_
        -- at most one of the two strings ends here
        split
        · rename_i hend
          have hother : b.headD 0 ≠ 0 := fun h => hheads (hend.trans h.symm)
          rw [if_neg hother]
          exact (List.cons_ne_nil _ _).symm
        · split
          · exact List.cons_ne_nil _ _
          · exact fun h => hheads (List.cons.inj h).1

/-- `strcmp(a, b) == 0`. -/
def strcmpEq (a b : Bytes) : Bool := cstr a == cstr b

@[simp] theorem strcmpEq_iff (a b : Bytes) : strcmpEq a b = true ↔ cstr a = cstr b := by
  simp [strcmpEq]

/-- A string with its terminator compares like the string. -/
theorem strcmpEq_append_nul_of_eq {s word : Bytes} (hword : cstr word = word)
    (h : cstr s = word) : strcmpEq (s ++ [0]) word = true := by
  rw [strcmpEq_iff, cstr_append_singleton_nul, hword]
  exact h

theorem strcmpEq_append_nul_of_ne {s word : Bytes} (hword : cstr word = word)
    (h : cstr s ≠ word) : strcmpEq (s ++ [0]) word = false := by
  rw [Bool.eq_false_iff, ne_eq, strcmpEq_iff, cstr_append_singleton_nul, hword]
  exact h

/-! ## Terminated buffers -/

/-- A character array of `n` bytes that holds a C string. -/
structure CharBuf (n : Nat) where
  /-- All `n` bytes, those behind the NUL included. -/
  bytes : Bytes
  length_eq : bytes.length = n
  /-- The terminating NUL stands inside the array. -/
  terminated : (0 : UInt8) ∈ bytes
  deriving DecidableEq

namespace CharBuf

/-- The array, as the destination of a copy. -/
def toBuf {n : Nat} (b : CharBuf n) : Buf n := ⟨b.bytes, b.length_eq⟩

/-- The C string in the buffer. -/
def str {n : Nat} (b : CharBuf n) : Bytes := cstr b.bytes

@[ext] theorem ext {n : Nat} {a b : CharBuf n} (h : a.bytes = b.bytes) : a = b := by
  cases a; cases b; cases h; rfl

theorem str_length_lt {n : Nat} (b : CharBuf n) : b.str.length < n := by
  have := cstr_length_lt b.terminated
  rw [b.length_eq] at this
  exact this

theorem nul_not_mem_str {n : Nat} (b : CharBuf n) : (0 : UInt8) ∉ b.str :=
  nul_not_mem_cstr b.bytes

@[simp] theorem cstr_str {n : Nat} (b : CharBuf n) : cstr b.str = b.str := cstr_cstr b.bytes

/-- The buffer's whole string survives a cut at its capacity. -/
theorem take_str {n : Nat} (b : CharBuf (n + 1)) : b.str.take n = b.str :=
  List.take_of_length_le (Nat.le_of_lt_succ b.str_length_lt)

/-- The buffer that holds at most `n` characters of the string `s`, padded with
NUL bytes. -/
def ofStr (n : Nat) (s : Bytes) : CharBuf (n + 1) where
  bytes := (cstr s).take n ++ List.replicate (n + 1 - ((cstr s).take n).length) 0
  length_eq := by
    simp only [List.length_append, List.length_replicate, List.length_take]
    omega
  terminated := by
    refine List.mem_append_right _ (List.mem_replicate.mpr ⟨?_, rfl⟩)
    simp only [List.length_take]
    omega

@[simp] theorem str_ofStr (n : Nat) (s : Bytes) : (ofStr n s).str = (cstr s).take n := by
  have hpad : 0 < n + 1 - ((cstr s).take n).length := by
    simp only [List.length_take]; omega
  obtain ⟨k, hk⟩ := Nat.exists_eq_succ_of_ne_zero (Nat.pos_iff_ne_zero.mp hpad)
  simp only [str, ofStr, hk, List.replicate_succ]
  exact cstr_append_nul (nul_not_mem_take (nul_not_mem_cstr s) n) _

/-- Two buffers of the same string, both padded with NUL bytes, are equal. -/
theorem ofStr_congr {n : Nat} {s t : Bytes} (h : (cstr s).take n = (cstr t).take n) :
    ofStr n s = ofStr n t := by
  apply ext
  simp only [ofStr, h]

end CharBuf

/-! ## Copying -/

/-- `strncpy(dst, src, n)`: at most `n` characters of the string, NUL bytes up
to `n`, and the rest of the array as it was. -/
def strncpy (n : Nat) (dst src : Bytes) : Bytes :=
  (cstr src).take n ++ List.replicate (n - (cstr src).length) 0 ++ dst.drop n

theorem strncpy_length {n : Nat} {dst : Bytes} (h : n ≤ dst.length) (src : Bytes) :
    (strncpy n dst src).length = dst.length := by
  simp only [strncpy, List.length_append, List.length_take, List.length_replicate,
    List.length_drop]
  omega

/-- `strncpy(dst, src, n); dst[n] = '\0';` on an array of `n + 1` bytes. -/
def copyTerminated {n : Nat} (dst : Buf (n + 1)) (src : Bytes) : CharBuf (n + 1) where
  bytes := (strncpy n dst.toList src).set n 0
  length_eq := by
    rw [List.length_set, strncpy_length (by simp)]
    simp
  terminated := by
    have hlen : n < (strncpy n dst.toList src).length := by
      rw [strncpy_length (by simp)]
      simp
    exact List.mem_set hlen 0

/-- Every byte of the destination is overwritten: what was there does not matter. -/
theorem copyTerminated_eq_ofStr {n : Nat} (dst : Buf (n + 1)) (src : Bytes) :
    copyTerminated dst src = CharBuf.ofStr n src := by
  apply CharBuf.ext
  have hdrop : ∃ c, dst.toList.drop n = [c] := by
    apply List.length_eq_one_iff.mp
    simp
  obtain ⟨c, hc⟩ := hdrop
  have hlen : ((cstr src).take n ++ List.replicate (n - (cstr src).length) (0 : UInt8)).length
      = n := by
    simp only [List.length_append, List.length_take, List.length_replicate]
    omega
  have hpad : n + 1 - ((cstr src).take n).length = (n - (cstr src).length) + 1 := by
    simp only [List.length_take]
    omega
  simp only [copyTerminated, strncpy, CharBuf.ofStr, hc, hpad]
  rw [List.set_append_right _ _ (by omega), hlen, Nat.sub_self, List.set_cons_zero,
    List.replicate_succ', List.append_assoc]

@[simp] theorem str_copyTerminated {n : Nat} (dst : Buf (n + 1)) (src : Bytes) :
    (copyTerminated dst src).str = (cstr src).take n := by
  rw [copyTerminated_eq_ofStr, CharBuf.str_ofStr]

/-! ## Formatting and concatenation -/

/-- `snprintf(buf, size, …)` with the formatted text `text`: what fits before
the terminator. -/
def snprintf (size : Nat) (text : Bytes) : Bytes := text.take (size - 1)

theorem snprintf_eq_self {size : Nat} {text : Bytes} (h : text.length < size) :
    snprintf size text = text :=
  List.take_of_length_le (by omega)

/-- `strncat(dst, src, n)` on the string in `dst`: at most `n` characters are added. -/
def strncat (n : Nat) (dst src : Bytes) : Bytes := dst ++ (cstr src).take n

/-- A string of at most `n` characters is appended whole. -/
theorem strncat_eq_append {n : Nat} {src : Bytes} (hnul : (0 : UInt8) ∉ src)
    (h : src.length ≤ n) (dst : Bytes) : strncat n dst src = dst ++ src := by
  rw [strncat, cstr_eq_self hnul, List.take_of_length_le h]

end ShardedLedger.CString
