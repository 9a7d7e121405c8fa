import ShardedLedger.Foundation.CString
set_option autoImplicit false

/-!
# Foundation: strings written into arrays

`writeString` puts a string and its terminator into an array, from an offset on;
it is what `sprintf` and `strncat` do to the memory they are given.
`CharBuf.strncat` is the second one with its array: it has no result when the
write would leave the array.
-/

namespace ShardedLedger.CString

/-- The array with the bytes `s` written from `offset` on. -/
def writeAt (offset : Nat) (s array : Bytes) : Bytes :=
  array.take offset ++ s ++ array.drop (offset + s.length)

theorem writeAt_length {offset : Nat} {s array : Bytes}
    (h : offset + s.length ≤ array.length) : (writeAt offset s array).length = array.length := by
  simp only [writeAt, List.length_append, List.length_take, List.length_drop]
  omega

/-- Up to the end of what was written, the array is what stood before the
offset and what was written. -/
theorem take_writeAt {offset : Nat} {s array : Bytes} (h : offset ≤ array.length) :
    (writeAt offset s array).take (offset + s.length) = array.take offset ++ s := by
  have hlength : (array.take offset ++ s).length = offset + s.length := by
    rw [List.length_append, List.length_take, Nat.min_eq_left h]
  rw [writeAt, ← hlength, List.take_left]

/-- The array with the string `s` and a terminator written from `offset` on. -/
def writeString (offset : Nat) (s array : Bytes) : Bytes := writeAt offset (s ++ [0]) array

theorem writeString_length {offset : Nat} {s array : Bytes}
    (h : offset + s.length < array.length) :
    (writeString offset s array).length = array.length :=
  writeAt_length (by rw [List.length_append, List.length_singleton]; omega)

/-- The string in the array is then what stood before the offset, and `s`. -/
theorem cstr_writeString {offset : Nat} {s array : Bytes} (hs : (0 : UInt8) ∉ s)
    (harray : (0 : UInt8) ∉ array.take offset) :
    cstr (writeString offset s array) = array.take offset ++ s := by
  have hfront : (0 : UInt8) ∉ array.take offset ++ s := by
    rw [List.mem_append, not_or]
    exact ⟨harray, hs⟩
  rw [writeString, writeAt, ← List.append_assoc, List.append_assoc, List.singleton_append]
  exact cstr_append_nul hfront _

/-- The string stands at the beginning of its array. -/
theorem take_cstr_length (array : Bytes) : array.take (cstr array).length = cstr array :=
  (List.prefix_iff_eq_take.mp (cstr_initial array)).symm

namespace CharBuf

variable {capacity : Nat}

/-- `strncat(dst, src, n)` on the array `dst`, when what is added and the
terminator stay inside. -/
def strncat (n : Nat) (dst : CharBuf capacity) (src : Bytes) : Option (CharBuf capacity) :=
  let added := (cstr src).take n
  if h : dst.str.length + added.length < capacity then
    some
      { bytes := writeString dst.str.length added dst.bytes
        length_eq := by
          rw [writeString_length (by rw [dst.length_eq]; exact h), dst.length_eq]
        terminated := by
          refine List.mem_append_left _ (List.mem_append_right _ ?_)
          exact List.mem_append_right _ List.mem_cons_self }
  else none

/-- With room for the string and the terminator the call appends to the string. -/
theorem exists_strncat {n : Nat} {dst : CharBuf capacity} {src : Bytes}
    (h : dst.str.length + ((cstr src).take n).length < capacity) :
    ∃ buf, strncat n dst src = some buf ∧ buf.str = CString.strncat n dst.str src := by
  refine ⟨_, dif_pos h, ?_⟩
  have hfront : dst.bytes.take dst.str.length = dst.str := take_cstr_length dst.bytes
  rw [str, cstr_writeString (nul_not_mem_take (nul_not_mem_cstr src) n)
    (by rw [hfront]; exact dst.nul_not_mem_str), hfront, CString.strncat]

end CharBuf

end ShardedLedger.CString
