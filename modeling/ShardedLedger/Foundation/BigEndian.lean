import ShardedLedger.Foundation.CString
set_option autoImplicit false

/-!
# Foundation: numbers as big-endian bytes

`bytes n` are the significant bytes of a number, most significant first;
`ofBytes` is the number a byte string denotes.

`mpzExport` and `mpzImport` are the two GMP functions on a byte array, with word
size 1 and order 1.  The export writes the significant bytes at the *start* of
the array and leaves the rest of it as it was.  So what an import of the whole
array yields depends on the length of the number: `Continuation` are the numbers
it can yield, and only a number that fills the array comes back as itself
(`mpzImport_mpzExport_of_full`, `exists_mpzExport_ne`).
-/

namespace ShardedLedger.BigEndian

open CString

/-- The significant bytes of a number, none for zero. -/
def bytes (n : Nat) : Bytes := (Nat.digits 256 n).reverse.map UInt8.ofNat

/-- The number that the bytes denote, most significant first. -/
def ofBytes (s : Bytes) : Nat := Nat.ofDigits 256 (s.reverse.map UInt8.toNat)

theorem toNat_lt_of_mem {s : Bytes} {d : Nat} (h : d ∈ s.map UInt8.toNat) : d < 256 := by
  obtain ⟨c, _, rfl⟩ := List.mem_map.mp h
  exact c.toNat_lt

theorem ofBytes_append (s t : Bytes) :
    ofBytes (s ++ t) = ofBytes s * 256 ^ t.length + ofBytes t := by
  simp only [ofBytes, List.reverse_append, List.map_append, Nat.ofDigits_append,
    List.length_map, List.length_reverse]
  ring

theorem ofBytes_lt (s : Bytes) : ofBytes s < 256 ^ s.length := by
  have h := Nat.ofDigits_lt_base_pow_length (b := 256) (l := s.reverse.map UInt8.toNat)
    (by decide) (fun d hd => toNat_lt_of_mem hd)
  simpa [ofBytes] using h

/-- Bytes of the same number and the same length are the same bytes. -/
theorem ofBytes_inj {s t : Bytes} (hlength : s.length = t.length)
    (h : ofBytes s = ofBytes t) : s = t := by
  have hdigits : s.reverse.map UInt8.toNat = t.reverse.map UInt8.toNat :=
    Nat.ofDigits_inj_of_len_eq (b := 256) (by decide) (by simpa using hlength)
      (fun d hd => toNat_lt_of_mem hd) (fun d hd => toNat_lt_of_mem hd) h
  have hinj : Function.Injective UInt8.toNat := fun a b hab => UInt8.toNat_inj.mp hab
  exact List.reverse_injective (List.map_injective_iff.mpr hinj hdigits)

@[simp] theorem ofBytes_replicate_zero (n : Nat) : ofBytes (List.replicate n 0) = 0 := by
  simp [ofBytes]

/-- Only zero bytes denote zero. -/
theorem ofBytes_eq_zero_iff (s : Bytes) : ofBytes s = 0 ↔ ∀ c ∈ s, c = 0 := by
  constructor
  · intro h
    have hzeros : s = List.replicate s.length 0 :=
      ofBytes_inj (by rw [List.length_replicate]) (by rw [h, ofBytes_replicate_zero])
    exact fun c hc => List.eq_of_mem_replicate (hzeros ▸ hc)
  · intro h
    rw [List.eq_replicate_of_mem h, ofBytes_replicate_zero]

@[simp] theorem ofBytes_bytes (n : Nat) : ofBytes (bytes n) = n := by
  have hdigits : (Nat.digits 256 n).map (UInt8.toNat ∘ UInt8.ofNat) = Nat.digits 256 n := by
    conv_rhs => rw [← List.map_id (Nat.digits 256 n)]
    refine List.map_congr_left ?_
    intro d hd
    have hlt : d < 256 := Nat.digits_lt_base (by decide) hd
    simpa using Nat.mod_eq_of_lt hlt
  rw [ofBytes, bytes, ← List.map_reverse, List.reverse_reverse, List.map_map, hdigits,
    Nat.ofDigits_digits]

theorem bytes_length_le_iff (n k : Nat) : (bytes n).length ≤ k ↔ n < 256 ^ k := by
  rw [bytes, List.length_map, List.length_reverse]
  exact Nat.digits_length_le_iff (by decide) n

/-- A number needs all of `k` bytes when it has a `k`-th digit. -/
theorem bytes_length_eq_iff {n k : Nat} (hk : 0 < k) (h : n < 256 ^ k) :
    (bytes n).length = k ↔ 256 ^ (k - 1) ≤ n := by
  have hle := (bytes_length_le_iff n k).mpr h
  have hshort := bytes_length_le_iff n (k - 1)
  rw [← Nat.not_lt, ← hshort]
  omega

/-- The `k`-byte encoding of a number below `256 ^ k`. -/
def encode (k n : Nat) : Bytes := List.replicate (k - (bytes n).length) 0 ++ bytes n

theorem encode_length {n k : Nat} (h : n < 256 ^ k) : (encode k n).length = k := by
  have hle := (bytes_length_le_iff n k).mpr h
  rw [encode, List.length_append, List.length_replicate]
  omega

@[simp] theorem ofBytes_encode (k n : Nat) : ofBytes (encode k n) = n := by
  rw [encode, ofBytes_append, ofBytes_replicate_zero, ofBytes_bytes, Nat.zero_mul, Nat.zero_add]

/-! ## Export and import -/

variable {k : Nat}

/-- `mpz_export(rop, NULL, 1, 1, 1, 0, op)`, as far as the array `rop` goes. -/
def mpzExport (rop : Buf k) (op : Nat) : Buf k :=
  ⟨(bytes op ++ rop.toList.drop (bytes op).length).take k, by
    simp only [List.length_take, List.length_append, List.length_drop, List.Vector.toList_length]
    omega⟩

/-- `mpz_import(rop, k, 1, 1, 1, 0, op)`. -/
def mpzImport (op : Buf k) : Nat := ofBytes op.toList

/-- The bytes of `y` that an array of `k` bytes offers begin with those of `n`. -/
def Continuation (k n y : Nat) : Prop :=
  ∃ r < 256 ^ (k - (bytes n).length), y = n * 256 ^ (k - (bytes n).length) + r

theorem mpzExport_toList {n : Nat} (h : n < 256 ^ k) (rop : Buf k) :
    (mpzExport rop n).toList = bytes n ++ rop.toList.drop (bytes n).length := by
  have hle := (bytes_length_le_iff n k).mpr h
  refine List.take_of_length_le ?_
  simp only [List.length_append, List.length_drop, List.Vector.toList_length]
  omega

theorem mpzImport_lt (op : Buf k) : mpzImport op < 256 ^ k := by
  have := ofBytes_lt op.toList
  rwa [List.Vector.toList_length] at this

theorem mpzImport_injective : Function.Injective (mpzImport : Buf k → Nat) := by
  intro s t h
  exact List.Vector.toList_injective (ofBytes_inj (by simp) h)

/-- Importing an exported number continues it. -/
theorem continuation_mpzImport_mpzExport {n : Nat} (h : n < 256 ^ k) (rop : Buf k) :
    Continuation k n (mpzImport (mpzExport rop n)) := by
  refine ⟨ofBytes (rop.toList.drop (bytes n).length), ?_, ?_⟩
  · have := ofBytes_lt (rop.toList.drop (bytes n).length)
    rwa [List.length_drop, List.Vector.toList_length] at this
  · rw [mpzImport, mpzExport_toList h, ofBytes_append, ofBytes_bytes, List.length_drop,
      List.Vector.toList_length]

/-- Every continuation is what some previous content of the array leads to. -/
theorem exists_mpzExport {n y : Nat} (h : n < 256 ^ k) (hy : Continuation k n y) :
    ∃ rop : Buf k, mpzImport (mpzExport rop n) = y := by
  obtain ⟨r, hr, rfl⟩ := hy
  have hle := (bytes_length_le_iff n k).mpr h
  let s := encode (k - (bytes n).length) r
  have hs : s.length = k - (bytes n).length := encode_length hr
  have hlength : (bytes n ++ s).length = k := by
    rw [List.length_append, hs]
    omega
  let rop : Buf k := ⟨bytes n ++ s, hlength⟩
  have hrop : rop.toList = bytes n ++ s := rfl
  refine ⟨rop, ?_⟩
  rw [mpzImport, mpzExport_toList h, hrop, List.drop_left' rfl, ofBytes_append, ofBytes_bytes,
    ofBytes_encode, hs]

/-- A number that fills the array has no continuation but itself. -/
theorem continuation_iff_of_full {n : Nat} (hfull : 256 ^ (k - 1) ≤ n) (h : n < 256 ^ k)
    (y : Nat) : Continuation k n y ↔ y = n := by
  have hlength : (bytes n).length = k := by
    have hle := (bytes_length_le_iff n k).mpr h
    have hnot : ¬ (bytes n).length ≤ k - 1 := by
      rw [bytes_length_le_iff]
      exact Nat.not_lt.mpr hfull
    omega
  simp [Continuation, hlength]

/-- A number that fills the array comes back as itself. -/
theorem mpzImport_mpzExport_of_full {n : Nat} (hfull : 256 ^ (k - 1) ≤ n) (h : n < 256 ^ k)
    (rop : Buf k) : mpzImport (mpzExport rop n) = n :=
  (continuation_iff_of_full hfull h _).mp (continuation_mpzImport_mpzExport h rop)

/-- The array of an exported number that fills it does not depend on its
previous content. -/
theorem mpzExport_of_full {n : Nat} (hfull : 256 ^ (k - 1) ≤ n) (h : n < 256 ^ k)
    (rop rop' : Buf k) : mpzExport rop n = mpzExport rop' n := by
  apply mpzImport_injective
  rw [mpzImport_mpzExport_of_full hfull h, mpzImport_mpzExport_of_full hfull h]

/-- The array of a shorter number does. -/
theorem exists_mpzExport_ne {n : Nat} (hk : 0 < k) (hshort : n < 256 ^ (k - 1)) :
    ∃ rop rop' : Buf k, mpzExport rop n ≠ mpzExport rop' n := by
  have h : n < 256 ^ k :=
    Nat.lt_of_lt_of_le hshort (Nat.pow_le_pow_right (by decide) (Nat.sub_le k 1))
  have hroom : 1 < 256 ^ (k - (bytes n).length) := by
    have hle := (bytes_length_le_iff n (k - 1)).mpr hshort
    exact Nat.one_lt_pow (by omega) (by decide)
  obtain ⟨rop, hrop⟩ := exists_mpzExport h ⟨0, by omega, rfl⟩
  obtain ⟨rop', hrop'⟩ := exists_mpzExport h ⟨1, hroom, rfl⟩
  refine ⟨rop, rop', ?_⟩
  intro heq
  rw [heq, hrop'] at hrop
  omega

/-! ## Round trips -/

/-- Exporting a number encodes it, whatever the array held, exactly when it needs
all bytes of the array. -/
theorem mpzExport_eq_encode_iff {n : Nat} (h : n < 256 ^ k) :
    (∀ rop : Buf k, (mpzExport rop n).toList = encode k n ∧ mpzImport (mpzExport rop n) = n) ↔
      (bytes n).length = k := by
  constructor
  · intro hall
    by_contra hshort
    have hle := (bytes_length_le_iff n k).mpr h
    obtain ⟨rop, rop', hne⟩ := exists_mpzExport_ne (k := k) (n := n) (by omega)
      ((bytes_length_le_iff n (k - 1)).mp (by omega))
    exact hne (List.Vector.toList_injective ((hall rop).1.trans (hall rop').1.symm))
  · intro hfull rop
    have hlist : (mpzExport rop n).toList = encode k n := by
      rw [mpzExport_toList h, encode, hfull, Nat.sub_self, List.replicate_zero, List.nil_append,
        List.drop_of_length_le (by rw [List.Vector.toList_length]), List.append_nil]
    exact ⟨hlist, by rw [mpzImport, hlist, ofBytes_encode]⟩

/-- Importing an array and exporting the number again restores the array exactly
when the number needs all its bytes. -/
theorem mpzExport_mpzImport_iff (op : Buf k) :
    (∀ rop : Buf k, mpzExport rop (mpzImport op) = op) ↔ (bytes (mpzImport op)).length = k := by
  rw [← mpzExport_eq_encode_iff (mpzImport_lt op)]
  constructor
  · intro hall rop
    have hencode : op.toList = encode k (mpzImport op) :=
      ofBytes_inj (by rw [encode_length (mpzImport_lt op), List.Vector.toList_length])
        (ofBytes_encode k (mpzImport op)).symm
    rw [hall rop]
    exact ⟨hencode, rfl⟩
  · intro hall rop
    exact mpzImport_injective (hall rop).2

/-- The number in an array needs all its bytes when the first is not zero. -/
theorem bytes_mpzImport_length_iff (op : Buf (k + 1)) :
    (bytes (mpzImport op)).length = k + 1 ↔ op.head ≠ 0 := by
  rw [bytes_length_eq_iff (Nat.succ_pos k) (mpzImport_lt op), Nat.succ_sub_one]
  obtain ⟨s, hs⟩ := op
  cases s with
  | nil => simp at hs
  | cons c rest =>
      have hrest : rest.length = k := by simpa using hs
      have hlt := ofBytes_lt rest
      rw [hrest] at hlt
      have hvalue : mpzImport (⟨c :: rest, hs⟩ : Buf (k + 1)) = c.toNat * 256 ^ k + ofBytes rest := by
        change ofBytes ([c] ++ rest) = _
        rw [ofBytes_append, hrest]
        simp [ofBytes]
      rw [hvalue]
      change _ ↔ c ≠ 0
      constructor
      · rintro hle rfl
        simp only [UInt8.toNat_zero, Nat.zero_mul, Nat.zero_add] at hle
        omega
      · intro hc
        have hpos : 1 ≤ c.toNat := Nat.pos_of_ne_zero fun h => hc (UInt8.toNat_inj.mp h)
        calc 256 ^ k = 1 * 256 ^ k := (Nat.one_mul _).symm
          _ ≤ c.toNat * 256 ^ k := Nat.mul_le_mul_right _ hpos
          _ ≤ c.toNat * 256 ^ k + ofBytes rest := Nat.le_add_right _ _

end ShardedLedger.BigEndian
