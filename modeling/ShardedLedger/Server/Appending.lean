import ShardedLedger.Foundation.Arrays
import ShardedLedger.Server.Retrieve
set_option autoImplicit false

/-!
# Server: the reply loop on its array

`retrieve_data` and the router collect a reply piece by piece with

    strncat(array, piece, capacity - strlen(array) - 1)

whose size argument is unsigned.  `appendPieces` is that loop on the array
itself; it has no result once a write leaves the array.  One round never does,
and its size argument is the room that is left (`appendPiece_spec`); so no round
of any loop does, and the loop on strings is the loop on the array
(`renderLoop_eq`).
-/

namespace ShardedLedger.Server

open CString Sha256

variable {capacity : Nat}

/-- An array initialised with `{0}`. -/
def zeroArray (n : Nat) : CharBuf (n + 1) := CharBuf.ofStr n []

@[simp] theorem zeroArray_str (n : Nat) : (zeroArray n).str = [] := by simp [zeroArray]

/-- One round of the loop. -/
def appendPiece (array : CharBuf capacity) (piece : Bytes) : Option (CharBuf capacity) :=
  array.strncat (roomLeft capacity array.str) piece

/-- The rounds of the loop, as long as they stay inside the array. -/
def appendPieces : CharBuf capacity → List Bytes → Option (CharBuf capacity)
  | array, [] => some array
  | array, piece :: rest => (appendPiece array piece).bind fun next => appendPieces next rest

/-- What is asked of a round: the string ends strictly inside the array, the size
argument has not wrapped, and the write stays inside. -/
structure RoundSafe (array : CharBuf capacity) (piece : Bytes) : Prop where
  terminated : array.str.length < capacity
  room : array.str.length + 1 + roomLeft capacity array.str = capacity
  inside : (appendPiece array piece).isSome

/-- Every round of the loop is safe, in the array that the rounds before it left. -/
def EveryRoundSafe (start : CharBuf capacity) (pieces : List Bytes) : Prop :=
  ∀ front piece back, pieces = front ++ piece :: back →
    ∃ array, appendPieces start front = some array ∧ RoundSafe array piece

section Loop

variable (hcapacity : capacity < 2 ^ 64)

include hcapacity

/-- A round appends what fits. -/
theorem appendPiece_spec (array : CharBuf capacity) (piece : Bytes) :
    ∃ next, appendPiece array piece = some next ∧
      next.str = (array.str ++ cstr piece).take (capacity - 1) := by
  have hinside := array.str_length_lt
  have hroom : roomLeft capacity array.str = capacity - 1 - array.str.length :=
    roomLeft_eq hinside hcapacity
  have hfits : array.str.length + ((cstr piece).take (roomLeft capacity array.str)).length <
      capacity := by
    rw [List.length_take, hroom]
    omega
  obtain ⟨next, hnext, hstr⟩ := CharBuf.exists_strncat hfits
  refine ⟨next, hnext, ?_⟩
  rw [hstr, strncat, hroom, List.take_append,
    List.take_of_length_le (by omega : array.str.length ≤ capacity - 1)]

theorem roundSafe (array : CharBuf capacity) (piece : Bytes) : RoundSafe array piece := by
  obtain ⟨next, hnext, _⟩ := appendPiece_spec hcapacity array piece
  have hinside := array.str_length_lt
  refine ⟨hinside, ?_, by rw [hnext]; rfl⟩
  rw [roomLeft_eq hinside hcapacity]
  omega

/-- The loop always ends with an array, and keeps what fits of all pieces. -/
theorem appendPieces_spec (array : CharBuf capacity) (pieces : List Bytes) :
    ∃ result, appendPieces array pieces = some result ∧
      result.str = (array.str ++ (pieces.map cstr).flatten).take (capacity - 1) := by
  induction pieces generalizing array with
  | nil =>
      have hinside := array.str_length_lt
      refine ⟨array, rfl, ?_⟩
      rw [List.map_nil, List.flatten_nil, List.append_nil]
      exact (List.take_of_length_le (by omega)).symm
  | cons piece rest ih =>
      obtain ⟨next, hnext, hstr⟩ := appendPiece_spec hcapacity array piece
      obtain ⟨result, hresult, htext⟩ := ih next
      refine ⟨result, by rw [appendPieces, hnext, Option.bind_some, hresult], ?_⟩
      rw [htext, hstr, take_append_take, List.map_cons, List.flatten_cons, List.append_assoc]

theorem everyRoundSafe (start : CharBuf capacity) (pieces : List Bytes) :
    EveryRoundSafe start pieces := by
  intro front piece back _
  obtain ⟨array, harray, _⟩ := appendPieces_spec hcapacity start front
  exact ⟨array, harray, roundSafe hcapacity array piece⟩

end Loop

/-- A round on the array is a `strncat` on its string. -/
theorem str_of_appendPiece {array next : CharBuf capacity} {piece : Bytes}
    (h : appendPiece array piece = some next) :
    next.str = strncat (roomLeft capacity array.str) array.str piece := by
  unfold appendPiece CharBuf.strncat at h
  dsimp only at h
  split at h
  · rename_i hroom
    obtain ⟨next', hnext, hstr⟩ := CharBuf.exists_strncat hroom
    rw [CharBuf.strncat, dif_pos hroom] at hnext
    rw [← hstr, ← Option.some.inj h, ← Option.some.inj hnext]
  · simp at h

/-- The loop of `retrieve_data` on its array is the loop on its string. -/
theorem renderLoop_eq {array result : CharBuf maxResponseLength} {chain : List Block}
    (h : appendPieces array (chain.map blockInfo) = some result) :
    renderLoop array.str chain = result.str := by
  induction chain generalizing array with
  | nil => exact congrArg CharBuf.str (Option.some.inj h)
  | cons block rest ih =>
      rw [List.map_cons, appendPieces] at h
      obtain ⟨next, hnext, hrest⟩ := Option.bind_eq_some_iff.mp h
      rw [renderLoop, ← str_of_appendPiece hnext]
      exact ih hrest

/-- `response` of `retrieve_data`, before the loop. -/
def emptyResponse : CharBuf maxResponseLength := zeroArray 25599

@[simp] theorem emptyResponse_str : emptyResponse.str = [] := zeroArray_str 25599

variable (sha256 : Bytes → Digest)

/-- The loop of `retrieve_data` on a chain: each of its rounds is safe, no text
of a block is cut, and it ends with an array that holds the first 25599 bytes of
the texts of all blocks. -/
def RenderLoopSafe (chain : List Block) : Prop :=
  let blocks := (retrieveData sha256 chain).blocks
  EveryRoundSafe emptyResponse (blocks.map blockInfo) ∧
    (∀ block ∈ blocks, blockInfo block = entry block) ∧
    ∃ array : CharBuf maxResponseLength,
      appendPieces emptyResponse (blocks.map blockInfo) = some array ∧
      array.str = (render blocks).take 25599

theorem renderLoopSafe (chain : List Block) : RenderLoopSafe sha256 chain := by
  have hcapacity : maxResponseLength < 2 ^ 64 := by decide
  refine ⟨everyRoundSafe hcapacity _ _, fun block _ => blockInfo_eq_entry block, ?_⟩
  obtain ⟨array, harray, _⟩ := appendPieces_spec hcapacity
    emptyResponse ((retrieveData sha256 chain).blocks.map blockInfo)
  have hloop := renderLoop_eq harray
  rw [emptyResponse_str, renderLoop_eq_take _ (by decide), List.nil_append] at hloop
  exact ⟨array, harray, hloop.symm⟩

/-- The reply is the text that the loop leaves. -/
def ShowsFront (chain : List Block) : Prop :=
  (retrieveData sha256 chain).response =
    (render (retrieveData sha256 chain).blocks).take 25599

theorem showsFront_of_accepted {chain : List Block} (hne : chain ≠ [])
    (hvalid : (validateBlockchain sha256 chain).valid = true) : ShowsFront sha256 chain := by
  rw [ShowsFront, retrieveData_response_of_accepted sha256 hvalid,
    contents_of_ne_nil (retrieveData_blocks_ne_nil sha256 hne)]
  rfl

theorem retrieveData_response_nil : (retrieveData sha256 []).response = ascii "NO_DATA" := by
  change snprintf maxResponseLength (ascii "NO_DATA") = ascii "NO_DATA"
  decide

end ShardedLedger.Server
