import ShardedLedger.Channel.Record
set_option autoImplicit false

/-!
# Client: the command loop (`client/client.c`)

After the key exchange the client reads one command after the other.  A run of
the loop is the list of calls it makes on its socket.
-/

namespace ShardedLedger.Client

open CString Channel

/-- `MAX_LINE` of `client.c`. -/
abbrev maxLine : Nat := 256

/-- A call on the socket of the client. -/
inductive Call where
  /-- `send_encypted_data`, with the payload it sends. -/
  | send (payload : Bytes)
  /-- `receive_encypted_data`, with the data it accepts. -/
  | receive (data : Option Bytes)
  | close
  deriving DecidableEq

/-- What one iteration of the loop finds: the line typed, the random number of
`generate_random_data`, and what reaches the socket next. -/
structure Iteration where
  line : Bytes
  rand : Nat
  pending : Option Bytes

variable (aes : AesGcm) (sessionKey : SessionKey)

/-- `generate_random_data` with a buffer of `MAX_LINE` bytes. -/
def generateRandomData (rand : Nat) : Bytes :=
  snprintf maxLine (ascii "RandomData_" ++ ascii (Nat.repr rand))

/-- The end of `store_data` and `retrieve_data`: the response is received, and
the socket is closed when that fails. -/
def receiveResponse (pending : Option Bytes) : List Call :=
  match receiveEncyptedData aes sessionKey (recv expectedPayloadLen pending) with
  | none => [.receive none, .close]
  | some data => [.receive (some data)]

/-- `store_data`. -/
def storeData (nonce : Nonce) (rand : Nat) (pending : Option Bytes) : List Call :=
  .send (sendEncyptedData aes sessionKey nonce (generateRandomData rand)) ::
    receiveResponse aes sessionKey pending

/-- `retrieve_data`, which sends its whole buffer. -/
def retrieveData (nonce : Nonce) (pending : Option Bytes) : List Call :=
  .send (sendEncyptedData aes sessionKey nonce
      (CharBuf.ofStr (maxLine - 1) (ascii "RETRIEVE")).bytes) ::
    receiveResponse aes sessionKey pending

/-- The loop of `main`, and the closing of the socket behind it. -/
def commandLoop : Stream' Nonce → List Iteration → List Call
  -- the input has ended
  | _, [] => [.close]
  | nonces, iteration :: rest =>
      let command := (cstr iteration.line).takeWhile (· ≠ 10)
      if strcmpEq command (ascii "store") then
        storeData aes sessionKey nonces.head iteration.rand iteration.pending ++
          commandLoop nonces.tail rest
      else if strcmpEq command (ascii "retrieve") then
        retrieveData aes sessionKey nonces.head iteration.pending ++ commandLoop nonces.tail rest
      else if strcmpEq command (ascii "exit") then
        [.send (sendEncyptedData aes sessionKey nonces.head (ascii "EXIT")), .close]
      else commandLoop nonces rest

/-- The call sends data or accepts data. -/
def Call.UsesSession : Call → Prop
  | .send _ => True
  | .receive data => data.isSome
  | .close => False

/-! ## What the loop sends -/

/-- The payloads among the calls. -/
def payloads (calls : List Call) : List Bytes :=
  calls.filterMap fun
    | .send payload => some payload
    | _ => none

theorem payloads_append (calls calls' : List Call) :
    payloads (calls ++ calls') = payloads calls ++ payloads calls' := List.filterMap_append

theorem mem_payloads {payload : Bytes} {calls : List Call} :
    payload ∈ payloads calls ↔ .send payload ∈ calls := by
  unfold payloads
  rw [List.mem_filterMap]
  constructor
  · rintro ⟨call, hmem, hcall⟩
    cases call with
    | send payload' =>
        obtain rfl := Option.some.inj hcall
        exact hmem
    | receive data => simp at hcall
    | close => simp at hcall
  · intro h
    exact ⟨_, h, rfl⟩

theorem payloads_receiveResponse (pending : Option Bytes) :
    payloads (receiveResponse aes sessionKey pending) = [] := by
  unfold receiveResponse
  split
  · rfl
  · rfl

theorem payloads_storeData (nonce : Nonce) (rand : Nat) (pending : Option Bytes) :
    payloads (storeData aes sessionKey nonce rand pending) =
      [sendEncyptedData aes sessionKey nonce (generateRandomData rand)] :=
  congrArg (_ :: ·) (payloads_receiveResponse aes sessionKey pending)

theorem payloads_retrieveData (nonce : Nonce) (pending : Option Bytes) :
    payloads (retrieveData aes sessionKey nonce pending) =
      [sendEncyptedData aes sessionKey nonce
        (CharBuf.ofStr (maxLine - 1) (ascii "RETRIEVE")).bytes] :=
  congrArg (_ :: ·) (payloads_receiveResponse aes sessionKey pending)

/-- **The n-th record** is made with the n-th nonce, of at most `MAX_LINE` bytes. -/
theorem payloads_commandLoop (nonces : Stream' Nonce) (iterations : List Iteration) :
    ∃ messages : List Bytes, (∀ m ∈ messages, m.length ≤ maxLine) ∧
      payloads (commandLoop aes sessionKey nonces iterations) =
        List.zipWith (sendEncyptedData aes sessionKey) (nonces.take messages.length) messages := by
  induction iterations generalizing nonces with
  | nil => exact ⟨[], by simp, rfl⟩
  | cons iteration rest ih =>
      unfold commandLoop
      dsimp only
      split
      · obtain ⟨messages, hlength, hrest⟩ := ih nonces.tail
        refine ⟨generateRandomData iteration.rand :: messages, ?_, ?_⟩
        · rw [List.forall_mem_cons]
          exact ⟨Nat.le_trans (List.length_take_le _ _) (by decide), hlength⟩
        · rw [payloads_append, payloads_storeData, hrest]
          rfl
      · split
        · obtain ⟨messages, hlength, hrest⟩ := ih nonces.tail
          refine ⟨(CharBuf.ofStr (maxLine - 1) (ascii "RETRIEVE")).bytes :: messages, ?_, ?_⟩
          · rw [List.forall_mem_cons]
            exact ⟨Nat.le_of_eq (CharBuf.ofStr _ _).length_eq, hlength⟩
          · rw [payloads_append, payloads_retrieveData, hrest]
            rfl
        · split
          · exact ⟨[ascii "EXIT"], by decide, rfl⟩
          · exact ih nonces

/-- Every command sends one record at most. -/
theorem payloads_commandLoop_length_le (nonces : Stream' Nonce) (iterations : List Iteration) :
    (payloads (commandLoop aes sessionKey nonces iterations)).length ≤ iterations.length := by
  induction iterations generalizing nonces with
  | nil => exact Nat.le_refl _
  | cons iteration rest ih =>
      unfold commandLoop
      dsimp only
      split
      · rw [payloads_append, payloads_storeData]
        exact Nat.succ_le_succ (ih nonces.tail)
      · split
        · rw [payloads_append, payloads_retrieveData]
          exact Nat.succ_le_succ (ih nonces.tail)
        · split
          · exact Nat.succ_le_succ (Nat.zero_le _)
          · exact Nat.le_succ_of_le (ih nonces)

/-- And `retrieve` sends one. -/
theorem payloads_retrieves_length (nonces : Stream' Nonce) (rand : Nat)
    (pending : Option Bytes) (count : Nat) :
    (payloads (commandLoop aes sessionKey nonces
      (List.replicate count ⟨ascii "retrieve\n", rand, pending⟩))).length = count := by
  induction count generalizing nonces with
  | zero => rfl
  | succ count ih =>
      have hstore : strcmpEq ((cstr (ascii "retrieve\n")).takeWhile (· ≠ 10)) (ascii "store") =
          false := by decide
      have hretrieve : strcmpEq ((cstr (ascii "retrieve\n")).takeWhile (· ≠ 10))
          (ascii "retrieve") = true := by decide
      rw [List.replicate_succ]
      unfold commandLoop
      dsimp only
      rw [hstore, hretrieve, if_neg Bool.false_ne_true, if_pos rfl, payloads_append,
        payloads_retrieveData]
      exact congrArg (· + 1) (ih nonces.tail)

end ShardedLedger.Client
