import ShardedLedger.Client.Main
set_option autoImplicit false

/-!
# Client: the socket after an error

`store_data` and `retrieve_data` close the socket when the response cannot be
received, and return nothing; `main` goes on with its loop and closes the socket
once more behind it.  So a closed socket is left alone exactly in the runs in
which no response fails (`neverUsedAfterError_iff`).
-/

namespace ShardedLedger.Client

open CString Channel

/-- Behind a failed response and the closing of the socket no call follows. -/
def NeverUsedAfterError (calls : List Call) : Prop :=
  ∀ before after, calls = before ++ .receive none :: .close :: after → after = []

theorem neverUsedAfterError_nil : NeverUsedAfterError [] := by
  intro before after heq
  exact absurd heq.symm (by simp)

/-- A call that is no failed response may be taken off. -/
theorem neverUsedAfterError_cons {call : Call} (h : call ≠ .receive none) (calls : List Call) :
    NeverUsedAfterError (call :: calls) ↔ NeverUsedAfterError calls := by
  constructor
  · intro hall before after heq
    exact hall (call :: before) after (by rw [heq, List.cons_append])
  · intro hall before after heq
    cases before with
    | nil => exact absurd (List.cons.inj heq).1 h
    | cons first before => exact hall before after (List.cons.inj heq).2

/-- A failed response with anything behind the closing. -/
theorem not_neverUsedAfterError {calls : List Call} (h : calls ≠ []) :
    ¬ NeverUsedAfterError (.receive none :: .close :: calls) :=
  fun hall => h (hall [] calls rfl)

/-- The iterations in which the loop waits for a response: the commands `store`
and `retrieve`, up to the first `exit`. -/
def responding : List Iteration → List Iteration
  | [] => []
  | iteration :: rest =>
      let command := (cstr iteration.line).takeWhile (· ≠ 10)
      if strcmpEq command (ascii "store") || strcmpEq command (ascii "retrieve") then
        iteration :: responding rest
      else if strcmpEq command (ascii "exit") then []
      else responding rest

variable (aes : AesGcm) (sessionKey : SessionKey)

/-- The response of the iteration is received. -/
def Succeeds (iteration : Iteration) : Prop :=
  receiveEncyptedData aes sessionKey (recv expectedPayloadLen iteration.pending) ≠ none

/-- Every run ends with the closing of the socket. -/
theorem commandLoop_ne_nil (nonces : Stream' Nonce) (iterations : List Iteration) :
    commandLoop aes sessionKey nonces iterations ≠ [] := by
  induction iterations generalizing nonces with
  | nil => exact List.cons_ne_nil _ _
  | cons iteration rest ih =>
      unfold commandLoop
      dsimp only
      split
      · exact List.cons_ne_nil _ _
      · split
        · exact List.cons_ne_nil _ _
        · split
          · exact List.cons_ne_nil _ _
          · exact ih nonces

/-- A request and its response, with the rest of the run behind them. -/
theorem neverUsedAfterError_request (payload : Bytes) (iteration : Iteration)
    {calls : List Call} (hne : calls ≠ []) :
    NeverUsedAfterError
        (.send payload :: receiveResponse aes sessionKey iteration.pending ++ calls) ↔
      Succeeds aes sessionKey iteration ∧ NeverUsedAfterError calls := by
  rw [List.cons_append, neverUsedAfterError_cons (by simp), receiveResponse, Succeeds]
  cases hreceived : receiveEncyptedData aes sessionKey
      (recv expectedPayloadLen iteration.pending) with
  | none => exact iff_of_false (not_neverUsedAfterError hne) (fun h => h.1 rfl)
  | some data =>
      rw [List.singleton_append, neverUsedAfterError_cons (by simp)]
      exact ⟨fun h => ⟨Option.some_ne_none data, h⟩, fun h => h.2⟩

/-- **The socket is never used after an error** exactly when every response is
received that the client waits for, from the first command to the `exit` or the
end of the input. -/
theorem neverUsedAfterError_iff (nonces : Stream' Nonce) (iterations : List Iteration) :
    NeverUsedAfterError (commandLoop aes sessionKey nonces iterations) ↔
      ∀ iteration ∈ responding iterations, Succeeds aes sessionKey iteration := by
  induction iterations generalizing nonces with
  | nil =>
      refine iff_of_true ?_ (fun iteration h => absurd h List.not_mem_nil)
      exact (neverUsedAfterError_cons (by simp) []).mpr neverUsedAfterError_nil
  | cons iteration rest ih =>
      have hrest : commandLoop aes sessionKey nonces.tail rest ≠ [] :=
        commandLoop_ne_nil aes sessionKey _ _
      unfold commandLoop responding
      dsimp only
      cases hstore : strcmpEq ((cstr iteration.line).takeWhile (· ≠ 10)) (ascii "store") with
      | true =>
          rw [if_pos rfl, Bool.true_or, if_pos rfl, List.forall_mem_cons, ← ih nonces.tail]
          exact neverUsedAfterError_request aes sessionKey _ iteration hrest
      | false =>
          rw [if_neg Bool.false_ne_true, Bool.false_or]
          cases hretrieve : strcmpEq ((cstr iteration.line).takeWhile (· ≠ 10))
              (ascii "retrieve") with
          | true =>
              rw [if_pos rfl, if_pos rfl, List.forall_mem_cons, ← ih nonces.tail]
              exact neverUsedAfterError_request aes sessionKey _ iteration hrest
          | false =>
              rw [if_neg Bool.false_ne_true, if_neg Bool.false_ne_true]
              split
              · refine iff_of_true ?_ (fun iteration h => absurd h List.not_mem_nil)
                rw [neverUsedAfterError_cons (by simp), neverUsedAfterError_cons (by simp)]
                exact neverUsedAfterError_nil
              · exact ih nonces

/-- A `store` whose response fails, and a `retrieve` behind it. -/
def failedStore : List Iteration :=
  [⟨ascii "store\n", 7, none⟩, ⟨ascii "retrieve\n", 7, none⟩]

/-- The client sends, receives and closes again on the closed socket. -/
theorem failedStore_uses_closed_socket (nonces : Stream' Nonce) :
    ¬ NeverUsedAfterError (commandLoop aes sessionKey nonces failedStore) := by
  have hstore : strcmpEq ((cstr (ascii "store\n")).takeWhile (· ≠ 10)) (ascii "store") = true := by
    decide
  unfold failedStore commandLoop
  dsimp only
  rw [hstore, if_pos rfl, storeData, neverUsedAfterError_request aes sessionKey _
    (⟨ascii "store\n", 7, none⟩ : Iteration) (commandLoop_ne_nil aes sessionKey _ _)]
  exact fun h => h.1 rfl

/-- The same with a cipher, a key and nonces. -/
theorem failedStore_run :
    ¬ NeverUsedAfterError
      (commandLoop clearAes (List.Vector.replicate _ 0)
        (Stream'.const (List.Vector.replicate _ 0)) failedStore) :=
  failedStore_uses_closed_socket clearAes _ _

end ShardedLedger.Client
