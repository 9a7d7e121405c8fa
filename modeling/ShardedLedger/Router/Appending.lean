import ShardedLedger.Router.HandleClient
import ShardedLedger.Server.Appending
import ShardedLedger.Server.Representation
set_option autoImplicit false

/-!
# Router: the reply loop on its array

The `RETRIEVE` branch of the router collects the replies of the shards with the
same loop as `retrieve_data`, in an array of 307200 bytes.  Nothing is assumed
of what the shards answer but that one `recv` delivered it.
-/

namespace ShardedLedger.Router

open CString Channel Server Sha256

variable {σ : Type} (aes : AesGcm) (serverSessionKeys : Fin numServers → SessionKey)
  (exchange : Exchange σ)

/-- What comes from the server sockets is the result of one `recv`. -/
def Exchange.Received : Prop :=
  ∀ i payload servers received, (exchange i payload servers).1 = some received →
    received.length ≤ expectedPayloadLen

/-- The servers, in the order of the loop, each with the string its reply leaves
in `server_response`. -/
def replies (message : Bytes) :
    List (Fin numServers) → RouterState σ → List (Fin numServers × Bytes)
  | [], _ => []
  | i :: rest, state =>
      let (serverResponse, state) :=
        sendCommandToServer aes serverSessionKeys exchange i message state
      (i, serverResponse) :: replies message rest state

/-- The string in `server_response` has at most 2048 characters. -/
theorem sendCommandToServer_length_le (hreceived : exchange.Received) (i : Fin numServers)
    (message : Bytes) (state : RouterState σ) :
    (sendCommandToServer aes serverSessionKeys exchange i message state).1.length ≤ 2048 := by
  simp only [sendCommandToServer]
  split
  · decide
  · decide
  · rename_i ubuffer _ hdecrypted
    cases hrecv : (exchange i (sendEncyptedData aes (serverSessionKeys i) state.nonces.head
        (cstr message)) state.servers).1 with
    | none =>
        rw [hrecv] at hdecrypted
        simp [receiveEncyptedData] at hdecrypted
    | some received =>
        rw [hrecv] at hdecrypted
        have hlength := length_of_receive aes hdecrypted
        have hbound := hreceived _ _ _ _ hrecv
        have hstring := cstr_length_le ubuffer
        simp only [expectedPayloadLen, nonceSize, tagSize] at hbound
        rw [cstr_append_singleton_nul]
        omega

theorem replies_length_le (hreceived : exchange.Received) (message : Bytes)
    (servers : List (Fin numServers)) (state : RouterState σ) :
    ∀ reply ∈ replies aes serverSessionKeys exchange message servers state,
      reply.2.length ≤ 2048 := by
  induction servers generalizing state with
  | nil => exact fun reply h => absurd h List.not_mem_nil
  | cons i rest ih =>
      refine List.forall_mem_cons.mpr ⟨?_, ih _⟩
      exact sendCommandToServer_length_le aes serverSessionKeys exchange hreceived i message state

/-- `formatted_server_response` of a server and its reply. -/
def pieceOf (reply : Fin numServers × Bytes) : Bytes := formattedServerResponse reply.1 reply.2

/-- The loop of the router on its array is the loop on its string. -/
theorem retrieveLoop_eq {message : Bytes} {servers : List (Fin numServers)}
    {state : RouterState σ} {array result : CharBuf formattedResponseSize}
    (h : appendPieces array
      ((replies aes serverSessionKeys exchange message servers state).map pieceOf) = some result) :
    (retrieveLoop aes serverSessionKeys exchange message servers array.str state).1 =
      result.str := by
  induction servers generalizing array state with
  | nil => exact congrArg CharBuf.str (Option.some.inj h)
  | cons i rest ih =>
      rw [replies, List.map_cons, appendPieces] at h
      obtain ⟨next, hnext, hrest⟩ := Option.bind_eq_some_iff.mp h
      have hloop := ih hrest
      rw [str_of_appendPiece hnext] at hloop
      exact hloop

/-- `formatted_response`, before the loop. -/
def emptyFormattedResponse : CharBuf formattedResponseSize := zeroArray 307199

@[simp] theorem emptyFormattedResponse_str : emptyFormattedResponse.str = [] :=
  zeroArray_str 307199

/-- The reply loop of the router: the strings it is given are short, each of its
rounds is safe, and it ends with the array that holds its result. -/
def ReplyLoopSafe (message : Bytes) (state : RouterState σ) : Prop :=
  let shown := replies aes serverSessionKeys exchange message (List.finRange numServers) state
  (∀ reply ∈ shown, reply.2.length ≤ 2048) ∧
    EveryRoundSafe emptyFormattedResponse (shown.map pieceOf) ∧
    ∃ array, appendPieces emptyFormattedResponse (shown.map pieceOf) = some array ∧
      (retrieveLoop aes serverSessionKeys exchange message (List.finRange numServers) []
        state).1 = array.str

theorem replyLoopSafe (hreceived : exchange.Received) (message : Bytes) (state : RouterState σ) :
    ReplyLoopSafe aes serverSessionKeys exchange message state := by
  refine ⟨replies_length_le aes serverSessionKeys exchange hreceived message _ state,
    everyRoundSafe (by decide) _ _, ?_⟩
  have hcapacity : formattedResponseSize < 2 ^ 64 := by decide
  obtain ⟨array, harray, _⟩ := appendPieces_spec hcapacity emptyFormattedResponse
    ((replies aes serverSessionKeys exchange message (List.finRange numServers) state).map pieceOf)
  have hloop := retrieveLoop_eq aes serverSessionKeys exchange harray
  rw [emptyFormattedResponse_str] at hloop
  exact ⟨array, harray, hloop⟩

variable (sha256 : Bytes → Digest)

/-- **The reply loops never overrun.**  For every chain that passes validation,
and whatever the shards answer, each round of `retrieve_data`'s loop and of the
router's finds a terminated string strictly inside its array, a size argument
that has not wrapped, and room for what it writes.  No `block_info` is cut, no
reply is longer than 2048 bytes, and the text of the shard is the first 25599
bytes of the texts of its blocks; without a block it is `NO_DATA`. -/
theorem reply_loops_never_overrun {chain : List Block}
    (hvalid : (validateBlockchain sha256 chain).valid = true) (hreceived : exchange.Received)
    (message : Bytes) (state : RouterState σ) :
    RenderLoopSafe sha256 chain ∧ (chain ≠ [] → ShowsFront sha256 chain) ∧
      (chain = [] → (retrieveData sha256 chain).response = ascii "NO_DATA") ∧
      ReplyLoopSafe aes serverSessionKeys exchange message state := by
  refine ⟨renderLoopSafe sha256 chain, fun hne => showsFront_of_accepted sha256 hne hvalid, ?_,
    replyLoopSafe aes serverSessionKeys exchange hreceived message state⟩
  rintro rfl
  exact retrieveData_response_nil sha256

/-- Shards from which 3000 bytes come that are no record. -/
def garbledExchange : Exchange Unit := fun _ _ servers =>
  (recv expectedPayloadLen (some (List.replicate 3000 7)), servers)

theorem garbledExchange_received : garbledExchange.Received := by
  intro i payload servers received h
  rw [← Option.some.inj h]
  exact List.length_take_le _ _

/-- The router in a session, in front of these shards. -/
def garbledState : RouterState Unit where
  session := some (List.Vector.replicate _ 0)
  currentServer := 0
  nonces := Stream'.const (List.Vector.replicate _ 0)
  servers := ()
  answers := []

/-- The theorem at a chain of one block, and these shards. -/
theorem reply_loops_never_overrun_garbled :
    let chain := storeAll Sha256.sha256 [(zeroBlock, ascii "a")]
    RenderLoopSafe Sha256.sha256 chain ∧ (chain ≠ [] → ShowsFront Sha256.sha256 chain) ∧
      (chain = [] → (retrieveData Sha256.sha256 chain).response = ascii "NO_DATA") ∧
      ReplyLoopSafe clearAes (fun _ => List.Vector.replicate _ 0) garbledExchange
        (ascii "RETRIEVE") garbledState :=
  reply_loops_never_overrun clearAes _ garbledExchange Sha256.sha256
    ((storeAll_valid_iff Sha256.sha256 _).mpr
      (linksAgree_of_length_le_two Sha256.sha256 (by decide)))
    garbledExchange_received (ascii "RETRIEVE") garbledState

/-- A chain without a block has no texts, and the reply is not empty. -/
theorem empty_chain_shows_no_data :
    (∀ block ∈ ([] : List Block), Represented block) ∧
      (validateBlockchain Sha256.sha256 []).valid = true ∧ ¬ ShowsFront Sha256.sha256 [] := by
  refine ⟨fun block h => absurd h List.not_mem_nil, rfl, ?_⟩
  unfold ShowsFront
  decide

end ShardedLedger.Router
