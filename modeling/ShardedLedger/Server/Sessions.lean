import ShardedLedger.Foundation.Sockets
import ShardedLedger.Server.HandleClient
import ShardedLedger.Server.Sequence
set_option autoImplicit false

/-!
# Server: one connection after the other (`main`)

A shard accepts connections one at a time.  Each has its own session key; the
chain, the generator and the heap are those of the process.  Whatever arrives on the
connections, all of them together are answered as by one ledger that goes through the
requests one by one (`ledgerRun`), up to the first reply to a connection that was
reset: that send raises `SIGPIPE`, and the process serves nobody any more.
-/

namespace ShardedLedger.Server

open CString Sha256 Channel Sockets

variable (sha256 : Bytes → Digest) (aes : AesGcm)

/-! ## The loop of `main` -/

/-- What happens on a connection: a `recv` returns, or the other end is closed or
aborts it. -/
inductive Arrival where
  | received (result : Option Bytes)
  | hangup (aborted : Bool)

/-- A connection, as `handle_client` sees it. -/
structure Connection where
  /-- What `server_get_session_key` leaves in `session_key`. -/
  sessionKey : SessionKey
  /-- The number of blocks that the key exchange draws from the generator. -/
  drawn : Nat
  /-- `client_sock`, when the key exchange is done. -/
  socket : Socket
  /-- What happens behind it. -/
  arrivals : List Arrival

/-- The key exchange at the beginning of `handle_client`. -/
def Shard.connect (shard : Shard) (connection : Connection) : Shard :=
  { shard with
    sessionKey := connection.sessionKey
    serving := true
    outgoing := []
    nonces := shard.nonces.drop connection.drawn }

/-- The loop of `handle_client`: the shard behind it, and whether the process runs on. -/
def Shard.handleClient : Shard → Socket → List Arrival → Shard × Bool
  | shard, _, [] => (shard, true)
  | shard, socket, .hangup aborted :: rest =>
      Shard.handleClient shard (socket.peerCloses aborted) rest
  | shard, socket, .received received :: rest =>
      match receiveEncyptedData aes shard.sessionKey received with
      | none => (shard.serve sha256 aes received, true)
      | some [] => (shard.serve sha256 aes received, true)
      | some _ =>
          match socket.send with
          -- the request is handled, and its reply is not sent
          | none => ({ shard.serve sha256 aes received with outgoing := shard.outgoing }, false)
          | some socket => Shard.handleClient (shard.serve sha256 aes received) socket rest

/-- The process of a shard, and the records it has sent, each with the session key
of its connection. -/
structure ShardMain where
  shard : Shard
  /-- Whether the process runs. -/
  alive : Bool
  sent : List (SessionKey × Bytes)

/-- The process before its first connection; `session_key` is a local variable of
`handle_client`. -/
def ShardMain.start (sessionKey : SessionKey) (nonces : Stream' Nonce)
    (mallocs : Stream' (Option RawBlock)) : ShardMain :=
  ⟨Shard.start sessionKey nonces mallocs, true, []⟩

/-- An iteration of the loop of `main`: `accept` and `handle_client`. -/
def ShardMain.accept (state : ShardMain) (connection : Connection) : ShardMain :=
  if state.alive then
    let (shard, alive) := Shard.handleClient sha256 aes (state.shard.connect connection)
      connection.socket connection.arrivals
    { shard := shard
      alive := alive
      sent := state.sent ++ shard.outgoing.map fun record => (connection.sessionKey, record) }
  else state

/-- The loop, over the connections that are accepted. -/
def ShardMain.run (state : ShardMain) (connections : List Connection) : ShardMain :=
  connections.foldl (ShardMain.accept sha256 aes) state

/-! ## The ledger -/

/-- The requests that are handled, and whether the last one of them leaves the process
running. -/
structure Requests where
  handled : List Bytes
  survived : Bool

/-- Requests, and those behind them if the process survives. -/
def Requests.andThen (first more : Requests) : Requests :=
  if first.survived then ⟨first.handled ++ more.handled, more.survived⟩ else first

/-- The requests on a connection, up to the first record that does not open or is
empty, or to a request that is handled on a connection that was reset. -/
def requestsIn (sessionKey : SessionKey) : Socket → List Arrival → Requests
  | _, [] => ⟨[], true⟩
  | socket, .hangup aborted :: rest => requestsIn sessionKey (socket.peerCloses aborted) rest
  | socket, .received received :: rest =>
      match receiveEncyptedData aes sessionKey received with
      | none => ⟨[], true⟩
      | some [] => ⟨[], true⟩
      | some request =>
          match socket.send with
          | none => ⟨[request], false⟩
          | some socket => Requests.andThen ⟨[request], true⟩ (requestsIn sessionKey socket rest)

/-- All requests, in the order of the connections. -/
def requestsOf (connections : List Connection) : Requests :=
  connections.foldl (fun requests connection => requests.andThen
    (requestsIn aes connection.sessionKey connection.socket connection.arrivals)) ⟨[], true⟩

/-- Whether the links agree can be computed. -/
instance (ds : List Bytes) : Decidable (LinksAgree sha256 ds) :=
  decidable_of_iff
    (∀ k : Fin ds.length, ∀ h : k.val + 2 < ds.length,
      sha256 (ds[k.val + 2] ++ hexDigest (sha256 ds[0])) =
        sha256 (ds[k.val + 2] ++ hexDigest (sha256 (ds[k.val + 1] ++ hexDigest (sha256 ds[0])))))
    ⟨fun h k hk => h ⟨k, Nat.lt_of_le_of_lt (Nat.le_add_right k 2) hk⟩ hk, fun h k hk => h k hk⟩

/-- What the ledger shows of the payloads: all of them, up to the size of the reply,
or nothing once the links do not agree. -/
def ledgerReport (stored : List Bytes) : Bytes :=
  if LinksAgree sha256 (stored.map storedData) then
    (contents (chainOf sha256 stored)).take (maxResponseLength - 1)
  else failResponse

/-- A request to the ledger, when the payloads have been stored: the payloads behind
it, and the reply.  A payload for which there is no memory is confirmed all the same. -/
def ledgerStep (stored : List Bytes) (request : Bytes) (malloc : Option RawBlock) :
    List Bytes × Bytes :=
  if cstr request = ascii "RETRIEVE" then (stored, ledgerReport sha256 stored)
  else (if malloc.isSome then stored ++ [request] else stored, ascii "DATA_STORED")

/-- The payloads that are stored behind the requests, and the replies. -/
def ledgerRun : List Bytes → List Bytes → Stream' (Option RawBlock) → List Bytes × List Bytes
  | stored, [], _ => (stored, [])
  | stored, request :: rest, mallocs =>
      let next := ledgerStep sha256 stored request mallocs.head
      let last := ledgerRun next.1 rest mallocs.tail
      (last.1, next.2 :: last.2)

theorem ledgerRun_append (stored requests more : List Bytes)
    (mallocs : Stream' (Option RawBlock)) :
    ledgerRun sha256 stored (requests ++ more) mallocs =
      ((ledgerRun sha256 (ledgerRun sha256 stored requests mallocs).1 more
          (mallocs.drop requests.length)).1,
        (ledgerRun sha256 stored requests mallocs).2 ++
          (ledgerRun sha256 (ledgerRun sha256 stored requests mallocs).1 more
            (mallocs.drop requests.length)).2) := by
  induction requests generalizing stored mallocs with
  | nil => rfl
  | cons request rest ih =>
      rw [List.cons_append, ledgerRun, ledgerRun, ih, List.length_cons, Stream'.drop_succ]
      rfl

/-! ## One request -/

/-- The text of a retrieval is the report of the ledger. -/
theorem retrieveData_response_ledger (stored : List Bytes) :
    (retrieveData sha256 (chainOf sha256 stored)).response = ledgerReport sha256 stored := by
  by_cases hagree : LinksAgree sha256 (stored.map storedData)
  · have hvalid := (chainOf_valid_iff sha256 stored).mpr hagree
    rw [ledgerReport, if_pos hagree,
      retrieveData_response_of_valid sha256 (chainOf_reachable sha256 stored) hvalid]
  · have hinvalid : (validateBlockchain sha256 (chainOf sha256 stored)).valid = false := by
      rw [Bool.eq_false_iff, ne_eq, chainOf_valid_iff]
      exact hagree
    rw [ledgerReport, if_neg hagree, retrieveData_response_of_invalid sha256 hinvalid]

/-- **A request** is handled as by the ledger. -/
theorem handleRequest_ledger (malloc : Option RawBlock) (stored : List Bytes) (request : Bytes) :
    (handleRequest sha256 malloc request (chainOf sha256 stored)).blocks =
        chainOf sha256 (ledgerStep sha256 stored request malloc).1 ∧
      (handleRequest sha256 malloc request (chainOf sha256 stored)).response =
        (ledgerStep sha256 stored request malloc).2 := by
  by_cases hword : cstr request = ascii "RETRIEVE"
  · have hcompare : strcmpEq (request ++ [0]) (ascii "RETRIEVE") = true :=
      strcmpEq_append_nul_of_eq rfl hword
    simp only [handleRequest, hcompare, if_true, ledgerStep, if_pos hword]
    exact ⟨retrieveData_blocks sha256 (chainOf_reachable sha256 stored),
      retrieveData_response_ledger sha256 stored⟩
  · rw [handleRequest_store sha256 malloc hword, ledgerStep, if_neg hword]
    cases malloc with
    | none => exact ⟨rfl, rfl⟩
    | some raw =>
        refine ⟨?_, rfl⟩
        rw [storeData_terminated, ← chainOf_concat]
        rfl

theorem ledgerRun_ne_nil (stored : List Bytes) {requests : List Bytes} (h : requests ≠ [])
    (mallocs : Stream' (Option RawBlock)) : (ledgerRun sha256 stored requests mallocs).2 ≠ [] := by
  cases requests with
  | nil => exact absurd rfl h
  | cons request rest => exact List.cons_ne_nil _ _

/-- A process ends at a request. -/
theorem requestsIn_ne_nil {sessionKey : SessionKey} {socket : Socket} {arrivals : List Arrival}
    (h : (requestsIn aes sessionKey socket arrivals).survived = false) :
    (requestsIn aes sessionKey socket arrivals).handled ≠ [] := by
  induction arrivals generalizing socket with
  | nil => cases h
  | cons arrival rest ih =>
      cases arrival with
      | hangup aborted => exact ih h
      | received result =>
          rw [requestsIn] at h ⊢
          cases hopened : receiveEncyptedData aes sessionKey result with
          | none =>
              rw [hopened] at h
              cases h
          | some request =>
              cases request with
              | nil =>
                  rw [hopened] at h
                  cases h
              | cons c tail =>
                  cases hsend : socket.send with
                  | none => exact List.cons_ne_nil _ _
                  | some socket => exact List.cons_ne_nil _ _

/-! ## One connection -/

/-- The replies that are sent: the one that ends the process is not. -/
def Requests.sent (requests : Requests) (replies : List Bytes) : List Bytes :=
  if requests.survived then replies else replies.dropLast

/-- The requests before are all answered. -/
theorem Requests.sent_append {first more : Requests} (hfirst : first.survived = true)
    (replies : List Bytes) {replies' : List Bytes}
    (hmore : more.survived = false → replies' ≠ []) :
    (first.andThen more).sent (replies ++ replies') = replies ++ more.sent replies' := by
  rw [andThen, if_pos hfirst]
  cases hsurvived : more.survived with
  | true => simp only [sent, hsurvived, if_true]
  | false =>
      simp only [sent, hsurvived, Bool.false_eq_true, if_false]
      exact List.dropLast_append_of_ne_nil (hmore hsurvived)

/-- What a shard has done with the requests of its connection. -/
structure Shard.Served (before : Shard) (stored : List Bytes) (requests : Requests)
    (after : Shard) : Prop where
  blockchain : after.blockchain =
    chainOf sha256 (ledgerRun sha256 stored requests.handled before.mallocs).1
  allocated : after.mallocs = before.mallocs.drop requests.handled.length
  outgoing : ∃ records, after.outgoing = before.outgoing ++ records ∧
    records.map (fun record => receiveEncyptedData aes before.sessionKey (some record)) =
      (requests.sent (ledgerRun sha256 stored requests.handled before.mallocs).2).map some

/-- A shard that leaves the loop keeps its chain. -/
theorem Shard.served_of_stop (shard : Shard) {stored : List Bytes}
    (hchain : shard.blockchain = chainOf sha256 stored) :
    Served sha256 aes shard stored ⟨[], true⟩ { shard with serving := false } :=
  ⟨hchain, rfl, [], (List.append_nil _).symm, rfl⟩

/-- A request that is answered, and what the loop does behind it. -/
theorem Shard.served_cons {shard after : Shard} {stored : List Bytes} {requests : Requests}
    {received : Option Bytes} {request : Bytes} (hserving : shard.serving = true)
    (hchain : shard.blockchain = chainOf sha256 stored)
    (hopened : receiveEncyptedData aes shard.sessionKey received = some request)
    (hrequest : request ≠ []) (hends : requests.survived = false → requests.handled ≠ [])
    (h : Served sha256 aes (shard.serve sha256 aes received)
      (ledgerStep sha256 stored request shard.mallocs.head).1 requests after) :
    Served sha256 aes shard stored (Requests.andThen ⟨[request], true⟩ requests) after := by
  obtain ⟨_, hresponse⟩ := handleRequest_ledger sha256 shard.mallocs.head stored request
  rw [serve_of_opened sha256 aes hserving hopened hrequest] at h
  obtain ⟨records, hrecords, hreplies⟩ := h.outgoing
  refine ⟨h.blockchain, h.allocated, ?_⟩
  refine ⟨sendEncyptedData aes shard.sessionKey shard.nonces.head
    (handleRequest sha256 shard.mallocs.head request shard.blockchain).response :: records, ?_, ?_⟩
  · rw [hrecords, List.append_assoc, List.singleton_append]
  · let later := ledgerRun sha256 (ledgerStep sha256 stored request shard.mallocs.head).1
      requests.handled shard.mallocs.tail
    have hsent : (Requests.andThen ⟨[request], true⟩ requests).sent
        ((ledgerStep sha256 stored request shard.mallocs.head).2 :: later.2) =
          (ledgerStep sha256 stored request shard.mallocs.head).2 :: requests.sent later.2 := by
      have hfirst : (⟨[request], true⟩ : Requests).survived = true := rfl
      exact Requests.sent_append hfirst [_] fun hsurvived =>
        ledgerRun_ne_nil sha256 _ (hends hsurvived) _
    rw [List.map_cons, receive_send, hreplies, hchain, hresponse]
    exact (congrArg (List.map some) hsent).symm

/-- A request whose reply ends the process. -/
theorem Shard.served_last {shard : Shard} {stored : List Bytes} {received : Option Bytes}
    {request : Bytes} (hserving : shard.serving = true)
    (hchain : shard.blockchain = chainOf sha256 stored)
    (hopened : receiveEncyptedData aes shard.sessionKey received = some request)
    (hrequest : request ≠ []) :
    Served sha256 aes shard stored ⟨[request], false⟩
      { shard.serve sha256 aes received with outgoing := shard.outgoing } := by
  obtain ⟨hblocks, _⟩ := handleRequest_ledger sha256 shard.mallocs.head stored request
  rw [serve_of_opened sha256 aes hserving hopened hrequest, hchain]
  exact ⟨hblocks, rfl, [], (List.append_nil _).symm, rfl⟩

/-- **A connection** is served as by the ledger, whatever arrives on it. -/
theorem Shard.handleClient_served {shard : Shard} {stored : List Bytes}
    (hserving : shard.serving = true) (hchain : shard.blockchain = chainOf sha256 stored)
    (socket : Socket) (arrivals : List Arrival) :
    let requests := requestsIn aes shard.sessionKey socket arrivals
    Served sha256 aes shard stored requests
        (handleClient sha256 aes shard socket arrivals).1 ∧
      (handleClient sha256 aes shard socket arrivals).2 = requests.survived := by
  induction arrivals generalizing shard stored socket with
  | nil => exact ⟨⟨hchain, rfl, [], (List.append_nil _).symm, rfl⟩, rfl⟩
  | cons arrival rest ih =>
      cases arrival with
      | hangup aborted => exact ih hserving hchain _
      | received received =>
          rw [handleClient, requestsIn]
          cases hopened : receiveEncyptedData aes shard.sessionKey received with
          | none =>
              rw [serve, hserving, hopened]
              exact ⟨shard.served_of_stop sha256 aes hchain, rfl⟩
          | some request =>
              cases request with
              | nil =>
                  rw [serve, hserving, hopened]
                  exact ⟨shard.served_of_stop sha256 aes hchain, rfl⟩
              | cons c tail =>
                  have hrequest : c :: tail ≠ [] := List.cons_ne_nil c tail
                  cases hsend : socket.send with
                  | none =>
                      exact ⟨served_last sha256 aes hserving hchain hopened hrequest, rfl⟩
                  | some socket =>
                      have hserve := serve_of_opened sha256 aes hserving hopened hrequest
                      have hnext : (shard.serve sha256 aes received).blockchain = chainOf sha256
                          (ledgerStep sha256 stored (c :: tail) shard.mallocs.head).1 := by
                        rw [hserve, hchain]
                        exact (handleRequest_ledger sha256 _ stored _).1
                      have hstill : (shard.serve sha256 aes received).serving = true := by
                        rw [hserve]
                        exact hserving
                      have hkey : (shard.serve sha256 aes received).sessionKey =
                          shard.sessionKey := by rw [hserve]
                      obtain ⟨hserved, hsurvived⟩ := ih hstill hnext socket
                      rw [hkey] at hserved hsurvived
                      exact ⟨served_cons sha256 aes hserving hchain hopened hrequest
                        (requestsIn_ne_nil aes) hserved, hsurvived⟩

/-! ## All connections -/

/-- What the process has done with the requests of its connections. -/
structure ShardMain.Serves (mallocs : Stream' (Option RawBlock)) (requests : Requests)
    (state : ShardMain) : Prop where
  alive : state.alive = requests.survived
  blockchain : state.shard.blockchain =
    chainOf sha256 (ledgerRun sha256 [] requests.handled mallocs).1
  allocated : state.shard.mallocs = mallocs.drop requests.handled.length
  replies : state.sent.map (fun record => receiveEncyptedData aes record.1 (some record.2)) =
    (requests.sent (ledgerRun sha256 [] requests.handled mallocs).2).map some

variable {sha256 aes} in
/-- A connection more. -/
theorem ShardMain.Serves.accept {mallocs : Stream' (Option RawBlock)} {requests : Requests}
    {state : ShardMain} (h : Serves sha256 aes mallocs requests state) (connection : Connection) :
    Serves sha256 aes mallocs
      (requests.andThen
        (requestsIn aes connection.sessionKey connection.socket connection.arrivals))
      (state.accept sha256 aes connection) := by
  let more := requestsIn aes connection.sessionKey connection.socket connection.arrivals
  cases hsurvived : requests.survived with
  | false =>
      have hdead : state.accept sha256 aes connection = state := by
        rw [ShardMain.accept, h.alive, hsurvived]
        rfl
      have hnone : requests.andThen more = requests := by
        rw [Requests.andThen, hsurvived]
        rfl
      rw [hdead, hnone]
      exact h
  | true =>
      let connected := state.shard.connect connection
      have hserving : connected.serving = true := rfl
      obtain ⟨hserved, halive⟩ := Shard.handleClient_served sha256 aes hserving
        h.blockchain connection.socket connection.arrivals
      obtain ⟨records, hrecords, hopened⟩ := hserved.outgoing
      have hmallocs : connected.mallocs = mallocs.drop requests.handled.length := h.allocated
      have hboth : requests.andThen more =
          ⟨requests.handled ++ more.handled, more.survived⟩ := by
        rw [Requests.andThen, if_pos hsurvived]
      let served := Shard.handleClient sha256 aes connected connection.socket connection.arrivals
      have haccept : state.accept sha256 aes connection = ⟨served.1, served.2,
          state.sent ++ served.1.outgoing.map fun record => (connection.sessionKey, record)⟩ := by
        rw [ShardMain.accept, h.alive, if_pos hsurvived]
      rw [haccept]
      refine ⟨?_, ?_, ?_, ?_⟩
      · rw [hboth]
        exact halive
      · rw [hboth, ledgerRun_append, ← hmallocs]
        exact hserved.blockchain
      · rw [hboth, List.length_append, ← Stream'.drop_drop, ← hmallocs]
        exact hserved.allocated
      · let first := ledgerRun sha256 [] requests.handled mallocs
        let second := ledgerRun sha256 first.1 more.handled (mallocs.drop requests.handled.length)
        have hsent : (requests.andThen more).sent (first.2 ++ second.2) =
            first.2 ++ more.sent second.2 :=
          Requests.sent_append hsurvived _ fun hended =>
            ledgerRun_ne_nil sha256 _ (requestsIn_ne_nil aes hended) _
        have hbefore : requests.sent first.2 = first.2 := if_pos hsurvived
        have hreplies : (ledgerRun sha256 [] (requests.andThen more).handled mallocs).2 =
            first.2 ++ second.2 := by rw [hboth, ledgerRun_append]
        have hnew : (served.1.outgoing.map fun record => (connection.sessionKey, record)).map
            (fun record => receiveEncyptedData aes record.1 (some record.2)) =
              (more.sent second.2).map some := by
          rw [hmallocs] at hopened
          rw [hrecords, List.map_map]
          exact hopened
        rw [hreplies, hsent, List.map_append, List.map_append, h.replies, hnew]
        exact congrArg (List.map some · ++ _) hbefore

theorem ShardMain.run_serves (sessionKey : SessionKey) (nonces : Stream' Nonce)
    (mallocs : Stream' (Option RawBlock)) (connections : List Connection) :
    Serves sha256 aes mallocs (requestsOf aes connections)
      ((ShardMain.start sessionKey nonces mallocs).run sha256 aes connections) := by
  induction connections using List.reverseRecOn with
  | nil => exact ⟨rfl, rfl, rfl, rfl⟩
  | append_singleton connections connection ih =>
      rw [ShardMain.run, List.foldl_append, requestsOf, List.foldl_append]
      exact ih.accept connection

/-- **A shard is one ledger over all its connections**: whatever arrives on them, the
blocks are those of the requests one by one, and each reply opens, under the key of
its connection, to the reply of the ledger.  The process runs on unless a request was
handled on a connection that was reset: that request is the last, and the only one
without its reply. -/
theorem ShardMain.run_ledger (sessionKey : SessionKey) (nonces : Stream' Nonce)
    (mallocs : Stream' (Option RawBlock)) (connections : List Connection) :
    let state := (ShardMain.start sessionKey nonces mallocs).run sha256 aes connections
    let requests := requestsOf aes connections
    let ledger := ledgerRun sha256 [] requests.handled mallocs
    state.shard.blockchain.map (fun block => block.data.str) = ledger.1.map storedData ∧
      state.shard.blockchain = chainOf sha256 ledger.1 ∧
      state.alive = requests.survived ∧
      state.sent.map (fun record => receiveEncyptedData aes record.1 (some record.2)) =
        (if state.alive then ledger.2 else ledger.2.dropLast).map some := by
  intro state requests ledger
  have hserves := ShardMain.run_serves sha256 aes sessionKey nonces mallocs connections
  have hblocks : state.shard.blockchain = chainOf sha256 ledger.1 := hserves.blockchain
  have halive : state.alive = requests.survived := hserves.alive
  refine ⟨?_, hblocks, halive, ?_⟩
  · rw [hblocks, chainOf_data]
  · rw [halive]
    exact hserves.replies

end ShardedLedger.Server
