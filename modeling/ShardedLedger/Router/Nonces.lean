import ShardedLedger.Client.Main
import ShardedLedger.Foundation.Generator
import ShardedLedger.Router.Draws
import ShardedLedger.Router.Traffic
set_option autoImplicit false

/-!
# Router: nonces under one session key

Both ends of a connection encrypt under the same key, each with nonces from its
own generator, which it seeds with the time.  Processes that are started in the
same second draw the same stream, at different places: `nonces_repeat_iff` says
that this is the one way to a repeated nonce, and for which draws it is one.

`Seeded` is the observed system with generators: every process draws what the
source draws, in that order.
-/

namespace ShardedLedger.Router

open CString BigEndian Channel Server Generator

variable {S : Type}

/-! ## Processes with generators -/

/-- A process: the second it seeds its generator with, and what the array holds
that the n-th block is exported to. -/
structure Process (S : Type) where
  seed : S
  stale : Nat → Nonce

/-- The nonces that a process would draw, block by block. -/
def Process.nonces (words : S → Words) (process : Process S) : Stream' Nonce :=
  fun b => getRandomBytes (process.stale b) (block (words process.seed) b)

/-- The processes of a run. -/
structure World (S : Type) where
  /-- The generator. -/
  words : S → Words
  router : Process S
  shards : Fin numServers → Process S
  /-- The client of the n-th session, its session key and what it is told to do. -/
  clients : Nat → Process S
  sessionKeys : Nat → SessionKey
  iterations : Nat → List Client.Iteration

/-- The other end of a connection of the router. -/
def World.peer (world : World S) : Link → Process S
  | .shard i => world.shards i
  | .client n => world.clients n

/-- The block of the first nonce that the other end encrypts with. -/
def peerStart : Link → Nat
  | .shard _ => secretBlocks
  | .client _ => clientHandshakeBlocks

/-- The nonce of a record. -/
def nonceOf (record : Bytes) : Bytes := record.take nonceSize

theorem nonceOf_send (aes : AesGcm) (sessionKey : SessionKey) (nonce : Nonce) (data : Bytes) :
    nonceOf (sendEncyptedData aes sessionKey nonce data) = nonce.toList := by
  simp only [nonceOf, sendEncyptedData, List.append_assoc]
  exact List.take_left' (by simp)

/-! ## The seeded system -/

/-- The observed system, and the nonces that the router has encrypted with. -/
structure Seeded where
  router : RouterState Observed
  /-- The number of client sessions so far. -/
  sessions : Nat
  encrypted : List (Link × Bytes)

variable (sha256 : Bytes → Sha256.Digest) (aes : AesGcm) (keys : Fin numServers → SessionKey)

/-- The records that a step has added. -/
def newRecords (sessions : Nat) (before after : RouterState Observed) : List (Link × Bytes) :=
  (after.servers.exchanges.drop before.servers.exchanges.length).map
      (fun e => (.shard e.serverIndex, nonceOf e.payload)) ++
    (after.answers.drop before.answers.length).map
      fun a => (.client (sessions - 1), nonceOf a.record)

/-- One step.  The key exchange with a client draws the secret and `n1`, and the
server hello is encrypted with `n1`. -/
def Seeded.step (state : Seeded) (event : Event) : Seeded :=
  let after := Router.step aes keys (observedExchange sha256 aes) state.router event
  match event, state.router.session with
  | .accept _, none =>
      { router := { after with nonces := after.nonces.drop serverHandshakeBlocks }
        sessions := state.sessions + 1
        encrypted := state.encrypted ++
          [(.client state.sessions, (after.nonces.get secretBlocks).toList)] }
  | _, _ =>
      { state with
        router := after
        encrypted := state.encrypted ++ newRecords state.sessions state.router after }

/-- The system after the key exchanges with the shards, each of which has drawn
its secret and encrypted its hello. -/
def Seeded.start (world : World S) (mallocs : Fin numServers → Stream' (Option RawBlock)) :
    Seeded where
  router := observedStart keys
    ((world.router.nonces world.words).drop (numServers * clientHandshakeBlocks))
    (fun i => ((world.shards i).nonces world.words).drop serverHandshakeBlocks) mallocs
  sessions := 0
  encrypted := []

/-- A run. -/
def seededSystem (world : World S) (mallocs : Fin numServers → Stream' (Option RawBlock))
    (events : List Event) : Seeded :=
  events.foldl (Seeded.step sha256 aes keys) (Seeded.start keys world mallocs)

/-- The records that a shard has sent. -/
def repliesOf (i : Fin numServers) (exchanges : List Exchanged) : List Bytes :=
  (exchanges.filter (·.serverIndex = i)).flatMap Exchanged.replies

/-- The nonces of the router's records under a session key. -/
def Seeded.routerNonces (state : Seeded) (link : Link) : List Bytes :=
  (state.encrypted.filter (·.1 = link)).map Prod.snd

/-- The nonces of the records of the other end, the hello of a shard included. -/
def Seeded.peerNonces (world : World S) (state : Seeded) : Link → List Bytes
  | .shard i =>
      (((world.shards i).nonces world.words).get secretBlocks).toList ::
        (repliesOf i state.router.servers.exchanges).map nonceOf
  | .client n =>
      (Client.payloads (Client.commandLoop aes (world.sessionKeys n)
        (((world.clients n).nonces world.words).drop clientHandshakeBlocks)
        (world.iterations n))).map nonceOf

/-! ## The router draws one nonce per record -/

/-- The nonces in these blocks of a stream. -/
def inBlocks (stream : Stream' Nonce) (reads : List (Link × Nat)) : List (Link × Bytes) :=
  reads.map fun r => (r.1, (stream.get r.2).toList)

section Router

variable {stream : Stream' Nonce} {position : Nat} {state : RouterState Observed}

theorem sendCommandToServer_draws (h : state.nonces = stream.drop position)
    (i : Fin numServers) (m : Bytes) :
    let sent := sendCommandToServer aes keys (observedExchange sha256 aes) i m state
    sent.2.nonces = stream.drop (position + 1) ∧
      ∃ exchanged, sent.2.servers.exchanges = state.servers.exchanges ++ [exchanged] ∧
        exchanged.serverIndex = i ∧
        nonceOf exchanged.payload = (stream.get position).toList := by
  let payload := sendEncyptedData aes (keys i) state.nonces.head (cstr m)
  refine ⟨?_, ⟨i, payload, repliesTo sha256 aes (state.servers.shards i) payload⟩, rfl, rfl, ?_⟩
  · change state.nonces.tail = _
    rw [h, Stream'.tail_drop']
  · change nonceOf (sendEncyptedData aes (keys i) state.nonces.head (cstr m)) = _
    rw [nonceOf_send, h, Stream'.head_drop]

/-- The loop over the servers draws one nonce for each of them. -/
theorem retrieveLoop_draws (h : state.nonces = stream.drop position) (m : Bytes)
    (servers : List (Fin numServers)) (formatted : Bytes) :
    let done := retrieveLoop aes keys (observedExchange sha256 aes) m servers formatted state
    done.2.nonces = stream.drop (position + servers.length) ∧
      ∃ logged, done.2.servers.exchanges = state.servers.exchanges ++ logged ∧
        logged.map (fun e => (Link.shard e.serverIndex, nonceOf e.payload)) =
          inBlocks stream ((servers.map Link.shard).zipIdx position) := by
  induction servers generalizing formatted state position with
  | nil => exact ⟨h, [], (List.append_nil _).symm, rfl⟩
  | cons i rest ih =>
      obtain ⟨hsent, exchanged, hone, hindex, hnonce⟩ :=
        sendCommandToServer_draws sha256 aes keys h i m
      obtain ⟨hnonces, logged, hlog, hreads⟩ :=
        ih hsent (strncat (roomLeft formattedResponseSize formatted) formatted
          (formattedServerResponse i
            (sendCommandToServer aes keys (observedExchange sha256 aes) i m state).1))
      refine ⟨hnonces.trans ?_, exchanged :: logged, ?_, ?_⟩
      · rw [List.length_cons, Nat.add_right_comm, Nat.add_assoc]
      · refine hlog.trans ?_
        rw [hone, List.append_assoc, List.singleton_append]
      · rw [List.map_cons, hreads, hindex, hnonce]
        rfl

theorem newRecords_of_append {sessions : Nat} {before after : RouterState Observed}
    {logged : List Exchanged} {answers : List Answer}
    (hexchanges : after.servers.exchanges = before.servers.exchanges ++ logged)
    (hanswers : after.answers = before.answers ++ answers) :
    newRecords sessions before after =
      logged.map (fun e => (Link.shard e.serverIndex, nonceOf e.payload)) ++
        answers.map fun a => (.client (sessions - 1), nonceOf a.record) := by
  rw [newRecords, hexchanges, hanswers, List.drop_left, List.drop_left]

/-- What a request leads to: one record, with the next nonce, for each of its links. -/
structure DrawsLinks (stream : Stream' Nonce) (position sessions : Nat) (links : List Link)
    (before after : RouterState Observed) : Prop where
  nonces : after.nonces = stream.drop (position + links.length)
  records : newRecords sessions before after = inBlocks stream (links.zipIdx position)
  exchanges : after.servers.exchanges.length ≤ before.servers.exchanges.length + links.length

/-- The answer to the client takes the nonce behind those of the exchanges. -/
theorem drawsLinks_answer {done : RouterState Observed} {servers : List (Fin numServers)}
    {sessions : Nat} (hnonces : done.nonces = stream.drop (position + servers.length))
    (hanswers : done.answers = state.answers) {logged : List Exchanged}
    (hlog : done.servers.exchanges = state.servers.exchanges ++ logged)
    (hreads : logged.map (fun e => (Link.shard e.serverIndex, nonceOf e.payload)) =
      inBlocks stream ((servers.map Link.shard).zipIdx position))
    (key : SessionKey) (request response : Bytes) :
    DrawsLinks stream position sessions (servers.map Link.shard ++ [.client (sessions - 1)]) state
      (answer aes key request response done) where
  nonces := by
    change done.nonces.tail = _
    rw [hnonces, Stream'.tail_drop', List.length_append, List.length_map, List.length_singleton,
      Nat.add_assoc]
  records := by
    have hanswer : nonceOf (sendEncyptedData aes key done.nonces.head response) =
        (stream.get (position + servers.length)).toList := by
      rw [nonceOf_send, hnonces, Stream'.head_drop]
    have hnew : newRecords sessions state (answer aes key request response done) = _ :=
      newRecords_of_append hlog (congrArg (· ++ [(⟨key, cstr request,
        sendEncyptedData aes key done.nonces.head response⟩ : Answer)]) hanswers)
    rw [hnew, hreads, List.zipIdx_append]
    simp only [inBlocks, List.map_append, List.length_map, List.map_singleton, hanswer,
      List.zipIdx_singleton]
  exchanges := by
    have hlength : logged.length = servers.length := by
      simpa [inBlocks] using congrArg List.length hreads
    change done.servers.exchanges.length ≤ _
    rw [hlog, List.length_append, List.length_append, List.length_map, hlength]
    omega

/-- **A request** draws one nonce for each record it leads to. -/
theorem handleRequest_draws (h : state.nonces = stream.drop position) (key : SessionKey)
    (m : Bytes) (sessions : Nat) :
    let after := handleRequest aes keys (observedExchange sha256 aes) key m state
    after.currentServer = (if IsStore m then state.currentServer + 1 else state.currentServer) ∧
      DrawsLinks stream position sessions
        (linksOf state.currentServer (.client (sessions - 1)) m) state after := by
  by_cases hexit : cstr m = ascii "EXIT"
  · have hnot : ¬ IsStore m := fun hstore => hstore.1 hexit
    rw [handleRequest_exit aes keys _ key hexit, if_neg hnot, linksOf, if_pos hexit]
    exact ⟨rfl, h, by simp [newRecords, inBlocks], Nat.le_refl _⟩
  · by_cases hretrieve : cstr m = ascii "RETRIEVE"
    · have hnot : ¬ IsStore m := fun hstore => hstore.2 hretrieve
      obtain ⟨_, hcurrent, hanswers⟩ := retrieveLoop_frame aes keys (observedExchange sha256 aes)
        (m ++ [0]) state (List.finRange numServers) []
      obtain ⟨hnonces, logged, hlog, hreads⟩ :=
        retrieveLoop_draws sha256 aes keys h (m ++ [0]) (List.finRange numServers) []
      rw [handleRequest_retrieve aes keys _ key hretrieve, if_neg hnot, linksOf, if_neg hexit,
        if_pos hretrieve]
      exact ⟨hcurrent, drawsLinks_answer aes hnonces hanswers hlog hreads key _ _⟩
    · have hstore : IsStore m := ⟨hexit, hretrieve⟩
      rw [handleRequest_store aes keys _ key hstore, if_pos hstore, linksOf, if_neg hexit,
        if_neg hretrieve]
      let advanced : RouterState Observed := { state with currentServer := state.currentServer + 1 }
      have hadvanced : advanced.nonces = stream.drop position := h
      obtain ⟨hnonces, exchanged, hlog, hindex, hnonce⟩ :=
        sendCommandToServer_draws sha256 aes keys hadvanced state.currentServer (m ++ [0])
      have hreads : [exchanged].map (fun e => (Link.shard e.serverIndex, nonceOf e.payload)) =
          inBlocks stream (([state.currentServer].map Link.shard).zipIdx position) := by
        rw [List.map_singleton, hindex, hnonce]
        rfl
      have hanswers : (sendCommandToServer aes keys (observedExchange sha256 aes)
          state.currentServer (m ++ [0]) advanced).2.answers = state.answers := rfl
      exact ⟨rfl, drawsLinks_answer aes hnonces hanswers hlog hreads key _ _⟩

end Router

/-! ## The seeded system draws as `Draws` counts -/

/-- The seeded system is where the count says. -/
structure Follows (stream : Stream' Nonce) (draws : Draws) (state : Seeded) : Prop where
  session : state.router.session = draws.session
  currentServer : state.router.currentServer = draws.currentServer
  sessions : state.sessions = draws.sessions
  nonces : state.router.nonces = stream.drop draws.position
  encrypted : state.encrypted = inBlocks stream draws.reads
  exchanges : state.router.servers.exchanges.length ≤ draws.reads.length

theorem newRecords_self (sessions : Nat) {before after : RouterState Observed}
    (hexchanges : after.servers.exchanges = before.servers.exchanges)
    (hanswers : after.answers = before.answers) : newRecords sessions before after = [] := by
  rw [newRecords, hexchanges, hanswers, List.drop_length, List.drop_length]
  rfl

section Step

variable {sha256 aes keys} {stream : Stream' Nonce} {draws : Draws} {state : Seeded}

/-- A client is accepted. -/
theorem Follows.accept (h : Follows stream draws state) (sessionKey : SessionKey) :
    Follows stream (draws.step aes (.accept sessionKey))
      (state.step sha256 aes keys (.accept sessionKey)) := by
  cases hsession : draws.session with
  | some key =>
      have hopen : state.router.session = some key := h.session.trans hsession
      have hdraws : draws.step aes (.accept sessionKey) = draws := by
        simp only [Draws.step, hsession]
      have hstate : state.step sha256 aes keys (.accept sessionKey) = state := by
        simp only [Seeded.step, Router.step, hopen, newRecords_self state.sessions rfl rfl,
          List.append_nil]
      rw [hdraws, hstate]
      exact h
  | none =>
      have hclosed : state.router.session = none := h.session.trans hsession
      simp only [Draws.step, hsession, Seeded.step, Router.step, hclosed]
      refine ⟨rfl, h.currentServer, congrArg (· + 1) h.sessions, ?_, ?_, ?_⟩
      · change state.router.nonces.drop _ = _
        rw [h.nonces, Stream'.drop_drop]
      · change state.encrypted ++ [(_, (state.router.nonces.get secretBlocks).toList)] = _
        rw [h.encrypted, h.nonces, h.sessions, Stream'.get_drop]
        simp only [inBlocks, List.map_append, List.map_singleton]
      · have := h.exchanges
        simp only [List.length_append]
        omega

/-- Bytes reach the router. -/
theorem Follows.deliver (h : Follows stream draws state) (pending : Option Bytes) :
    Follows stream (draws.step aes (.deliver pending))
      (state.step sha256 aes keys (.deliver pending)) := by
  have hstate : state.step sha256 aes keys (.deliver pending) =
      { state with
        router := Router.step aes keys (observedExchange sha256 aes) state.router (.deliver pending)
        encrypted := state.encrypted ++ newRecords state.sessions state.router
          (Router.step aes keys (observedExchange sha256 aes) state.router (.deliver pending)) } :=
    rfl
  rw [hstate]
  have hsession := step_session aes keys (observedExchange sha256 aes) state.router
    (.deliver pending)
  cases hmessage : message aes state.router.session (.deliver pending) with
  | none =>
      have hdraws : message aes draws.session (.deliver pending) = none := h.session ▸ hmessage
      have hend : sessionAfter aes state.router.session (.deliver pending) = none := by
        simp only [sessionAfter, hmessage]
      rw [step_of_no_message aes keys _ hmessage, hend]
      simp only [Draws.step, hdraws]
      refine ⟨rfl, h.currentServer, h.sessions, h.nonces, ?_, h.exchanges⟩
      have hnew : newRecords state.sessions state.router { state.router with session := none } = [] :=
        newRecords_self state.sessions rfl rfl
      refine (congrArg (state.encrypted ++ ·) hnew).trans ?_
      rw [List.append_nil]
      exact h.encrypted
  | some m =>
      have hdraws : message aes draws.session (.deliver pending) = some m := h.session ▸ hmessage
      obtain ⟨key, _, hstep⟩ :=
        step_of_message aes keys (observedExchange sha256 aes) hmessage
      obtain ⟨hcurrent, hdrawn⟩ :=
        handleRequest_draws sha256 aes keys h.nonces key m state.sessions
      rw [← hstep, h.currentServer] at hcurrent hdrawn
      rw [h.sessions] at hdrawn
      simp only [Draws.step, hdraws]
      refine ⟨?_, hcurrent, h.sessions, hdrawn.nonces, ?_, ?_⟩
      · rw [hsession, h.session]
      · change state.encrypted ++ newRecords state.sessions _ _ = _
        rw [h.sessions, hdrawn.records, h.encrypted]
        exact (List.map_append).symm
      · have hbefore := h.exchanges
        refine Nat.le_trans hdrawn.exchanges ?_
        rw [List.length_append, List.length_zipIdx]
        omega

theorem Follows.step (h : Follows stream draws state) (event : Event) :
    Follows stream (draws.step aes event) (state.step sha256 aes keys event) := by
  cases event with
  | accept sessionKey => exact h.accept sessionKey
  | deliver pending => exact h.deliver pending

end Step

/-! ## The shards draw one nonce per reply -/

theorem receiveFrom_nonces (shard : Shard) : (receiveFrom shard).2.nonces = shard.nonces := by
  unfold receiveFrom
  split
  · rfl
  · rfl

/-- A payload is answered with one record and the next nonce, or not at all. -/
theorem repliesTo_cases (shard : Shard) (payload : Bytes) :
    let served := shard.serve sha256 aes (recv expectedPayloadLen (some payload))
    (repliesTo sha256 aes shard payload = [] ∧ served.nonces = shard.nonces) ∨
      ∃ reply, repliesTo sha256 aes shard payload = [reply] ∧
        nonceOf reply = shard.nonces.head.toList ∧ served.nonces = shard.nonces.tail := by
  intro served
  unfold repliesTo
  rcases serve_cases sha256 aes shard (recv expectedPayloadLen (some payload)) with
    ⟨serving, hserved⟩ | ⟨request, _, _, _, hserved⟩
  · have hnonces : served.nonces = shard.nonces := (congrArg Shard.nonces hserved).trans rfl
    refine Or.inl ⟨?_, hnonces⟩
    rw [hserved]
    exact List.drop_length
  · have hnonces : served.nonces = shard.nonces.tail := (congrArg Shard.nonces hserved).trans rfl
    refine Or.inr ⟨_, ?_, nonceOf_send aes shard.sessionKey _ (replyTo sha256 shard request), hnonces⟩
    rw [hserved]
    exact List.drop_left

theorem repliesOf_concat (i : Fin numServers) (exchanges : List Exchanged) (e : Exchanged) :
    repliesOf i (exchanges ++ [e]) =
      repliesOf i exchanges ++ if e.serverIndex = i then e.replies else [] := by
  unfold repliesOf
  rw [List.filter_append, List.flatMap_append]
  by_cases he : e.serverIndex = i
  · simp [he]
  · simp [he]

/-- The replies of a shard carry the nonces behind that of its hello. -/
structure ShardDraws (stream : Stream' Nonce) (i : Fin numServers) (observed : Observed) :
    Prop where
  nonces : (observed.shards i).nonces =
    stream.drop (serverHandshakeBlocks + (repliesOf i observed.exchanges).length)
  replies : (repliesOf i observed.exchanges).map nonceOf =
    (List.range' serverHandshakeBlocks (repliesOf i observed.exchanges).length).map
      fun b => (stream.get b).toList
  length : (repliesOf i observed.exchanges).length ≤ observed.exchanges.length

/-- Without a reply nothing is drawn. -/
theorem ShardDraws.congr {stream : Stream' Nonce} {i : Fin numServers}
    {observed observed' : Observed} (h : ShardDraws stream i observed)
    (hnonces : (observed'.shards i).nonces = (observed.shards i).nonces)
    (hreplies : repliesOf i observed'.exchanges = repliesOf i observed.exchanges)
    (hlength : observed.exchanges.length ≤ observed'.exchanges.length) :
    ShardDraws stream i observed' where
  nonces := by rw [hnonces, hreplies]; exact h.nonces
  replies := by rw [hreplies]; exact h.replies
  length := by rw [hreplies]; exact Nat.le_trans h.length hlength

/-- A reply takes the next nonce. -/
theorem ShardDraws.reply {stream : Stream' Nonce} {i : Fin numServers}
    {observed observed' : Observed} (h : ShardDraws stream i observed) {reply : Bytes}
    (hnonce : nonceOf reply = (observed.shards i).nonces.head.toList)
    (hnonces : (observed'.shards i).nonces = (observed.shards i).nonces.tail)
    (hreplies : repliesOf i observed'.exchanges = repliesOf i observed.exchanges ++ [reply])
    (hlength : observed'.exchanges.length = observed.exchanges.length + 1) :
    ShardDraws stream i observed' where
  nonces := by
    rw [hnonces, h.nonces, hreplies, Stream'.tail_drop', List.length_append,
      List.length_singleton, Nat.add_assoc]
  replies := by
    rw [hreplies, List.map_append, h.replies, List.length_append, List.length_singleton,
      List.range'_concat, List.map_append, List.map_singleton, List.map_singleton, hnonce, h.nonces,
      Stream'.head_drop, Nat.one_mul]
  length := by
    have := h.length
    rw [hreplies, hlength, List.length_append, List.length_singleton]
    omega

/-- Every exchange keeps this. -/
theorem ShardDraws.exchange {stream : Stream' Nonce} {i : Fin numServers} {observed : Observed}
    (h : ShardDraws stream i observed) (j : Fin numServers) (payload : Bytes) :
    ShardDraws stream i (observedExchange sha256 aes j payload observed).2 := by
  let after := (observedExchange sha256 aes j payload observed).2
  have hexchanges : after.exchanges = observed.exchanges ++
      [⟨j, payload, repliesTo sha256 aes (observed.shards j) payload⟩] := rfl
  have hshards : after.shards = Function.update observed.shards j
      (receiveFrom ((observed.shards j).serve sha256 aes
        (recv expectedPayloadLen (some payload)))).2 := rfl
  have hlength : after.exchanges.length = observed.exchanges.length + 1 := by
    rw [hexchanges, List.length_append, List.length_singleton]
  have hreplies : repliesOf i after.exchanges = repliesOf i observed.exchanges ++
      if j = i then repliesTo sha256 aes (observed.shards j) payload else [] := by
    rw [hexchanges, repliesOf_concat]
  by_cases hj : j = i
  · subst hj
    have hshard : (after.shards j).nonces = ((observed.shards j).serve sha256 aes
        (recv expectedPayloadLen (some payload))).nonces := by
      rw [hshards, Function.update_self, receiveFrom_nonces]
    rw [if_pos rfl] at hreplies
    rcases repliesTo_cases sha256 aes (observed.shards j) payload with
      ⟨hnone, hnonces⟩ | ⟨reply, hone, hnonce, hnonces⟩
    · rw [hnone, List.append_nil] at hreplies
      exact h.congr (hshard.trans hnonces) hreplies (hlength ▸ Nat.le_succ _)
    · rw [hone] at hreplies
      exact h.reply hnonce (hshard.trans hnonces) hreplies hlength
  · rw [if_neg hj, List.append_nil] at hreplies
    have hshard : after.shards i = observed.shards i := by
      rw [hshards, Function.update_of_ne (Ne.symm hj)]
    exact h.congr (congrArg Shard.nonces hshard) hreplies (hlength ▸ Nat.le_succ _)

/-! ## The records of a client -/

/-- The first nonces behind a block are those of the blocks from there on. -/
theorem take_drop_eq_map_range' (stream : Stream' Nonce) (start count : Nat) :
    (stream.drop start).take count = (List.range' start count).map stream.get := by
  induction count generalizing start with
  | zero => rfl
  | succ count ih =>
      rw [Stream'.take_succ, Stream'.head_drop, Stream'.tail_drop', ih, List.range'_succ,
        List.map_cons]

/-- The records of a client carry the nonces behind its key exchange. -/
theorem commandLoop_draws (stream : Stream' Nonce) (sessionKey : SessionKey)
    (iterations : List Client.Iteration) (start : Nat) :
    let payloads :=
      Client.payloads (Client.commandLoop aes sessionKey (stream.drop start) iterations)
    payloads.map nonceOf =
      (List.range' start payloads.length).map fun b => (stream.get b).toList := by
  intro payloads
  obtain ⟨messages, _, hpayloads⟩ :=
    Client.payloads_commandLoop aes sessionKey (stream.drop start) iterations
  have hdrawn : ((stream.drop start).take messages.length).length = messages.length :=
    Stream'.length_take ..
  have hlength : payloads.length = messages.length := by
    rw [show payloads = _ from hpayloads, List.length_zipWith, hdrawn, Nat.min_self]
  have hnonces : payloads.map nonceOf =
      ((stream.drop start).take messages.length).map List.Vector.toList := by
    refine List.ext_getElem ?_ ?_
    · rw [List.length_map, List.length_map, hlength, hdrawn]
    · intro n hn _
      rw [List.getElem_map, List.getElem_map, List.getElem_of_eq hpayloads, List.getElem_zipWith,
        nonceOf_send]
  rw [hnonces, hlength, take_drop_eq_map_range', List.map_map]
  rfl

/-! ## Whole runs -/

theorem Seeded.step_servers (state : Seeded) (event : Event) :
    (state.step sha256 aes keys event).router.servers =
      (Router.step aes keys (observedExchange sha256 aes) state.router event).servers := by
  unfold Seeded.step
  dsimp only
  split
  · rfl
  · rfl

/-- The bytes of the nonce in a block. -/
def Process.nonceAt (words : S → Words) (process : Process S) (b : Nat) : Bytes :=
  ((process.nonces words).get b).toList

section Run

variable (world : World S) (mallocs : Fin numServers → Stream' (Option RawBlock))
  (events : List Event)

/-- The router is where the count says, and so is every shard. -/
theorem seededSystem_draws :
    Follows (world.router.nonces world.words) (Draws.start.run aes events)
        (seededSystem sha256 aes keys world mallocs events) ∧
      ∀ i, ShardDraws ((world.shards i).nonces world.words) i
        (seededSystem sha256 aes keys world mallocs events).router.servers := by
  induction events using List.reverseRecOn with
  | nil =>
      refine ⟨⟨rfl, rfl, rfl, rfl, rfl, Nat.le_refl _⟩, ?_⟩
      intro i
      exact ⟨rfl, rfl, Nat.le_refl _⟩
  | append_singleton events event ih =>
      obtain ⟨hfollows, hshards⟩ := ih
      have hconcat : seededSystem sha256 aes keys world mallocs (events ++ [event]) =
          (seededSystem sha256 aes keys world mallocs events).step sha256 aes keys event := by
        simp [seededSystem]
      rw [hconcat, Draws.run_concat]
      refine ⟨hfollows.step event, ?_⟩
      intro i
      rw [Seeded.step_servers]
      exact step_keeps aes keys (fun j payload _ h => h.exchange sha256 aes j payload)
        (hshards i) event

theorem routerNonces_eq (link : Link) :
    (seededSystem sha256 aes keys world mallocs events).routerNonces link =
      ((Draws.start.run aes events).blocksOf link).map (world.router.nonceAt world.words) := by
  have hfollows := (seededSystem_draws sha256 aes keys world mallocs events).1
  rw [Seeded.routerNonces, hfollows.encrypted, inBlocks, Draws.blocksOf, List.filter_map,
    List.map_map, List.map_map]
  simp only [Function.comp_def, Process.nonceAt]

theorem peerNonces_eq (link : Link) :
    let nonces := (seededSystem sha256 aes keys world mallocs events).peerNonces aes world link
    nonces = (List.range' (peerStart link) nonces.length).map
      ((world.peer link).nonceAt world.words) := by
  cases link with
  | shard i =>
      have hreplies := ((seededSystem_draws sha256 aes keys world mallocs events).2 i).replies
      intro nonces
      have hnonces : nonces = (world.shards i).nonceAt world.words secretBlocks ::
          (repliesOf i (seededSystem sha256 aes keys world mallocs
            events).router.servers.exchanges).map nonceOf := rfl
      rw [hnonces, List.length_cons, List.length_map, List.range'_succ, List.map_cons, hreplies]
      rfl
  | client n =>
      have hrecords := commandLoop_draws aes ((world.clients n).nonces world.words)
        (world.sessionKeys n) (world.iterations n) clientHandshakeBlocks
      intro nonces
      have hnonces : nonces = _ := hrecords
      rw [hnonces, List.length_map, List.length_range']
      rfl

/-- A shard sends no more records than the router draws blocks, and its hello. -/
theorem peerNonces_shard_length_le (i : Fin numServers) :
    ((seededSystem sha256 aes keys world mallocs events).peerNonces aes world
      (.shard i)).length ≤ (Draws.start.run aes events).position + 1 := by
  obtain ⟨hfollows, hshards⟩ := seededSystem_draws sha256 aes keys world mallocs events
  have hreplies := (hshards i).length
  have hexchanges := hfollows.exchanges
  have hreads := (Draws.ordered_start.run aes events).length
  rw [Seeded.peerNonces, List.length_cons, List.length_map]
  omega

/-- A client sends no more records than it is given commands. -/
theorem peerNonces_client_length_le (n : Nat) :
    ((seededSystem sha256 aes keys world mallocs events).peerNonces aes world
      (.client n)).length ≤ (world.iterations n).length := by
  rw [Seeded.peerNonces, List.length_map]
  exact Client.payloads_commandLoop_length_le aes _ _ _

/-- The blocks that the processes of the run draw. -/
def World.Drawn : S → Nat → Prop := fun s b =>
  (s = world.router.seed ∧ b < (Draws.start.run aes events).position) ∨
    ∃ link, s = (world.peer link).seed ∧ b < peerStart link +
      ((seededSystem sha256 aes keys world mallocs events).peerNonces aes world link).length

end Run

/-! ## Equal nonces -/

/-- The number of the block takes all bytes of a nonce. -/
def fillsNonce (words : S → Words) (r : S × Nat) : Bool :=
  decide (256 ^ (nonceSize - 1) ≤ block (words r.1) r.2)

/-- The nonce of such a block, whatever the array held before. -/
def filledNonce (words : S → Words) (r : S × Nat) : Nonce :=
  mpzExport (List.Vector.replicate _ 0) (block (words r.1) r.2)

theorem block_lt_nonce (words : Words) (b : Nat) : block words b < 256 ^ nonceSize :=
  Nat.lt_of_lt_of_le (block_lt words b) (by decide)

theorem nonceAt_of_fills {words : S → Words} {process : Process S} {b : Nat}
    (h : fillsNonce words (process.seed, b)) :
    process.nonceAt words b = (filledNonce words (process.seed, b)).toList :=
  congrArg List.Vector.toList
    (mpzExport_of_full (of_decide_eq_true h) (block_lt_nonce _ _) _ _)

/-- It determines the number of the block. -/
theorem block_eq_of_filledNonce {words : S → Words} {r r' : S × Nat} (h : fillsNonce words r)
    (h' : fillsNonce words r') (heq : (filledNonce words r).toList = (filledNonce words r').toList) :
    block (words r.1) r.2 = block (words r'.1) r'.2 := by
  have hnonces : filledNonce words r = filledNonce words r' := List.Vector.toList_injective heq
  calc block (words r.1) r.2
      = mpzImport (filledNonce words r) :=
        (mpzImport_mpzExport_of_full (of_decide_eq_true h) (block_lt_nonce _ _) _).symm
    _ = mpzImport (filledNonce words r') := congrArg mpzImport hnonces
    _ = block (words r'.1) r'.2 :=
        mpzImport_mpzExport_of_full (of_decide_eq_true h') (block_lt_nonce _ _) _

/-- The nonces of a process in the blocks that fill one. -/
def Process.filledNonces (words : S → Words) (process : Process S) (blocks : List Nat) :
    List Bytes :=
  (blocks.filter fun b => fillsNonce words (process.seed, b)).map (process.nonceAt words)

theorem Process.filledNonces_eq (words : S → Words) (process : Process S) (blocks : List Nat) :
    process.filledNonces words blocks =
      (((blocks.map (Prod.mk process.seed)).filter (fillsNonce words))).map
        fun r => (filledNonce words r).toList := by
  rw [Process.filledNonces, List.filter_map, List.map_map]
  simp only [Function.comp_def]
  refine List.map_congr_left ?_
  intro b hb
  exact nonceAt_of_fills (List.mem_filter.mp hb).2

/-- The nonces that fill their array, of both ends together, are distinct exactly if
the ends do not come across each other in the same stream. -/
theorem nodup_filledNonces_iff {words : S → Words} {drawn : S → Nat → Prop}
    (hideal : NoRepeat words drawn) {process peer : Process S} {blocks : List Nat}
    {start count : Nat} (hblocks : blocks.Nodup) (hstart : ∀ b ∈ blocks, start ≤ b)
    (hdrawn : ∀ b ∈ blocks, drawn process.seed b)
    (hdrawn' : ∀ b, b < start + count → drawn peer.seed b) :
    (process.filledNonces words blocks ++
        peer.filledNonces words (List.range' start count)).Nodup ↔
      ¬ (process.seed = peer.seed ∧
        ∃ b ∈ blocks, b < start + count ∧ fillsNonce words (process.seed, b)) := by
  rw [process.filledNonces_eq, peer.filledNonces_eq, ← List.map_append, ← List.filter_append]
  change (((reads process.seed peer.seed blocks start count).filter (fillsNonce words)).map
    _).Nodup ↔ _
  rw [hideal.nodup_map_iff, nodup_filter_reads_iff hblocks hstart]
  · intro r hr
    obtain ⟨hmem, _⟩ := List.mem_filter.mp hr
    rcases List.mem_append.mp hmem with hfirst | hsecond
    · obtain ⟨b, hb, rfl⟩ := List.mem_map.mp hfirst
      exact hdrawn b hb
    · obtain ⟨b, hb, rfl⟩ := List.mem_map.mp hsecond
      exact hdrawn' b (List.mem_range'_1.mp hb).2
  · intro r hr r' hr' heq
    exact block_eq_of_filledNonce (List.mem_filter.mp hr).2 (List.mem_filter.mp hr').2 heq

section Run

variable (world : World S) (mallocs : Fin numServers → Stream' (Option RawBlock))
  (events : List Event)

/-- **Nonces.**  With an ideal generator, the nonces under a session key are those of
the blocks that the count says for the router, and of consecutive blocks for the
other end.  Two of them that fill their array are equal exactly if both ends were
started in the same second and the other end has reached a block that the router
encrypted with, of which the first is the 116th. -/
theorem nonces_repeat_iff (link : Link)
    (hideal : NoRepeat world.words (world.Drawn sha256 aes keys mallocs events)) :
    let state := seededSystem sha256 aes keys world mallocs events
    let peer := world.peer link
    let blocks := (Draws.start.run aes events).blocksOf link
    let count := (state.peerNonces aes world link).length
    let peerBlocks := List.range' (peerStart link) count
    state.routerNonces link = blocks.map (world.router.nonceAt world.words) ∧
      state.peerNonces aes world link = peerBlocks.map (peer.nonceAt world.words) ∧
      ((world.router.filledNonces world.words blocks ++
          peer.filledNonces world.words peerBlocks).Nodup ↔
        ¬ (world.router.seed = peer.seed ∧ ∃ b ∈ blocks, b < peerStart link + count ∧
          fillsNonce world.words (world.router.seed, b))) ∧
      ∀ b ∈ blocks, 115 ≤ b := by
  intro state peer blocks count peerBlocks
  have hordered : (Draws.start.run aes events).Ordered := Draws.ordered_start.run aes events
  have hfirst : ∀ b ∈ blocks, 115 ≤ b := fun b hb => (hordered.of_mem_blocksOf hb).1
  have hstart : peerStart link ≤ 115 := by
    cases link with
    | shard i => exact (by decide : secretBlocks ≤ 115)
    | client n => exact (by decide : clientHandshakeBlocks ≤ 115)
  refine ⟨routerNonces_eq sha256 aes keys world mallocs events link,
    peerNonces_eq sha256 aes keys world mallocs events link, ?_, hfirst⟩
  refine nodup_filledNonces_iff hideal (hordered.blocksOf_nodup link) ?_ ?_ ?_
  · exact fun b hb => Nat.le_trans hstart (hfirst b hb)
  · exact fun b hb => Or.inl ⟨rfl, (hordered.of_mem_blocksOf hb).2⟩
  · exact fun b hb => Or.inr ⟨link, rfl, hb⟩

end Run

/-! ## A client started in the same second as the router -/

/-- A stream whose blocks are numbered. -/
def countingWords (n : Nat) : UInt32 :=
  if n % 4 = 0 then UInt32.ofNat (n / 4) else if n % 4 = 3 then 2 ^ 31 else 0

theorem countingWords_noRepeat {drawn : Unit → Nat → Prop}
    (h : ∀ s b, drawn s b → b < 2 ^ 32) : NoRepeat (fun _ : Unit => countingWords) drawn := by
  intro s b s' b' hdrawn hdrawn' hsame
  have hwords : UInt32.ofNat b = UInt32.ofNat b' := by
    have hfirst : countingWords (4 * b + 0) = countingWords (4 * b' + 0) := hsame 0 (by decide)
    have hzero : ∀ n, countingWords (4 * n + 0) = UInt32.ofNat n := by
      intro n
      have hmod : (4 * n + 0) % 4 = 0 := by omega
      have hdiv : (4 * n + 0) / 4 = n := by omega
      rw [countingWords, if_pos hmod, hdiv]
    rwa [hzero, hzero] at hfirst
  have hb : (UInt32.ofNat b).toNat = b := UInt32.toNat_ofNat_of_lt' (h s b hdrawn)
  have hb' : (UInt32.ofNat b').toNat = b' := UInt32.toNat_ofNat_of_lt' (h s' b' hdrawn')
  refine ⟨rfl, ?_⟩
  rw [← hb, hwords, hb']

/-- All processes are started in the same second.  The first client retrieves 83
times. -/
def sameSecond : World Unit where
  words := fun _ => countingWords
  router := ⟨(), fun _ => exampleNonce⟩
  shards := fun _ => ⟨(), fun _ => exampleNonce⟩
  clients := fun _ => ⟨(), fun _ => exampleNonce⟩
  sessionKeys := fun _ => exampleKey
  iterations := fun n =>
    List.replicate (if n = 0 then 83 else 0)
      ⟨ascii "retrieve\n", 0, some (sendEncyptedData clearAes exampleKey exampleNonce
        (ascii "Server 1:\nNO_DATA\nServer 2:\nNO_DATA\nServer 3:\nNO_DATA\n"))⟩

/-- The records of this client. -/
def retrieveRecords : List Bytes :=
  Client.payloads (Client.commandLoop clearAes exampleKey
    (((sameSecond.clients 0).nonces sameSecond.words).drop clientHandshakeBlocks)
    (sameSecond.iterations 0))

/-- They all reach the router. -/
def retrieveEvents : List Event :=
  .accept exampleKey :: retrieveRecords.map fun record => .deliver (some record)

/-- The run of this world. -/
abbrev sameSecondSystem : List Event → Seeded :=
  seededSystem Sha256.sha256 clearAes (fun _ => exampleKey) sameSecond
    (fun _ => Stream'.const (some zeroBlock))

theorem retrieveRecords_length : retrieveRecords.length = 83 :=
  Client.payloads_retrieves_length clearAes exampleKey _ 0 _ 83

theorem retrieveEvents_length : retrieveEvents.length = 84 := by
  rw [retrieveEvents, List.length_cons, List.length_map, retrieveRecords_length]

/-- Little is drawn in the run. -/
theorem sameSecond_drawn (s : Unit) (b : Nat)
    (h : sameSecond.Drawn Sha256.sha256 clearAes (fun _ => exampleKey)
      (fun _ => Stream'.const (some zeroBlock)) retrieveEvents s b) : b < 2 ^ 32 := by
  have hposition : (Draws.start.run clearAes retrieveEvents).position ≤ 1527 := by
    have hle := Draws.start.position_run_le clearAes retrieveEvents
    rw [retrieveEvents_length] at hle
    exact hle
  rcases h with ⟨_, hb⟩ | ⟨link, _, hb⟩
  · omega
  · cases link with
    | shard i =>
        have hcount := peerNonces_shard_length_le Sha256.sha256 clearAes (fun _ => exampleKey)
          sameSecond (fun _ => Stream'.const (some zeroBlock)) retrieveEvents i
        simp only [peerStart, secretBlocks] at hb
        omega
    | client n =>
        have hcount := peerNonces_client_length_le Sha256.sha256 clearAes (fun _ => exampleKey)
          sameSecond (fun _ => Stream'.const (some zeroBlock)) retrieveEvents n
        have hiterations : (sameSecond.iterations n).length ≤ 83 := by
          change (List.replicate _ _).length ≤ 83
          rw [List.length_replicate]
          split
          · exact Nat.le_refl _
          · exact Nat.zero_le _
        simp only [peerStart, clientHandshakeBlocks, secretBlocks] at hb
        omega

/-- The generator of the run repeats no block. -/
theorem sameSecond_ideal :
    NoRepeat sameSecond.words (sameSecond.Drawn Sha256.sha256 clearAes (fun _ => exampleKey)
      (fun _ => Stream'.const (some zeroBlock)) retrieveEvents) :=
  countingWords_noRepeat sameSecond_drawn

/-- The theorem at this run, for the first client. -/
theorem nonces_repeat_iff_sameSecond :
    let blocks := (Draws.start.run clearAes retrieveEvents).blocksOf (.client 0)
    let count := ((sameSecondSystem retrieveEvents).peerNonces clearAes sameSecond
      (.client 0)).length
    let peer := sameSecond.peer (.client 0)
    let peerBlocks := List.range' (peerStart (.client 0)) count
    ((sameSecond.router.filledNonces sameSecond.words blocks ++
        peer.filledNonces sameSecond.words peerBlocks).Nodup ↔
      ¬ (sameSecond.router.seed = peer.seed ∧ ∃ b ∈ blocks, b < peerStart (.client 0) + count ∧
        fillsNonce sameSecond.words (sameSecond.router.seed, b))) ∧
      ∀ b ∈ blocks, 115 ≤ b :=
  (nonces_repeat_iff Sha256.sha256 clearAes (fun _ => exampleKey) sameSecond
    (fun _ => Stream'.const (some zeroBlock)) retrieveEvents (.client 0) sameSecond_ideal).2.2

/-- Its 83rd record has the nonce of the router's hello. -/
theorem nonce_of_hello_repeated :
    NoRepeat sameSecond.words (sameSecond.Drawn Sha256.sha256 clearAes (fun _ => exampleKey)
      (fun _ => Stream'.const (some zeroBlock)) retrieveEvents) ∧
    ¬ ((sameSecondSystem retrieveEvents).routerNonces (.client 0) ++
      (sameSecondSystem retrieveEvents).peerNonces clearAes sameSecond (.client 0)).Nodup := by
  refine ⟨sameSecond_ideal, ?_⟩
  intro hnodup
  have hcount : ((sameSecondSystem retrieveEvents).peerNonces clearAes sameSecond
      (.client 0)).length = 83 := by
    rw [Seeded.peerNonces, List.length_map]
    exact retrieveRecords_length
  rw [routerNonces_eq, peerNonces_eq, hcount] at hnodup
  have hrouter := List.mem_map_of_mem (f := sameSecond.router.nonceAt sameSecond.words)
    (Draws.firstRead_mem_blocksOf clearAes exampleKey
      (retrieveRecords.map fun record => .deliver (some record)))
  have hread : firstRead ∈ List.range' (peerStart (.client 0)) 83 := by decide
  have hpeer := List.mem_map_of_mem
    (f := (sameSecond.peer (.client 0)).nonceAt sameSecond.words) hread
  exact List.disjoint_of_nodup_append hnodup hrouter hpeer

end ShardedLedger.Router
