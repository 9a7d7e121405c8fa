import ShardedLedger.Foundation.Sockets
import ShardedLedger.Router.Sharding
set_option autoImplicit false

/-!
# Router: the process and its sockets (`router/router.c`)

Every send of the router is a `send` without flags, its result is not looked at, and
no signal is provided for.  So a send on a connection that was reset ends the
process; the shards then see the end of their streams and leave their loops.  That
can happen at a reply to a client that has gone, and at a command to a shard that
has left its loop.

`RouterMain` is the router of `HandleClient` with its four sockets.  The process
begins a session where the key exchange with the client is done.
-/

namespace ShardedLedger.Router

open CString Channel Server Sha256 Sockets

/-- What happens to the process: an event of the router, or the client that is being
served closes its end, or aborts the connection. -/
inductive MainEvent where
  | event (event : Event)
  | hangup (aborted : Bool)

/-- The event of the router, if it is one. -/
def MainEvent.toEvent : MainEvent → Option Event
  | .event e => some e
  | .hangup _ => none

/-- The process of the router, and the shards behind its sockets. -/
structure RouterMain where
  router : RouterState Shards
  /-- Whether the process runs. -/
  alive : Bool
  /-- `client_sock`. -/
  client : Socket
  /-- `server_sockets`. -/
  links : Fin numServers → Socket

variable (sha256 : Bytes → Digest) (aes : AesGcm) (keys : Fin numServers → SessionKey)

namespace RouterMain

/-- `SIGPIPE`: all sockets of the process are closed, and every shard receives the
end of its stream. -/
def killed (main : RouterMain) : RouterMain :=
  { main with
    alive := false
    router := { main.router with
      session := none
      servers := fun i => (main.router.servers i).serve sha256 aes (some []) } }

/-- `send_command_to_server`; a shard that leaves its loop closes its end.  There is
no response where the send kills the process. -/
def sendCommandToServer (serverIndex : Fin numServers) (message : Bytes) (main : RouterMain) :
    Option Bytes × RouterMain :=
  match (main.links serverIndex).send with
  | none => (none, main.killed sha256 aes)
  | some link =>
      let (response, router) :=
        Router.sendCommandToServer aes keys (shardExchange sha256 aes) serverIndex message
          main.router
      let link := if (router.servers serverIndex).serving then link else link.peerCloses false
      (some response,
        { main with router := router, links := Function.update main.links serverIndex link })

/-- The loop over the servers that builds `formatted_response`. -/
def retrieveLoop (message : Bytes) : List (Fin numServers) → Bytes → RouterMain →
    Option Bytes × RouterMain
  | [], formattedResponse, main => (some formattedResponse, main)
  | i :: rest, formattedResponse, main =>
      match sendCommandToServer sha256 aes keys i message main with
      | (none, main) => (none, main)
      | (some serverResponse, main) =>
          retrieveLoop message rest
            (strncat (roomLeft formattedResponseSize formattedResponse) formattedResponse
              (formattedServerResponse i serverResponse)) main

/-- `send_encypted_data` to the client. -/
def answer (sessionKey : SessionKey) (request response : Bytes) (main : RouterMain) :
    RouterMain :=
  match main.client.send with
  | none => main.killed sha256 aes
  | some client =>
      { main with
        router := Router.answer aes sessionKey request response main.router
        client := client }

/-- The dispatch of `handle_client` on a decrypted request. -/
def handleRequest (sessionKey : SessionKey) (decryptedData : Bytes) (main : RouterMain) :
    RouterMain :=
  let request := decryptedData ++ [0]
  if strcmpEq request (ascii "EXIT") then
    { main with router := { main.router with session := none } }
  else if strcmpEq request (ascii "RETRIEVE") then
    match retrieveLoop sha256 aes keys request (List.finRange numServers) [] main with
    | (none, main) => main
    | (some formattedResponse, main) =>
        answer sha256 aes sessionKey request formattedResponse main
  else
    let serverIndex := main.router.currentServer
    match sendCommandToServer sha256 aes keys serverIndex request
        { main with router := { main.router with currentServer := serverIndex + 1 } } with
    | (none, main) => main
    | (some serverResponse, main) => answer sha256 aes sessionKey request serverResponse main

/-- One step of the running process: the `accept` of `main`, or one iteration of the
loop of `handle_client`. -/
def handle (main : RouterMain) : Event → RouterMain
  | .accept sessionKey =>
      match main.router.session with
      | none =>
          { main with
            router := { main.router with session := some sessionKey }
            client := .connected }
      | some _ => main
  | .deliver pending =>
      match main.router.session with
      | none => main
      | some sessionKey =>
          match receiveEncyptedData aes sessionKey (recv expectedPayloadLen pending) with
          | none => { main with router := { main.router with session := none } }
          | some [] => { main with router := { main.router with session := none } }
          | some decryptedData => handleRequest sha256 aes keys sessionKey decryptedData main

/-- One step. -/
def step (main : RouterMain) : MainEvent → RouterMain
  | .hangup aborted =>
      match main.router.session with
      | none => main
      | some _ => { main with client := main.client.peerCloses aborted }
  | .event event =>
      if main.alive then main.handle sha256 aes keys event else main

/-- A run of the process. -/
def run (main : RouterMain) (events : List MainEvent) : RouterMain :=
  events.foldl (step sha256 aes keys) main

/-- The events that the process handles before it ends. -/
def handled (main : RouterMain) : List MainEvent → List Event
  | [] => []
  | event :: rest =>
      (if main.alive then event.toEvent.toList else []) ++
        handled (main.step sha256 aes keys event) rest

theorem run_concat (main : RouterMain) (events : List MainEvent) (event : MainEvent) :
    run sha256 aes keys main (events ++ [event]) =
      step sha256 aes keys (run sha256 aes keys main events) event := by
  simp [run]

theorem handled_concat (main : RouterMain) (events : List MainEvent) (event : MainEvent) :
    main.handled sha256 aes keys (events ++ [event]) =
      main.handled sha256 aes keys events ++
        if (main.run sha256 aes keys events).alive then event.toEvent.toList else [] := by
  induction events generalizing main with
  | nil => exact List.append_nil _
  | cons first rest ih =>
      rw [List.cons_append, handled, ih, handled, List.append_assoc]
      rfl

/-- The process before its first client: the handshakes with the shards are done. -/
def start (nonces : Stream' Nonce) (serverNonces : Fin numServers → Stream' Nonce)
    (mallocs : Fin numServers → Stream' (Option RawBlock)) : RouterMain where
  router := Router.start nonces keys serverNonces mallocs
  alive := true
  client := .closed
  links := fun _ => .connected

/-! ## The end of the process -/

section

variable (main : RouterMain)

@[simp] theorem killed_alive : (main.killed sha256 aes).alive = false := rfl

@[simp] theorem killed_session : (main.killed sha256 aes).router.session = none := rfl

@[simp] theorem killed_currentServer :
    (main.killed sha256 aes).router.currentServer = main.router.currentServer := rfl

@[simp] theorem killed_answers :
    (main.killed sha256 aes).router.answers = main.router.answers := rfl

/-- The end of the stream ends the loop of a shard, and changes nothing else. -/
theorem serve_end (shard : Shard) :
    shard.serve sha256 aes (some []) = { shard with serving := false } := by
  unfold Shard.serve
  split
  · rename_i hstopped
    rw [Bool.not_eq_true', ← Bool.not_eq_true, Bool.not_eq_true] at hstopped
    rw [← hstopped]
  · rfl

@[simp] theorem killed_servers (i : Fin numServers) :
    (main.killed sha256 aes).router.servers i =
      { main.router.servers i with serving := false } :=
  serve_end sha256 aes _

/-- Nothing happens to a process that has ended. -/
theorem step_of_dead {main : RouterMain} (halive : main.alive = false)
    (hsession : main.router.session = none) (event : MainEvent) :
    main.step sha256 aes keys event = main := by
  cases event with
  | hangup aborted => simp only [step, hsession]
  | event event => simp only [step, halive, Bool.false_eq_true, if_false]

end

/-! ## A process with all its links

As long as no shard has left its loop, the process does what the router does, but
for the last send. -/

/-- The connections to the shards are whole. -/
def Linked (main : RouterMain) : Prop := ∀ i, main.links i = .connected

/-- A shard that still serves was serving before the command. -/
theorem serving_of_sendCommandToServer {i j : Fin numServers} {m : Bytes}
    {state : RouterState Shards}
    (h : ((Router.sendCommandToServer aes keys (shardExchange sha256 aes) i m state).2.servers
      j).serving = true) : (state.servers j).serving = true := by
  by_cases hj : j = i
  · subst hj
    rw [sendCommandToServer_servers, shardExchange] at h
    dsimp only at h
    rw [Function.update_self] at h
    by_contra hstopped
    rw [Bool.not_eq_true] at hstopped
    have hserve : ∀ received, (state.servers j).serve sha256 aes received = state.servers j := by
      intro received
      rw [Shard.serve, hstopped]
      rfl
    rw [hserve] at h
    have hsame : (receiveFrom (state.servers j)).2.serving = (state.servers j).serving := by
      unfold receiveFrom
      split <;> rfl
    rw [hsame, hstopped] at h
    cases h
  · rwa [sendCommandToServer_other sha256 aes keys hj] at h

theorem serving_of_retrieveLoop {j : Fin numServers} {m : Bytes} (servers : List (Fin numServers))
    {formatted : Bytes} {state : RouterState Shards}
    (h : ((Router.retrieveLoop aes keys (shardExchange sha256 aes) m servers formatted
      state).2.servers j).serving = true) : (state.servers j).serving = true := by
  induction servers generalizing formatted state with
  | nil => exact h
  | cons i rest ih => exact serving_of_sendCommandToServer sha256 aes keys (ih h)

/-- A command on a whole link goes to the shard, and the link is lost only with the
shard. -/
theorem sendCommandToServer_of_connected {main : RouterMain} {i : Fin numServers}
    (h : main.links i = .connected) (m : Bytes) :
    let sent := Router.sendCommandToServer aes keys (shardExchange sha256 aes) i m main.router
    ∃ links, main.sendCommandToServer sha256 aes keys i m =
        (some sent.1, { main with router := sent.2, links := links }) ∧
      (∀ j, j ≠ i → links j = main.links j) ∧
      ((sent.2.servers i).serving = true → links i = .connected) := by
  intro sent
  refine ⟨Function.update main.links i
    (if (sent.2.servers i).serving then .connected else .closed), ?_, ?_, ?_⟩
  · simp only [sendCommandToServer, h, Socket.send_connected]
    rfl
  · intro j hj
    rw [Function.update_of_ne hj]
  · intro hserving
    rw [Function.update_self, if_pos hserving]

/-- So does the loop over servers with whole links. -/
theorem retrieveLoop_of_connected {main : RouterMain} (m : Bytes)
    {servers : List (Fin numServers)} (hnodup : servers.Nodup)
    (h : ∀ i ∈ servers, main.links i = .connected) (formatted : Bytes) :
    let done := Router.retrieveLoop aes keys (shardExchange sha256 aes) m servers formatted
      main.router
    ∃ links, main.retrieveLoop sha256 aes keys m servers formatted =
        (some done.1, { main with router := done.2, links := links }) ∧
      ∀ j, (done.2.servers j).serving = true → main.links j = .connected →
        links j = .connected := by
  induction servers generalizing main formatted with
  | nil => exact ⟨main.links, rfl, fun _ _ hconnected => hconnected⟩
  | cons i rest ih =>
      obtain ⟨hi, hrest⟩ := List.nodup_cons.mp hnodup
      obtain ⟨hfirst, hothers⟩ := List.forall_mem_cons.mp h
      obtain ⟨links, hsend, hother, hkept⟩ :=
        sendCommandToServer_of_connected sha256 aes keys hfirst m
      let sent := Router.sendCommandToServer aes keys (shardExchange sha256 aes) i m main.router
      let asked : RouterMain := { main with router := sent.2, links := links }
      have hasked : ∀ j ∈ rest, asked.links j = .connected := by
        intro j hj
        rw [← hothers j hj]
        exact hother j fun heq => hi (heq ▸ hj)
      obtain ⟨links', hloop, hkept'⟩ := ih hrest hasked _
      refine ⟨links', ?_, ?_⟩
      · rw [retrieveLoop, hsend]
        exact hloop
      · intro j hserving hconnected
        refine hkept' j hserving ?_
        by_cases hj : j = i
        · subst hj
          exact hkept (serving_of_retrieveLoop sha256 aes keys rest hserving)
        · exact (hother j hj).trans hconnected

/-- The three branches of the dispatch, for commands that the shards receive. -/
theorem handleRequest_exit (main : RouterMain) (sessionKey : SessionKey) {m : Bytes}
    (h : cstr m = ascii "EXIT") :
    main.handleRequest sha256 aes keys sessionKey m =
      { main with router := { main.router with session := none } } := by
  rw [handleRequest]
  exact if_pos (strcmpEq_append_nul_of_eq rfl h)

theorem handleRequest_retrieve {main asked : RouterMain} (sessionKey : SessionKey) {m : Bytes}
    (h : cstr m = ascii "RETRIEVE") {formattedResponse : Bytes}
    (hloop : main.retrieveLoop sha256 aes keys (m ++ [0]) (List.finRange numServers) [] =
      (some formattedResponse, asked)) :
    main.handleRequest sha256 aes keys sessionKey m =
      asked.answer sha256 aes sessionKey (m ++ [0]) formattedResponse := by
  have hexit : strcmpEq (m ++ [0]) (ascii "EXIT") = false :=
    strcmpEq_append_nul_of_ne rfl (by rw [h]; decide)
  have hword : strcmpEq (m ++ [0]) (ascii "RETRIEVE") = true := strcmpEq_append_nul_of_eq rfl h
  simp only [handleRequest, hexit, hword, hloop, Bool.false_eq_true, if_false, if_true]

theorem handleRequest_store {main asked : RouterMain} (sessionKey : SessionKey) {m : Bytes}
    (h : IsStore m) {serverResponse : Bytes}
    (hsend : sendCommandToServer sha256 aes keys main.router.currentServer (m ++ [0])
      { main with router := { main.router with currentServer := main.router.currentServer + 1 } } =
        (some serverResponse, asked)) :
    main.handleRequest sha256 aes keys sessionKey m =
      asked.answer sha256 aes sessionKey (m ++ [0]) serverResponse := by
  have hexit : strcmpEq (m ++ [0]) (ascii "EXIT") = false := strcmpEq_append_nul_of_ne rfl h.1
  have hword : strcmpEq (m ++ [0]) (ascii "RETRIEVE") = false := strcmpEq_append_nul_of_ne rfl h.2
  simp only [handleRequest, hexit, hword, Bool.false_eq_true, if_false]
  rw [hsend]

/-- What becomes of a process whose dispatch ends with a reply: the reply goes out, or
the process ends and all but the reply has been done. -/
def Replies (main : RouterMain) (after : RouterState Shards) (done : RouterMain) : Prop :=
  ∃ links router,
    done =
      (match main.client.send with
        | none => killed sha256 aes { main with router := router, links := links }
        | some client => { main with router := after, client := client, links := links }) ∧
    (∀ i, (after.servers i).serving = true → links i = .connected) ∧
    router.servers = after.servers ∧ router.currentServer = after.currentServer ∧
    router.answers = main.router.answers

section

variable {sha256 aes keys} {main : RouterMain}

theorem Linked.retrieve (h : main.Linked) (sessionKey : SessionKey) {m : Bytes}
    (hretrieve : cstr m = ascii "RETRIEVE") :
    Replies sha256 aes main
      (Router.handleRequest aes keys (shardExchange sha256 aes) sessionKey m main.router)
      (main.handleRequest sha256 aes keys sessionKey m) := by
  obtain ⟨links, hloop, hlinks⟩ := retrieveLoop_of_connected sha256 aes keys (m ++ [0])
    (List.nodup_finRange numServers) (fun i _ => h i) []
  rw [Router.handleRequest_retrieve aes keys _ sessionKey hretrieve,
    handleRequest_retrieve sha256 aes keys sessionKey hretrieve hloop]
  let done := Router.retrieveLoop aes keys (shardExchange sha256 aes) (m ++ [0])
    (List.finRange numServers) [] main.router
  have hanswers : done.2.answers = main.router.answers :=
    (retrieveLoop_frame aes keys _ _ _ _ _).2.2
  refine ⟨links, done.2, ?_, fun i hserving => hlinks i hserving (h i), rfl, rfl, hanswers⟩
  rw [answer]

theorem Linked.store (h : main.Linked) (sessionKey : SessionKey) {m : Bytes}
    (hstore : IsStore m) :
    Replies sha256 aes main
      (Router.handleRequest aes keys (shardExchange sha256 aes) sessionKey m main.router)
      (main.handleRequest sha256 aes keys sessionKey m) := by
  let advanced : RouterMain :=
    { main with router := { main.router with currentServer := main.router.currentServer + 1 } }
  have hlink : advanced.links main.router.currentServer = .connected := h _
  obtain ⟨links, hsend, hother, hkept⟩ :=
    sendCommandToServer_of_connected sha256 aes keys hlink (m ++ [0])
  rw [Router.handleRequest_store aes keys _ sessionKey hstore,
    handleRequest_store sha256 aes keys sessionKey hstore hsend]
  let sent := Router.sendCommandToServer aes keys (shardExchange sha256 aes)
    main.router.currentServer (m ++ [0]) advanced.router
  refine ⟨links, sent.2, ?_, ?_, rfl, rfl, rfl⟩
  · rw [answer]
  · intro i hserving
    by_cases hi : i = main.router.currentServer
    · subst hi
      exact hkept hserving
    · exact (hother i hi).trans (h i)

/-- Whatever the message is, if it asks for a reply. -/
theorem Linked.replies (h : main.Linked) (sessionKey : SessionKey) {m : Bytes}
    (hexit : cstr m ≠ ascii "EXIT") :
    Replies sha256 aes main
      (Router.handleRequest aes keys (shardExchange sha256 aes) sessionKey m main.router)
      (main.handleRequest sha256 aes keys sessionKey m) := by
  by_cases hretrieve : cstr m = ascii "RETRIEVE"
  · exact h.retrieve sessionKey hretrieve
  · exact h.store sessionKey ⟨hexit, hretrieve⟩

end

/-- An event that brings no message is handled as by the router. -/
theorem handle_of_no_message {main : RouterMain} {event : Event}
    (h : message aes main.router.session event = none) :
    ∃ client, main.handle sha256 aes keys event =
      { main with
        router := Router.step aes keys (shardExchange sha256 aes) main.router event
        client := client } := by
  cases event with
  | accept sessionKey =>
      cases hsession : main.router.session with
      | none => exact ⟨.connected, by simp only [handle, Router.step, hsession]⟩
      | some key => exact ⟨main.client, by simp only [handle, Router.step, hsession]⟩
  | deliver pending =>
      refine ⟨main.client, ?_⟩
      cases hsession : main.router.session with
      | none => simp only [handle, Router.step, hsession]
      | some key =>
          rw [hsession] at h
          simp only [handle, Router.step, hsession]
          cases hreceive : receiveEncyptedData aes key (recv expectedPayloadLen pending) with
          | none => rfl
          | some data =>
              cases data with
              | nil => rfl
              | cons c rest => simp [message, hreceive, Option.filter] at h

/-- An event that brings a message hands it to the dispatch. -/
theorem handle_of_message {main : RouterMain} {event : Event} {m : Bytes}
    (h : message aes main.router.session event = some m) :
    ∃ sessionKey, main.handle sha256 aes keys event =
        main.handleRequest sha256 aes keys sessionKey m ∧
      Router.step aes keys (shardExchange sha256 aes) main.router event =
        Router.handleRequest aes keys (shardExchange sha256 aes) sessionKey m main.router := by
  obtain ⟨key, hsession, hstep⟩ := step_of_message aes keys (shardExchange sha256 aes) h
  refine ⟨key, ?_, hstep⟩
  cases event with
  | accept _ => simp [message] at h
  | deliver pending =>
      simp only [message, hsession, Option.filter_eq_some_iff, ne_eq, decide_not,
        Bool.not_eq_true', decide_eq_false_iff_not] at h
      obtain ⟨c, rest, rfl⟩ := List.exists_cons_of_ne_nil h.2
      simp only [handle, hsession, h.1]

/-- The message that an event brings to the process. -/
def messageAt (main : RouterMain) : MainEvent → Option Bytes
  | .event event => message aes main.router.session event
  | .hangup _ => none

/-- The event asks for a reply on a connection that was reset. -/
def Unanswerable (main : RouterMain) (event : MainEvent) : Prop :=
  main.client = .reset ∧ ∃ m, main.messageAt aes event = some m ∧ cstr m ≠ ascii "EXIT"

/-- The running process after an event: what the router makes of it. -/
structure Continues (main : RouterMain) (event : Event) (after : RouterMain) : Prop where
  alive : after.alive = true
  router : after.router = Router.step aes keys (shardExchange sha256 aes) main.router event
  links : ∀ i, (after.router.servers i).serving = true → after.links i = .connected

/-- The process that the reply to an event has ended: what the router makes of the
event, but for the reply and the loops of the shards. -/
structure Ends (main : RouterMain) (event : Event) (after : RouterMain) : Prop where
  alive : after.alive = false
  session : after.router.session = none
  servers : ∀ i, after.router.servers i =
    { (Router.step aes keys (shardExchange sha256 aes) main.router event).servers i with
      serving := false }
  currentServer : after.router.currentServer =
    (Router.step aes keys (shardExchange sha256 aes) main.router event).currentServer
  answers : after.router.answers = main.router.answers

/-- **One step** of a process with whole links: it ends exactly if the event asks for
a reply on a connection that was reset. -/
theorem step_of_linked {main : RouterMain} (halive : main.alive = true) (h : main.Linked)
    (event : Event) :
    let after := main.step sha256 aes keys (.event event)
    (¬ main.Unanswerable aes (.event event) ∧ Continues sha256 aes keys main event after) ∨
      (main.Unanswerable aes (.event event) ∧ Ends sha256 aes keys main event after) := by
  intro after
  have hafter : after = main.handle sha256 aes keys event := if_pos halive
  cases hmessage : message aes main.router.session event with
  | none =>
      obtain ⟨client, hhandle⟩ := handle_of_no_message sha256 aes keys hmessage
      rw [hafter, hhandle]
      refine Or.inl ⟨?_, halive, rfl, fun i _ => h i⟩
      rintro ⟨-, m, hm, -⟩
      rw [messageAt, hmessage] at hm
      cases hm
  | some m =>
      obtain ⟨key, hhandle, hrouter⟩ :=
        handle_of_message sha256 aes keys hmessage
      by_cases hexit : cstr m = ascii "EXIT"
      · rw [Router.handleRequest_exit aes keys _ key hexit] at hrouter
        rw [hafter, hhandle, handleRequest_exit sha256 aes keys main key hexit]
        refine Or.inl ⟨?_, halive, hrouter.symm, fun i _ => h i⟩
        rintro ⟨-, m', hm', hother⟩
        rw [messageAt, hmessage, Option.some.injEq] at hm'
        exact hother (hm' ▸ hexit)
      · obtain ⟨links, router, hdone, hlinks, hservers, hcursor, hanswers⟩ :=
          h.replies key hexit
        rw [hafter, hhandle, hdone]
        cases hclient : main.client.send with
        | none =>
            refine Or.inr ⟨⟨Socket.send_eq_none_iff.mp hclient, m, hmessage, hexit⟩, rfl, rfl,
              ?_, hcursor.trans (congrArg _ hrouter.symm), hanswers⟩
            intro i
            rw [killed_servers, hservers]
            exact congrArg (fun state : RouterState Shards =>
              { state.servers i with serving := false }) hrouter.symm
        | some client =>
            refine Or.inl ⟨?_, halive, hrouter.symm, hlinks⟩
            rintro ⟨hreset, -⟩
            rw [hreset] at hclient
            cases hclient

/-! ## Growth

Whatever becomes of the process, the shards only add to their chains. -/

theorem killed_grows {main : RouterMain}
    (h : ∀ i, Reachable sha256 (main.router.servers i).blockchain) :
    Grows sha256 main.router.servers (main.killed sha256 aes).router.servers := by
  intro i
  rw [killed_servers]
  exact ⟨h i, List.prefix_refl _, fun _ hx => hx⟩

theorem sendCommandToServer_grows {main : RouterMain}
    (h : ∀ i, Reachable sha256 (main.router.servers i).blockchain) (i : Fin numServers)
    (m : Bytes) :
    Grows sha256 main.router.servers
      (main.sendCommandToServer sha256 aes keys i m).2.router.servers := by
  unfold sendCommandToServer
  split
  · exact killed_grows sha256 aes h
  · exact shardExchange_grows sha256 aes h i _

theorem retrieveLoop_grows (m : Bytes) (servers : List (Fin numServers)) (formatted : Bytes)
    {main : RouterMain} (h : ∀ i, Reachable sha256 (main.router.servers i).blockchain) :
    Grows sha256 main.router.servers
      (main.retrieveLoop sha256 aes keys m servers formatted).2.router.servers := by
  induction servers generalizing formatted main with
  | nil => exact Grows.refl sha256 h
  | cons i rest ih =>
      have hone := sendCommandToServer_grows sha256 aes keys h i m
      rw [retrieveLoop]
      cases hsend : main.sendCommandToServer sha256 aes keys i m with
      | mk response asked =>
          rw [hsend] at hone
          cases response with
          | none => exact hone
          | some response => exact hone.trans sha256 (ih _ fun j => (hone j).reachable)

theorem answer_grows {main : RouterMain}
    (h : ∀ i, Reachable sha256 (main.router.servers i).blockchain) (sessionKey : SessionKey)
    (request response : Bytes) :
    Grows sha256 main.router.servers
      (main.answer sha256 aes sessionKey request response).router.servers := by
  unfold answer
  split
  · exact killed_grows sha256 aes h
  · exact Grows.refl sha256 h

theorem handleRequest_grows {main : RouterMain}
    (h : ∀ i, Reachable sha256 (main.router.servers i).blockchain) (sessionKey : SessionKey)
    (m : Bytes) :
    Grows sha256 main.router.servers
      (main.handleRequest sha256 aes keys sessionKey m).router.servers := by
  unfold handleRequest
  dsimp only
  split
  · exact Grows.refl sha256 h
  · split
    · have hloop := retrieveLoop_grows sha256 aes keys (m ++ [0]) (List.finRange numServers) [] h
      split
      · rename_i hdone
        rwa [hdone] at hloop
      · rename_i hdone
        rw [hdone] at hloop
        exact hloop.trans sha256 (answer_grows sha256 aes (fun i => (hloop i).reachable) _ _ _)
    · let advanced : RouterMain :=
        { main with router := { main.router with currentServer := main.router.currentServer + 1 } }
      have hadvanced : ∀ i, Reachable sha256 (advanced.router.servers i).blockchain := h
      have hsend := sendCommandToServer_grows sha256 aes keys hadvanced
        main.router.currentServer (m ++ [0])
      split
      · rename_i hdone
        rwa [hdone] at hsend
      · rename_i hdone
        rw [hdone] at hsend
        exact hsend.trans sha256 (answer_grows sha256 aes (fun i => (hsend i).reachable) _ _ _)

/-- **Every step only adds** to the chains and to what was hashed. -/
theorem step_grows {main : RouterMain}
    (h : ∀ i, Reachable sha256 (main.router.servers i).blockchain) (event : MainEvent) :
    Grows sha256 main.router.servers (main.step sha256 aes keys event).router.servers := by
  cases event with
  | hangup aborted =>
      unfold step
      dsimp only
      split
      · exact Grows.refl sha256 h
      · exact Grows.refl sha256 h
  | event event =>
      rw [step]
      split
      · cases hmessage : message aes main.router.session event with
        | none =>
            obtain ⟨client, hhandle⟩ := handle_of_no_message sha256 aes keys hmessage
            rw [hhandle]
            exact Router.step_grows sha256 aes keys h event
        | some m =>
            obtain ⟨key, hhandle, -⟩ := handle_of_message sha256 aes keys hmessage
            rw [hhandle]
            exact handleRequest_grows sha256 aes keys h key m
      · exact Grows.refl sha256 h

/-! ## Runs -/

section Run

variable (nonces : Stream' Nonce) (serverNonces : Fin numServers → Stream' Nonce)
  (mallocs : Fin numServers → Stream' (Option RawBlock))

/-- The process, from its start on. -/
def reached (events : List MainEvent) : RouterMain :=
  (start keys nonces serverNonces mallocs).run sha256 aes keys events

theorem reached_concat (events : List MainEvent) (event : MainEvent) :
    reached sha256 aes keys nonces serverNonces mallocs (events ++ [event]) =
      (reached sha256 aes keys nonces serverNonces mallocs events).step sha256 aes keys event :=
  run_concat sha256 aes keys _ events event

theorem reached_reachable (events : List MainEvent) : ∀ i, Reachable sha256
    ((reached sha256 aes keys nonces serverNonces mallocs events).router.servers
      i).blockchain := by
  induction events using List.reverseRecOn with
  | nil => exact fun i => ⟨[], rfl⟩
  | append_singleton events event ih =>
      intro i
      rw [reached_concat]
      exact (step_grows sha256 aes keys ih event i).reachable

theorem reached_grows (events : List MainEvent) (event : MainEvent) :
    Grows sha256 (reached sha256 aes keys nonces serverNonces mallocs events).router.servers
      (reached sha256 aes keys nonces serverNonces mallocs (events ++ [event])).router.servers := by
  rw [reached_concat]
  exact step_grows sha256 aes keys
    (reached_reachable sha256 aes keys nonces serverNonces mallocs events) event

/-- The events that it has handled. -/
def handledBy (events : List MainEvent) : List Event :=
  (start keys nonces serverNonces mallocs).handled sha256 aes keys events

theorem handledBy_concat (events : List MainEvent) (event : MainEvent) :
    handledBy sha256 aes keys nonces serverNonces mallocs (events ++ [event]) =
      handledBy sha256 aes keys nonces serverNonces mallocs events ++
        if (reached sha256 aes keys nonces serverNonces mallocs events).alive then
          event.toEvent.toList else [] :=
  handled_concat sha256 aes keys _ events event

end Run

end RouterMain

/-- The process of the examples. -/
abbrev exampleProcess : List MainEvent → RouterMain :=
  RouterMain.reached Sha256.sha256 clearAes (fun _ => exampleKey) (Stream'.const exampleNonce)
    (fun _ => Stream'.const exampleNonce) (fun _ => Stream'.const (some zeroBlock))

/-- The events it has handled. -/
abbrev exampleHandled : List MainEvent → List Event :=
  RouterMain.handledBy Sha256.sha256 clearAes (fun _ => exampleKey) (Stream'.const exampleNonce)
    (fun _ => Stream'.const exampleNonce) (fun _ => Stream'.const (some zeroBlock))

end ShardedLedger.Router
