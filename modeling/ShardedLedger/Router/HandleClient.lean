import ShardedLedger.Channel.Record
import ShardedLedger.Server.Block
set_option autoImplicit false

/-!
# Router: the request loop (`router/router.c`)

The router accepts one client after the other and, in `handle_client`, answers
its requests: a store goes to the shard that the cursor `current_server` points
to, `RETRIEVE` goes to all of them.  The cursor is a global variable and outlives
the sessions.

The shards are behind three sockets.  The model leaves open what stands there:
`Exchange` is the sending of a payload on one of them and the `recv` that
follows.  Here every send goes through; `RouterMain` adds the sends that end the
process.
-/

namespace ShardedLedger.Router

open CString Channel Server

/-- `NUM_SERVERS`. -/
abbrev numServers : Nat := 3

instance instNeZeroNumServers : NeZero numServers := ⟨by decide⟩

/-- `MAX_LINE` of `router.h`. -/
def maxLine : Nat := 1024

/-- Sending a payload to a server, and the result of the `recv` that follows. -/
abbrev Exchange (σ : Type) : Type := Fin numServers → Bytes → σ → Option Bytes × σ

/-- A record sent to a client, and the request it answers. -/
structure Answer where
  sessionKey : SessionKey
  request : Bytes
  record : Bytes
  deriving DecidableEq

/-- The state of the router. -/
structure RouterState (σ : Type) where
  /-- The session key of the client that `handle_client` is serving. -/
  session : Option SessionKey
  /-- `current_server`. -/
  currentServer : Fin numServers
  /-- The nonces the router will draw. -/
  nonces : Stream' Nonce
  /-- What stands behind the three server sockets. -/
  servers : σ
  /-- The records sent to clients so far. -/
  answers : List Answer

/-- What happens to the router: a client connects and finishes its key exchange,
or bytes (or an error) reach the socket of the client it is serving. -/
inductive Event where
  | accept (sessionKey : SessionKey)
  | deliver (pending : Option Bytes)

variable {σ : Type} (aes : AesGcm) (serverSessionKeys : Fin numServers → SessionKey)
  (exchange : Exchange σ)

/-- `send_command_to_server(server_index, message, response)`: the string in
`response` and the state afterwards. -/
def sendCommandToServer (serverIndex : Fin numServers) (message : Bytes)
    (state : RouterState σ) : Bytes × RouterState σ :=
  let payload :=
    sendEncyptedData aes (serverSessionKeys serverIndex) state.nonces.head (cstr message)
  let (received, servers) := exchange serverIndex payload state.servers
  let response :=
    match receiveEncyptedData aes (serverSessionKeys serverIndex) received with
    | none => ascii "Reached size limit for server response"
    | some [] => ascii "Reached size limit for server response"
    | some ubuffer => cstr (ubuffer ++ [0])
  (response, { state with nonces := state.nonces.tail, servers := servers })

/-- `formatted_server_response`. -/
def formattedServerResponse (i : Fin numServers) (serverResponse : Bytes) : Bytes :=
  snprintf (maxLine * 2)
    (ascii "Server " ++ ascii (Nat.repr (i.val + 1)) ++ ascii ":\n" ++ serverResponse ++
      ascii "\n")

/-- The size of `formatted_response`. -/
def formattedResponseSize : Nat := maxLine * numServers * 100

/-- The loop over the servers that builds `formatted_response`. -/
def retrieveLoop (message : Bytes) : List (Fin numServers) → Bytes → RouterState σ →
    Bytes × RouterState σ
  | [], formattedResponse, state => (formattedResponse, state)
  | i :: rest, formattedResponse, state =>
      let (serverResponse, state) :=
        sendCommandToServer aes serverSessionKeys exchange i message state
      retrieveLoop message rest
        (strncat (roomLeft formattedResponseSize formattedResponse) formattedResponse
          (formattedServerResponse i serverResponse)) state

/-- `send_encypted_data` to the client, on a connection that takes it. -/
def answer (sessionKey : SessionKey) (request response : Bytes) (state : RouterState σ) :
    RouterState σ :=
  { state with
    nonces := state.nonces.tail
    answers := state.answers ++
      [⟨sessionKey, cstr request, sendEncyptedData aes sessionKey state.nonces.head response⟩] }

/-- The dispatch of `handle_client` on a decrypted request, which is terminated
in place first. -/
def handleRequest (sessionKey : SessionKey) (decryptedData : Bytes) (state : RouterState σ) :
    RouterState σ :=
  let request := decryptedData ++ [0]
  if strcmpEq request (ascii "EXIT") then { state with session := none }
  else if strcmpEq request (ascii "RETRIEVE") then
    let (formattedResponse, state) :=
      retrieveLoop aes serverSessionKeys exchange request (List.finRange numServers) [] state
    answer aes sessionKey request formattedResponse state
  else
    let serverIndex := state.currentServer
    let (serverResponse, state) :=
      sendCommandToServer aes serverSessionKeys exchange serverIndex request
        { state with currentServer := serverIndex + 1 }
    answer aes sessionKey request serverResponse state

/-- One step: the `accept` of `main`, or one iteration of the loop of
`handle_client`. -/
def step (state : RouterState σ) : Event → RouterState σ
  | .accept sessionKey =>
      match state.session with
      | none => { state with session := some sessionKey }
      -- the next client waits until `handle_client` returns
      | some _ => state
  | .deliver pending =>
      match state.session with
      | none => state
      | some sessionKey =>
          match receiveEncyptedData aes sessionKey (recv expectedPayloadLen pending) with
          | none => { state with session := none }
          | some [] => { state with session := none }
          | some decryptedData =>
              handleRequest aes serverSessionKeys exchange sessionKey decryptedData state

/-- A run of the router. -/
def run (state : RouterState σ) (events : List Event) : RouterState σ :=
  events.foldl (step aes serverSessionKeys exchange) state

theorem run_concat (state : RouterState σ) (events : List Event) (event : Event) :
    run aes serverSessionKeys exchange state (events ++ [event]) =
      step aes serverSessionKeys exchange
        (run aes serverSessionKeys exchange state events) event := by
  simp [run]

/-! ## Sessions

What the clients ask of the router, told from the events alone. -/

/-- The message that an event brings to a session. -/
def message (session : Option SessionKey) : Event → Option Bytes
  | .accept _ => none
  | .deliver pending =>
      match session with
      | none => none
      | some sessionKey =>
          (receiveEncyptedData aes sessionKey (recv expectedPayloadLen pending)).filter (· ≠ [])

/-- The session after an event: it ends with `EXIT`, and with anything that is
not a message. -/
def sessionAfter (session : Option SessionKey) (event : Event) : Option SessionKey :=
  match event with
  | .accept sessionKey => some (session.getD sessionKey)
  | .deliver _ =>
      match message aes session event with
      | none => none
      | some m => if cstr m = ascii "EXIT" then none else session

/-- All messages, in order over all sessions. -/
def messages (session : Option SessionKey) : List Event → List Bytes
  | [] => []
  | event :: rest =>
      (message aes session event).toList ++ messages (sessionAfter aes session event) rest

/-- The message is neither `EXIT` nor `RETRIEVE`. -/
def IsStore (m : Bytes) : Prop := cstr m ≠ ascii "EXIT" ∧ cstr m ≠ ascii "RETRIEVE"

instance (m : Bytes) : Decidable (IsStore m) := inferInstanceAs (Decidable (_ ∧ _))

/-- The strings to store, in order over all sessions. -/
def stores (session : Option SessionKey) (events : List Event) : List Bytes :=
  ((messages aes session events).filter (fun m => IsStore m)).map cstr

theorem messages_append (session : Option SessionKey) (before after : List Event) :
    messages aes session (before ++ after) =
      messages aes session before ++
        messages aes (before.foldl (sessionAfter aes) session) after := by
  induction before generalizing session with
  | nil => rfl
  | cons e before ih =>
      rw [List.cons_append, messages, ih, messages, List.append_assoc, List.foldl_cons]

theorem messages_concat (session : Option SessionKey) (events : List Event) (event : Event) :
    messages aes session (events ++ [event]) =
      messages aes session events ++
        (message aes (events.foldl (sessionAfter aes) session) event).toList := by
  rw [messages_append, messages, messages, List.append_nil]

theorem stores_concat (session : Option SessionKey) (events : List Event) (event : Event) :
    stores aes session (events ++ [event]) =
      stores aes session events ++
        ((message aes (events.foldl (sessionAfter aes) session) event).toList.filter
          fun m => IsStore m).map cstr := by
  rw [stores, messages_concat, List.filter_append, List.map_append]
  rfl

/-- The messages have between 1 and 2048 bytes. -/
theorem message_length {session : Option SessionKey} {event : Event} {m : Bytes}
    (h : message aes session event = some m) : m ≠ [] ∧ m.length ≤ 2048 := by
  cases event with
  | accept _ => simp [message] at h
  | deliver pending =>
      cases session with
      | none => simp [message] at h
      | some sessionKey =>
          simp only [message, Option.filter_eq_some_iff, ne_eq, decide_not, Bool.not_eq_true',
            decide_eq_false_iff_not] at h
          exact ⟨h.2, length_of_receive_recv aes h.1⟩

theorem mem_messages_length {session : Option SessionKey} {events : List Event} {m : Bytes}
    (h : m ∈ messages aes session events) : m ≠ [] ∧ m.length ≤ 2048 := by
  induction events generalizing session with
  | nil => simp [messages] at h
  | cons event rest ih =>
      rcases List.mem_append.mp h with hm | hm
      · exact message_length aes (Option.mem_toList.mp hm)
      · exact ih hm

/-- A message that does not begin with a NUL is a non-empty string. -/
theorem cstr_ne_nil_of_mem_messages {session : Option SessionKey} {events : List Event}
    {m : Bytes} (h : m ∈ messages aes session events) (hnul : m.head? ≠ some 0) :
    cstr m ≠ [] := by
  intro hnil
  rcases cstr_eq_nil_iff.mp hnil with hempty | hzero
  · exact (mem_messages_length aes h).1 (List.head?_eq_none_iff.mp hempty)
  · exact hnul hzero

/-! ## One step -/

/-- An event that brings no message changes nothing but the session. -/
theorem step_of_no_message {state : RouterState σ} {event : Event}
    (h : message aes state.session event = none) :
    step aes serverSessionKeys exchange state event =
      { state with session := sessionAfter aes state.session event } := by
  cases event with
  | accept sessionKey =>
      cases hsession : state.session with
      | none => simp [step, sessionAfter, hsession]
      | some key =>
          simp only [step, sessionAfter, hsession, Option.getD_some]
          rw [← hsession]
  | deliver pending =>
      cases hsession : state.session with
      | none =>
          simp only [step, sessionAfter, message, hsession]
          rw [← hsession]
      | some key =>
          have hend : sessionAfter aes (some key) (.deliver pending) = none := by
            rw [hsession] at h
            simp only [sessionAfter, h]
          rw [hend]
          simp only [step, hsession]
          rw [hsession] at h
          cases hreceive : receiveEncyptedData aes key (recv expectedPayloadLen pending) with
          | none => rfl
          | some data =>
              cases data with
              | nil => rfl
              | cons c rest => simp [message, hreceive, Option.filter] at h

/-- An event that brings a message hands it to the dispatch. -/
theorem step_of_message {state : RouterState σ} {event : Event} {m : Bytes}
    (h : message aes state.session event = some m) :
    ∃ sessionKey, state.session = some sessionKey ∧
      step aes serverSessionKeys exchange state event =
        handleRequest aes serverSessionKeys exchange sessionKey m state := by
  cases event with
  | accept _ => simp [message] at h
  | deliver pending =>
      cases hsession : state.session with
      | none => simp [message, hsession] at h
      | some key =>
          refine ⟨key, rfl, ?_⟩
          simp only [message, hsession, Option.filter_eq_some_iff, ne_eq, decide_not,
            Bool.not_eq_true', decide_eq_false_iff_not] at h
          obtain ⟨c, rest, rfl⟩ := List.exists_cons_of_ne_nil h.2
          simp only [step, hsession, h.1]

/-- The three branches of the dispatch. -/
theorem handleRequest_exit (sessionKey : SessionKey) {m : Bytes} (h : cstr m = ascii "EXIT")
    (state : RouterState σ) :
    handleRequest aes serverSessionKeys exchange sessionKey m state =
      { state with session := none } := by
  have hword : strcmpEq (m ++ [0]) (ascii "EXIT") = true := strcmpEq_append_nul_of_eq rfl h
  simp only [handleRequest, hword, if_true]

theorem handleRequest_retrieve (sessionKey : SessionKey) {m : Bytes}
    (h : cstr m = ascii "RETRIEVE") (state : RouterState σ) :
    handleRequest aes serverSessionKeys exchange sessionKey m state =
      answer aes sessionKey (m ++ [0])
        (retrieveLoop aes serverSessionKeys exchange (m ++ [0]) (List.finRange numServers) []
          state).1
        (retrieveLoop aes serverSessionKeys exchange (m ++ [0]) (List.finRange numServers) []
          state).2 := by
  have hexit : strcmpEq (m ++ [0]) (ascii "EXIT") = false :=
    strcmpEq_append_nul_of_ne rfl (by rw [h]; decide)
  have hword : strcmpEq (m ++ [0]) (ascii "RETRIEVE") = true := strcmpEq_append_nul_of_eq rfl h
  simp only [handleRequest, hexit, hword, if_true, Bool.false_eq_true, if_false]

theorem handleRequest_store (sessionKey : SessionKey) {m : Bytes} (h : IsStore m)
    (state : RouterState σ) :
    let sent := sendCommandToServer aes serverSessionKeys exchange state.currentServer (m ++ [0])
      { state with currentServer := state.currentServer + 1 }
    handleRequest aes serverSessionKeys exchange sessionKey m state =
      answer aes sessionKey (m ++ [0]) sent.1 sent.2 := by
  intro sent
  have hexit : strcmpEq (m ++ [0]) (ascii "EXIT") = false := strcmpEq_append_nul_of_ne rfl h.1
  have hword : strcmpEq (m ++ [0]) (ascii "RETRIEVE") = false := strcmpEq_append_nul_of_ne rfl h.2
  simp only [handleRequest, hexit, hword, Bool.false_eq_true, if_false]
  rfl

/-! ## What a command to a server leaves alone -/

section Frame

variable (i : Fin numServers) (m : Bytes) (state : RouterState σ)

@[simp] theorem sendCommandToServer_session :
    (sendCommandToServer aes serverSessionKeys exchange i m state).2.session = state.session := rfl

@[simp] theorem sendCommandToServer_currentServer :
    (sendCommandToServer aes serverSessionKeys exchange i m state).2.currentServer =
      state.currentServer := rfl

@[simp] theorem sendCommandToServer_answers :
    (sendCommandToServer aes serverSessionKeys exchange i m state).2.answers = state.answers := rfl

@[simp] theorem sendCommandToServer_servers :
    (sendCommandToServer aes serverSessionKeys exchange i m state).2.servers =
      (exchange i (sendEncyptedData aes (serverSessionKeys i) state.nonces.head (cstr m))
        state.servers).2 := rfl

/-- The loop over the servers alters nothing but the nonces and the servers. -/
theorem retrieveLoop_frame (servers : List (Fin numServers)) (formatted : Bytes) :
    let after := (retrieveLoop aes serverSessionKeys exchange m servers formatted state).2
    after.session = state.session ∧ after.currentServer = state.currentServer ∧
      after.answers = state.answers := by
  induction servers generalizing formatted state with
  | nil => exact ⟨rfl, rfl, rfl⟩
  | cons i rest ih =>
      exact ih (sendCommandToServer aes serverSessionKeys exchange i m state).2 _

end Frame

/-- The session after a step depends on the session and the event only. -/
theorem step_session (state : RouterState σ) (event : Event) :
    (step aes serverSessionKeys exchange state event).session =
      sessionAfter aes state.session event := by
  cases hmessage : message aes state.session event with
  | none => rw [step_of_no_message aes serverSessionKeys exchange hmessage]
  | some m =>
      obtain ⟨key, hsession, hstep⟩ :=
        step_of_message aes serverSessionKeys exchange hmessage
      have hafter : sessionAfter aes state.session event =
          if cstr m = ascii "EXIT" then none else state.session := by
        cases event with
        | accept _ => simp [message] at hmessage
        | deliver pending => simp only [sessionAfter, hmessage]
      rw [hstep, hafter]
      by_cases hexit : cstr m = ascii "EXIT"
      · rw [handleRequest_exit aes serverSessionKeys exchange key hexit, if_pos hexit]
      · rw [if_neg hexit]
        by_cases hretrieve : cstr m = ascii "RETRIEVE"
        · rw [handleRequest_retrieve aes serverSessionKeys exchange key hretrieve]
          exact (retrieveLoop_frame aes serverSessionKeys exchange _ _ _ _).1
        · rw [handleRequest_store aes serverSessionKeys exchange key ⟨hexit, hretrieve⟩]
          rfl

theorem run_session (state : RouterState σ) (events : List Event) :
    (run aes serverSessionKeys exchange state events).session =
      events.foldl (sessionAfter aes) state.session := by
  induction events using List.reverseRecOn with
  | nil => rfl
  | append_singleton events event ih =>
      rw [run_concat, step_session, ih, List.foldl_append]
      rfl

end ShardedLedger.Router
