import ShardedLedger.Foundation.Schedules
import ShardedLedger.Router.HandleClient
import ShardedLedger.Client.Main
set_option autoImplicit false

/-!
# Deployment: any number of clients at the router

Clients connect while another one is served: the kernel queues them, and `main`
of the router accepts the next one when `handle_client` returns.  The parties
act one at a time, in any order: a client connects, reads its next line, or takes
a reply; the router accepts, or takes what the client it is serving has sent.

A client that is accepted finishes its key exchange with the router, and both have
one session key.  A `send` of a client arrives as one segment: its records are
shorter than the router's receive buffer.  No send of the model ends the process that
makes it; `Sends` says why none does.
-/

namespace ShardedLedger.Deployment

open CString Channel Router

/-! ## The client process -/

/-- A line that `fgets` returns, and the number that `rand` returns if the
command needs one. -/
structure Line where
  text : Bytes
  rand : Fin (2 ^ 31)

/-- What the loop of the client makes of a line. -/
inductive Command where
  | store
  | retrieve
  | exit
  | unknown

/-- The comparisons in the loop of the client's `main`. -/
def commandOf (text : Bytes) : Command :=
  let command := (cstr text).takeWhile (· ≠ 10)
  if strcmpEq command (ascii "store") then .store
  else if strcmpEq command (ascii "retrieve") then .retrieve
  else if strcmpEq command (ascii "exit") then .exit
  else .unknown

/-- The buffer that `retrieve_data` sends. -/
def retrieveBuffer : Bytes := (CharBuf.ofStr (Client.maxLine - 1) (ascii "RETRIEVE")).bytes

/-- The message of a line that waits for a reply. -/
def Line.request (line : Line) : Option Bytes :=
  match commandOf line.text with
  | .store => some (Client.generateRandomData line.rand)
  | .retrieve => some retrieveBuffer
  | .exit => none
  | .unknown => none

/-- Where a client stands. -/
inductive Phase where
  | idle
  /-- Waiting for the router to accept. -/
  | connecting
  /-- Reading the next line. -/
  | prompting
  /-- In the `recv` behind a request. -/
  | waiting
  | done
  deriving DecidableEq

/-- A client process with its connection to the router. -/
structure Process where
  phase : Phase
  /-- The lines that are still to be typed. -/
  input : List Line
  /-- The nonces the client will draw. -/
  nonces : Stream' Nonce
  /-- The results of `receive_encypted_data` so far. -/
  responses : List (Option Bytes)
  /-- The segments on the way to the router. -/
  requests : List Bytes
  /-- The segments on the way to the client. -/
  replies : List Bytes
  clientClosed : Bool
  routerClosed : Bool

/-- A client before it connects. -/
def Process.start (input : List Line) (nonces : Stream' Nonce) : Process :=
  ⟨.idle, input, nonces, [], [], [], false, false⟩

variable (aes : AesGcm) (sessionKey : SessionKey)

/-- `send_encypted_data`; on a closed socket the `send` fails. -/
def Process.send (process : Process) (message : Bytes) : Process :=
  { process with
    nonces := process.nonces.tail
    requests :=
      if process.clientClosed then process.requests
      else process.requests ++ [sendEncyptedData aes sessionKey process.nonces.head message] }

/-- One iteration of the loop of `main`, up to the `recv` of a command that
waits for a reply; `none` while the client is not at its prompt. -/
def Process.type (process : Process) : Option Process :=
  if process.phase ≠ .prompting then none
  else match process.input with
    -- the input has ended
    | [] => some { process with phase := .done, clientClosed := true }
    | line :: input =>
        let process := { process with input := input }
        match commandOf line.text with
        | .store => some { process.send aes sessionKey (Client.generateRandomData line.rand) with
            phase := .waiting }
        | .retrieve => some { process.send aes sessionKey retrieveBuffer with phase := .waiting }
        | .exit => some { process.send aes sessionKey (ascii "EXIT") with
            phase := .done
            clientClosed := true }
        | .unknown => some process

/-- A reply is received, or the failure to receive one, upon which the socket is
closed. -/
def Process.receive (process : Process) (pending : Option Bytes) : Process :=
  let response := receiveEncyptedData aes sessionKey (recv expectedPayloadLen pending)
  { process with
    phase := .prompting
    responses := process.responses ++ [response]
    clientClosed := process.clientClosed || response.isNone }

/-- The `recv` of a client that waits; `none` while there is nothing to receive.
What does not fit the buffer stays in the stream. -/
def Process.takeReply (process : Process) : Option Process :=
  if process.phase ≠ .waiting then none
  else if process.clientClosed then some (process.receive aes sessionKey none)
  else match process.replies with
    | segment :: replies =>
        let unread := segment.drop expectedPayloadLen
        some { process.receive aes sessionKey (some segment) with
          replies := if unread = [] then replies else unread :: replies }
    | [] => if process.routerClosed then some (process.receive aes sessionKey (some [])) else none

/-! ## Clients and router -/

section Network

variable {ι : Type} [DecidableEq ι] {σ : Type}

/-- The clients and the router. -/
structure Network (ι σ : Type) where
  clients : ι → Process
  /-- The connections that are not accepted yet, in the order in which they came. -/
  backlog : List ι
  /-- The client that `handle_client` is serving. -/
  serving : Option ι
  router : RouterState σ
  /-- The clients accepted so far. -/
  accepted : List ι
  /-- What has happened to the router. -/
  events : List Event

/-- What a party does next. -/
inductive Action (ι : Type) where
  | connect (client : ι)
  | accept
  | type (client : ι)
  | serve
  | takeReply (client : ι)

/-- The network before anything happens. -/
def Network.start (input : ι → List Line) (nonces : ι → Stream' Nonce) (router : RouterState σ) :
    Network ι σ :=
  ⟨fun c => Process.start (input c) (nonces c), [], none, router, [], []⟩

/-- A client process is replaced. -/
def Network.update (network : Network ι σ) (c : ι) (process : Process) : Network ι σ :=
  { network with clients := Function.update network.clients c process }

variable (keys : ι → SessionKey) (serverSessionKeys : Fin numServers → SessionKey)
  (exchange : Exchange σ)

/-- One iteration of the loop of `handle_client` on what its `recv` finds: the
records it sends go to the client, and when the loop ends the socket is closed. -/
def Network.handle (network : Network ι σ) (c : ι) (process : Process) (pending : Option Bytes) :
    Network ι σ :=
  let router := Router.step aes serverSessionKeys exchange network.router (.deliver pending)
  let sent := (router.answers.drop network.router.answers.length).map Answer.record
  let process := { process with
    replies := process.replies ++ sent
    routerClosed := router.session.isNone }
  { network.update c process with
    router := router
    serving := if router.session.isNone then none else some c
    events := network.events ++ [.deliver pending] }

/-- What an action does; `none` where it cannot be taken. -/
def Network.step (network : Network ι σ) : Action ι → Option (Network ι σ)
  | .connect c =>
      if (network.clients c).phase ≠ .idle then none
      else some { network.update c { network.clients c with phase := .connecting } with
        backlog := network.backlog ++ [c] }
  | .accept =>
      match network.serving, network.backlog with
      | none, c :: backlog =>
          some { network.update c { network.clients c with phase := .prompting } with
            backlog := backlog
            serving := some c
            router := Router.step aes serverSessionKeys exchange network.router (.accept (keys c))
            accepted := network.accepted ++ [c]
            events := network.events ++ [.accept (keys c)] }
      | _, _ => none
  | .type c => ((network.clients c).type aes (keys c)).map (network.update c)
  | .serve =>
      match network.serving with
      | none => none
      | some c =>
          let process := network.clients c
          match process.requests with
          | segment :: requests =>
              some (network.handle aes serverSessionKeys exchange c
                { process with requests := requests } (some segment))
          | [] =>
              if process.clientClosed then
                some (network.handle aes serverSessionKeys exchange c process (some []))
              else none
  | .takeReply c => ((network.clients c).takeReply aes (keys c)).map (network.update c)

/-- The network after a schedule. -/
abbrev Network.run (network : Network ι σ) (schedule : List (Action ι)) :
    Option (Network ι σ) :=
  Schedules.run (Network.step aes keys serverSessionKeys exchange) network schedule

/-! ## What an action can do -/

section Step

variable {aes keys serverSessionKeys exchange} {network network' : Network ι σ} {c : ι}

theorem Network.step_connect
    (hstep : network.step aes keys serverSessionKeys exchange (.connect c) = some network') :
    (network.clients c).phase = .idle ∧
      network' = { network.update c { network.clients c with phase := .connecting } with
        backlog := network.backlog ++ [c] } := by
  simp only [Network.step] at hstep
  split at hstep
  · cases hstep
  · rename_i hphase
    exact ⟨not_not.mp hphase, (Option.some.inj hstep).symm⟩

theorem Network.step_accept
    (hstep : network.step aes keys serverSessionKeys exchange .accept = some network') :
    ∃ c backlog, network.serving = none ∧ network.backlog = c :: backlog ∧
      network' = { network.update c { network.clients c with phase := .prompting } with
        backlog := backlog
        serving := some c
        router := Router.step aes serverSessionKeys exchange network.router (.accept (keys c))
        accepted := network.accepted ++ [c]
        events := network.events ++ [.accept (keys c)] } := by
  simp only [Network.step] at hstep
  split at hstep
  · rename_i c backlog hserving hbacklog
    exact ⟨c, backlog, hserving, hbacklog, (Option.some.inj hstep).symm⟩
  · cases hstep

/-- The router goes on with the next segment, or with the end of the stream. -/
theorem Network.step_serve
    (hstep : network.step aes keys serverSessionKeys exchange .serve = some network') :
    ∃ c, network.serving = some c ∧
      ((∃ segment requests, (network.clients c).requests = segment :: requests ∧
          network' = network.handle aes serverSessionKeys exchange c
            { network.clients c with requests := requests } (some segment)) ∨
        ((network.clients c).requests = [] ∧ (network.clients c).clientClosed = true ∧
          network' = network.handle aes serverSessionKeys exchange c (network.clients c)
            (some []))) := by
  simp only [Network.step] at hstep
  split at hstep
  · cases hstep
  · rename_i c hserving
    refine ⟨c, hserving, ?_⟩
    split at hstep
    · rename_i segment requests hrequests
      exact .inl ⟨segment, requests, hrequests, (Option.some.inj hstep).symm⟩
    · rename_i hrequests
      split at hstep
      · rename_i hclosed
        exact .inr ⟨hrequests, hclosed, (Option.some.inj hstep).symm⟩
      · cases hstep

end Step

end Network

end ShardedLedger.Deployment
