import ShardedLedger.Router.Sharding
set_option autoImplicit false

/-!
# Router: what goes over the sockets of the shards

The state of the system holds the records sent to clients, but those exchanged
with the shards are gone once they are received.  `observedExchange` is the
exchange of the system with a log.  The router is the same: forgetting the log
of an observed run gives the run of the system (`observedSystem_map`), because
the router's code commutes with every map of what stands behind the sockets
(`run_map`).
-/

namespace ShardedLedger.Router

open CString Channel Server Sha256

/-! ## The router and what stands behind the sockets -/

/-- The router with an image of what stands behind its sockets. -/
def RouterState.map {σ τ : Type} (f : σ → τ) (state : RouterState σ) : RouterState τ where
  session := state.session
  currentServer := state.currentServer
  nonces := state.nonces
  servers := f state.servers
  answers := state.answers

section Image

variable {σ τ : Type} {f : σ → τ} (aes : AesGcm) (keys : Fin numServers → SessionKey)
  {exchange : Exchange σ} {exchange' : Exchange τ}

/-- The second exchange does on images what the first does. -/
def IsImage (f : σ → τ) (exchange : Exchange σ) (exchange' : Exchange τ) : Prop :=
  ∀ i payload servers, exchange' i payload (f servers) =
    ((exchange i payload servers).1, f (exchange i payload servers).2)

theorem sendCommandToServer_map (h : IsImage f exchange exchange') (i : Fin numServers)
    (m : Bytes) (state : RouterState σ) :
    sendCommandToServer aes keys exchange' i m (state.map f) =
      ((sendCommandToServer aes keys exchange i m state).1,
        (sendCommandToServer aes keys exchange i m state).2.map f) := by
  simp only [sendCommandToServer, RouterState.map]
  rw [h]

theorem retrieveLoop_map (h : IsImage f exchange exchange') (m : Bytes)
    (servers : List (Fin numServers)) (formatted : Bytes) (state : RouterState σ) :
    retrieveLoop aes keys exchange' m servers formatted (state.map f) =
      ((retrieveLoop aes keys exchange m servers formatted state).1,
        (retrieveLoop aes keys exchange m servers formatted state).2.map f) := by
  induction servers generalizing formatted state with
  | nil => rfl
  | cons i rest ih =>
      simp only [retrieveLoop, sendCommandToServer_map aes keys h]
      exact ih _ _

theorem handleRequest_map (h : IsImage f exchange exchange') (key : SessionKey) (m : Bytes)
    (state : RouterState σ) :
    handleRequest aes keys exchange' key m (state.map f) =
      (handleRequest aes keys exchange key m state).map f := by
  by_cases hexit : cstr m = ascii "EXIT"
  · rw [handleRequest_exit aes keys _ key hexit, handleRequest_exit aes keys _ key hexit]
    rfl
  · by_cases hretrieve : cstr m = ascii "RETRIEVE"
    · rw [handleRequest_retrieve aes keys _ key hretrieve,
        handleRequest_retrieve aes keys _ key hretrieve, retrieveLoop_map aes keys h]
      rfl
    · rw [handleRequest_store aes keys _ key ⟨hexit, hretrieve⟩,
        handleRequest_store aes keys _ key ⟨hexit, hretrieve⟩]
      have hsent := sendCommandToServer_map aes keys h state.currentServer (m ++ [0])
        { state with currentServer := state.currentServer + 1 }
      exact congrArg (fun sent => answer aes key (m ++ [0]) sent.1 sent.2) hsent

theorem step_map (h : IsImage f exchange exchange') (state : RouterState σ) (event : Event) :
    step aes keys exchange' (state.map f) event = (step aes keys exchange state event).map f := by
  cases hmessage : message aes state.session event with
  | none =>
      have himage : message aes (state.map f).session event = none := hmessage
      rw [step_of_no_message aes keys exchange hmessage,
        step_of_no_message aes keys exchange' himage]
      rfl
  | some m =>
      have himage : message aes (state.map f).session event = some m := hmessage
      obtain ⟨key, hkey, hstep⟩ := step_of_message aes keys exchange hmessage
      obtain ⟨key', hkey', hstep'⟩ := step_of_message aes keys exchange' himage
      obtain rfl : key = key' := Option.some.inj (hkey.symm.trans hkey')
      rw [hstep, hstep', handleRequest_map aes keys h]

/-- Whole runs commute with the map. -/
theorem run_map (h : IsImage f exchange exchange') (state : RouterState σ)
    (events : List Event) :
    run aes keys exchange' (state.map f) events = (run aes keys exchange state events).map f :=
  List.foldl_hom (RouterState.map f) (step_map aes keys h)

/-- What every exchange keeps, every step keeps. -/
theorem step_keeps {Keeps : σ → Prop}
    (h : ∀ i payload servers, Keeps servers → Keeps (exchange i payload servers).2)
    {state : RouterState σ} (hstate : Keeps state.servers) (event : Event) :
    Keeps (step aes keys exchange state event).servers := by
  have hloop : ∀ (m : Bytes) (servers : List (Fin numServers)) (formatted : Bytes)
      (state : RouterState σ), Keeps state.servers →
        Keeps (retrieveLoop aes keys exchange m servers formatted state).2.servers := by
    intro m servers
    induction servers with
    | nil => exact fun _ _ hkeeps => hkeeps
    | cons i rest ih => exact fun _ _ hkeeps => ih _ _ (h i _ _ hkeeps)
  cases hmessage : message aes state.session event with
  | none =>
      rw [step_of_no_message aes keys exchange hmessage]
      exact hstate
  | some m =>
      obtain ⟨key, _, hstep⟩ := step_of_message aes keys exchange hmessage
      rw [hstep]
      by_cases hexit : cstr m = ascii "EXIT"
      · rw [handleRequest_exit aes keys _ key hexit]
        exact hstate
      · by_cases hretrieve : cstr m = ascii "RETRIEVE"
        · rw [handleRequest_retrieve aes keys _ key hretrieve]
          exact hloop _ _ _ _ hstate
        · rw [handleRequest_store aes keys _ key ⟨hexit, hretrieve⟩]
          exact h _ _ _ hstate

end Image

/-! ## One shard -/

variable (sha256 : Bytes → Digest) (aes : AesGcm)

/-- A shard that has answered a request. -/
def answered (shard : Shard) (request : Bytes) : Shard :=
  { afterRequest sha256 shard request with
    outgoing := shard.outgoing ++
      [sendEncyptedData aes shard.sessionKey shard.nonces.head (replyTo sha256 shard request)] }

/-- All that an iteration of the loop can do: nothing but end the loop, or answer a
request. -/
theorem serve_cases (shard : Shard) (received : Option Bytes) :
    (∃ serving, shard.serve sha256 aes received = { shard with serving := serving }) ∨
      ∃ request, shard.serving = true ∧ request ≠ [] ∧
        receiveEncyptedData aes shard.sessionKey received = some request ∧
        shard.serve sha256 aes received = answered sha256 aes shard request := by
  unfold Shard.serve
  split
  · exact Or.inl ⟨shard.serving, rfl⟩
  · rename_i hserving
    split
    · exact Or.inl ⟨false, rfl⟩
    · exact Or.inl ⟨false, rfl⟩
    · rename_i request hne hreceive
      exact Or.inr ⟨request, by simpa using hserving, hne, hreceive, rfl⟩

/-- What the shard sends while it handles a payload. -/
def repliesTo (shard : Shard) (payload : Bytes) : List Bytes :=
  (shard.serve sha256 aes (recv expectedPayloadLen (some payload))).outgoing.drop
    shard.outgoing.length

/-! ## The log -/

/-- A payload that the router sent to a shard, and what the shard sent for it. -/
structure Exchanged where
  serverIndex : Fin numServers
  payload : Bytes
  replies : List Bytes

/-- The shards, with the log of all exchanges. -/
structure Observed where
  shards : Shards
  exchanges : List Exchanged

/-- The exchange of the system, which also writes the log. -/
def observedExchange : Exchange Observed := fun serverIndex payload observed =>
  let (received, shards) := shardExchange sha256 aes serverIndex payload observed.shards
  (received,
    { shards := shards
      exchanges := observed.exchanges ++
        [⟨serverIndex, payload, repliesTo sha256 aes (observed.shards serverIndex) payload⟩] })

theorem observedExchange_isImage :
    IsImage Observed.shards (observedExchange sha256 aes) (shardExchange sha256 aes) :=
  fun _ _ _ => rfl

/-- The loop over the servers only adds to the log. -/
theorem retrieveLoop_exchanges (keys : Fin numServers → SessionKey) (m : Bytes)
    (servers : List (Fin numServers)) (formatted : Bytes) (state : RouterState Observed) :
    state.servers.exchanges <+: (retrieveLoop aes keys (observedExchange sha256 aes) m servers
      formatted state).2.servers.exchanges := by
  induction servers generalizing formatted state with
  | nil => exact List.prefix_refl _
  | cons i rest ih =>
      have hone : state.servers.exchanges <+: (sendCommandToServer aes keys
          (observedExchange sha256 aes) i m state).2.servers.exchanges :=
        List.prefix_append _ _
      exact hone.trans (ih _ _)

section Run

variable (keys : Fin numServers → SessionKey) (nonces : Stream' Nonce)
  (serverNonces : Fin numServers → Stream' Nonce)
  (mallocs : Fin numServers → Stream' (Option RawBlock))

/-- The start of the system, with an empty log. -/
def observedStart : RouterState Observed :=
  (start nonces keys serverNonces mallocs).map fun shards => ⟨shards, []⟩

/-- The whole system, from its start on, with the log. -/
def observedSystem (events : List Event) : RouterState Observed :=
  run aes keys (observedExchange sha256 aes) (observedStart keys nonces serverNonces mallocs) events

theorem observedSystem_concat (events : List Event) (event : Event) :
    observedSystem sha256 aes keys nonces serverNonces mallocs (events ++ [event]) =
      step aes keys (observedExchange sha256 aes)
        (observedSystem sha256 aes keys nonces serverNonces mallocs events) event :=
  run_concat aes keys (observedExchange sha256 aes) _ events event

/-- Without its log, the observed system is the system. -/
theorem observedSystem_map (events : List Event) :
    (observedSystem sha256 aes keys nonces serverNonces mallocs events).map Observed.shards =
      system sha256 aes keys nonces serverNonces mallocs events :=
  (run_map aes keys (observedExchange_isImage sha256 aes) _ events).symm

end Run

end ShardedLedger.Router
