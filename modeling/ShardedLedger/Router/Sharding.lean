import ShardedLedger.Router.Lockstep
set_option autoImplicit false

/-!
# Router: the stores are dealt to the shards in turn

With the shards' real chains the lockstep holds in every run without a hash
collision: a reply to `RETRIEVE` is short for a chain of up to two blocks, and
from the third block on the chain does not validate, and the reply is the short
`failResponse`.
-/

namespace ShardedLedger.Router

open CString Channel Server Sha256 RoundRobin

variable (sha256 : Bytes → Digest) (aes : AesGcm)

/-- All strings the shards have hashed. -/
def hashedStrings (shards : Shards) : List Bytes :=
  (List.finRange numServers).flatMap fun i => (shards i).hashed

theorem hashed_subset (shards : Shards) (i : Fin numServers) :
    (shards i).hashed ⊆ hashedStrings shards := by
  intro s hs
  exact List.mem_flatMap.mpr ⟨i, List.mem_finRange i, hs⟩

theorem hashedStrings_subset {before after : Shards} (h : Grows sha256 before after) :
    hashedStrings before ⊆ hashedStrings after := by
  intro s hs
  obtain ⟨i, hi, hmem⟩ := List.mem_flatMap.mp hs
  exact List.mem_flatMap.mpr ⟨i, hi, (h i).hashed hmem⟩

/-- The strings to store are C strings. -/
theorem cstr_of_mem_stores {session : Option SessionKey} {events : List Event} {s : Bytes}
    (h : s ∈ stores aes session events) : cstr s = s := by
  obtain ⟨m, _, rfl⟩ := List.mem_map.mp h
  exact cstr_cstr m

/-- A shard in step with stored strings holds the first 255 characters of each. -/
theorem data_of_inStep {sessionKey : SessionKey} {payloads : List Bytes} {shard : Shard}
    (h : InStep sha256 sessionKey payloads shard) {session : Option SessionKey}
    {events : List Event} (hmem : ∀ p ∈ payloads, p ∈ stores aes session events) :
    shard.blockchain.map (fun b => b.data.str) = payloads.map (List.take 255) := by
  rw [h.blockchain, chainOf_data]
  refine List.map_congr_left ?_
  intro p hp
  rw [storedData, cstr_of_mem_stores aes (hmem p hp)]

/-- The data of the string does not end in its own digest. -/
def NotOwnDigest (s : Bytes) : Prop := ¬ hexDigest (sha256 (s.take 255)) <:+ s.take 255

/-- The reply for up to two blocks fits. -/
theorem fits_of_length_le_two {payloads : List Bytes} (h : payloads.length ≤ 2) :
    Fits sha256 (chainOf sha256 payloads) := by
  have hlength : (chainOf sha256 payloads).length ≤ 2 := by rwa [chainOf_length]
  exact Nat.le_trans (retrieveData_response_length_le sha256 (chainOf_reachable sha256 payloads)
    hlength) (by decide)

/-- The reply of a shard in step fits, if none of the strings it hashed collide. -/
theorem fits_of_inStep {sessionKey : SessionKey} {payloads : List Bytes} {shard : Shard}
    (h : InStep sha256 sessionKey payloads shard) (hfree : CollisionFreeOn sha256 shard.hashed)
    (hstrings : ∀ p ∈ payloads, cstr p = p) (hdigest : ∀ p ∈ payloads, NotOwnDigest sha256 p) :
    Fits sha256 shard.blockchain := by
  rw [h.blockchain]
  rcases Nat.lt_or_ge 2 payloads.length with hthree | htwo
  · have hinvalid := chainOf_invalid sha256 hthree h.hashed hfree (by
      intro p hp
      rw [storedData, hstrings p hp]
      exact hdigest p hp)
    rw [Fits, retrieveData_response_of_invalid sha256 hinvalid]
    decide
  · exact fits_of_length_le_two sha256 htwo

section Run

variable (keys : Fin numServers → SessionKey) (nonces : Stream' Nonce)
  (serverNonces : Fin numServers → Stream' Nonce)
  (mallocs : Fin numServers → Stream' (Option RawBlock))

/-- The whole system, from its start on. -/
def system (events : List Event) : RouterState Shards :=
  run aes keys (shardExchange sha256 aes) (start nonces keys serverNonces mallocs) events

theorem system_concat (events : List Event) (event : Event) :
    system sha256 aes keys nonces serverNonces mallocs (events ++ [event]) =
      step aes keys (shardExchange sha256 aes)
        (system sha256 aes keys nonces serverNonces mallocs events) event :=
  run_concat aes keys (shardExchange sha256 aes) _ events event

theorem system_grows (events : List Event) (event : Event) :
    Grows sha256 (system sha256 aes keys nonces serverNonces mallocs events).servers
      (system sha256 aes keys nonces serverNonces mallocs (events ++ [event])).servers := by
  rw [system_concat]
  exact step_grows sha256 aes keys
    (run_reachable sha256 aes keys (fun _ => ⟨[], rfl⟩) events) event

theorem system_session (events : List Event) :
    (system sha256 aes keys nonces serverNonces mallocs events).session =
      events.foldl (sessionAfter aes) none :=
  run_session aes keys (shardExchange sha256 aes) _ events

/-- No collision among the strings hashed in the run, and no stored string that
ends in its own digest. -/
structure Collisionless (events : List Event) : Prop where
  free : CollisionFreeOn sha256
    (hashedStrings (system sha256 aes keys nonces serverNonces mallocs events).servers)
  digest : ∀ s ∈ stores aes none events, NotOwnDigest sha256 s

theorem Collisionless.front {events : List Event} {event : Event}
    (h : Collisionless sha256 aes keys nonces serverNonces mallocs (events ++ [event])) :
    Collisionless sha256 aes keys nonces serverNonces mallocs events where
  free := h.free.mono
    (hashedStrings_subset sha256 (system_grows sha256 aes keys nonces serverNonces mallocs events event))
  digest s hs := h.digest s (by rw [stores_concat]; exact List.mem_append_left _ hs)

/-- Router and shards stay in lockstep in a run without a collision. -/
theorem lockstep_of_collisionless {events : List Event}
    (h : Collisionless sha256 aes keys nonces serverNonces mallocs events)
    (hnul : ∀ m ∈ messages aes none events, cstr m ≠ []) :
    Lockstep sha256 aes keys (∀ i n, ((mallocs i).get n).isSome) (stores aes none events)
      (system sha256 aes keys nonces serverNonces mallocs events) := by
  refine lockstep_run sha256 aes keys (lockstep_start sha256 aes keys nonces serverNonces mallocs)
    (Collisionless sha256 aes keys nonces serverNonces mallocs) ?_ ?_ events h hnul
  · intro events event hgood
    exact hgood.front sha256 aes keys nonces serverNonces mallocs
  · intro events hgood hlockstep i
    obtain ⟨payloads, hstep, hsub, _⟩ := hlockstep.shards i
    have hmem : ∀ p ∈ payloads, p ∈ stores aes none events :=
      fun p hp => mem_of_mem_deal (hsub.subset hp)
    exact fits_of_inStep sha256 hstep (hgood.free.mono (hashed_subset _ i))
      (fun p hp => cstr_of_mem_stores aes (hmem p hp)) (fun p hp => hgood.digest p (hmem p hp))

end Run

/-! ## A system to run examples with -/

/-- The key and the nonce of all records of the examples. -/
def exampleKey : SessionKey := List.Vector.replicate _ 7

def exampleNonce : Nonce := List.Vector.replicate _ 1

/-- A system in which no allocation fails. -/
abbrev exampleSystem : List Event → RouterState Shards :=
  system Sha256.sha256 clearAes (fun _ => exampleKey) (Stream'.const exampleNonce)
    (fun _ => Stream'.const exampleNonce) (fun _ => Stream'.const (some zeroBlock))

/-- The client of the examples sends a message. -/
def exampleMessage (m : Bytes) : Event :=
  .deliver (some (sendEncyptedData clearAes exampleKey exampleNonce m))

end ShardedLedger.Router
