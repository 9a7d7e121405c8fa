import ShardedLedger.Router.HandleClient
import ShardedLedger.Server.HandleClient
set_option autoImplicit false

/-!
# Router: the router with its three shards

`shardExchange` closes the router's model with the shard processes: a payload
goes to one `recv` of the shard, and the router's `recv` takes the first segment
the shard has sent, up to the size of the receive buffer.  What does not fit
stays in the stream, in front of the next reply.

`ShardGrows` is what every step does to every shard, whatever the messages are: the
chain stays reachable and is only appended to, and nothing hashed is forgotten.
-/

namespace ShardedLedger.Router

open CString Channel Server Sha256

/-- The processes behind the server sockets. -/
abbrev Shards : Type := Fin numServers → Shard

variable (sha256 : Bytes → Digest) (aes : AesGcm)

/-- The `recv` of the router on the socket of a shard. -/
def receiveFrom (shard : Shard) : Option Bytes × Shard :=
  match shard.outgoing with
  -- the shard has closed the connection: the first command behind that gets the end of
  -- the stream, and the second one no answer at all (`RouterMain.sendCommandToServer`)
  | [] => (some [], shard)
  | segment :: rest =>
      let unread := segment.drop expectedPayloadLen
      (recv expectedPayloadLen (some segment),
        { shard with outgoing := if unread = [] then rest else unread :: rest })

/-- A payload sent to a shard, which handles it, and the `recv` that follows. -/
def shardExchange : Exchange Shards := fun serverIndex payload shards =>
  let served := (shards serverIndex).serve sha256 aes (recv expectedPayloadLen (some payload))
  let (received, shard) := receiveFrom served
  (received, Function.update shards serverIndex shard)

/-- The system before the first client: the handshakes with the shards are done. -/
def start (nonces : Stream' Nonce) (serverSessionKeys : Fin numServers → SessionKey)
    (serverNonces : Fin numServers → Stream' Nonce)
    (mallocs : Fin numServers → Stream' (Option RawBlock)) : RouterState Shards where
  session := none
  currentServer := 0
  nonces := nonces
  servers := fun i => Shard.start (serverSessionKeys i) (serverNonces i) (mallocs i)
  answers := []

/-! ## Growth -/

/-- What a shard that has handled something owes to the shard before. -/
structure ShardGrows (before after : Shard) : Prop where
  reachable : Reachable sha256 after.blockchain
  extends_ : before.blockchain <+: after.blockchain
  hashed : before.hashed ⊆ after.hashed

/-- One operation extends a reachable chain. -/
theorem handleRequest_grows (malloc : Option RawBlock) (request : Bytes) {chain : List Block}
    (h : Reachable sha256 chain) :
    Reachable sha256 (Server.handleRequest sha256 malloc request chain).blocks ∧
      chain <+: (Server.handleRequest sha256 malloc request chain).blocks := by
  obtain ⟨ops, rfl⟩ := h
  unfold Server.handleRequest
  dsimp only
  split
  · have hsame := retrieveData_blocks sha256 ⟨ops, rfl⟩
    simp only [hsame]
    exact ⟨⟨ops, rfl⟩, List.prefix_refl _⟩
  · refine ⟨⟨ops ++ [.store malloc (request ++ [0])], runOperations_concat sha256 _ _⟩, ?_⟩
    cases malloc with
    | none => exact List.prefix_refl _
    | some raw =>
        obtain ⟨b, _, hblocks⟩ := check_append_of_settled sha256
          (settled_of_reachable sha256 ⟨ops, rfl⟩)
          (newBlock sha256 (request ++ [0]) (runOperations sha256 ops))
        simp only [storeData_some, hblocks]
        exact List.prefix_append _ _

theorem serve_grows {shard : Shard} (h : Reachable sha256 shard.blockchain)
    (received : Option Bytes) : ShardGrows sha256 shard (shard.serve sha256 aes received) := by
  unfold Shard.serve
  split
  · exact ⟨h, List.prefix_refl _, fun _ hx => hx⟩
  · split
    · exact ⟨h, List.prefix_refl _, fun _ hx => hx⟩
    · exact ⟨h, List.prefix_refl _, fun _ hx => hx⟩
    · rename_i decryptedData _ _
      obtain ⟨hreach, hextends⟩ :=
        handleRequest_grows sha256 shard.mallocs.head decryptedData h
      exact ⟨hreach, hextends, List.subset_append_left _ _⟩

/-- Every shard grows. -/
def Grows (before after : Shards) : Prop := ∀ i, ShardGrows sha256 (before i) (after i)

theorem Grows.refl {shards : Shards} (h : ∀ i, Reachable sha256 (shards i).blockchain) :
    Grows sha256 shards shards := fun i => ⟨h i, List.prefix_refl _, fun _ hx => hx⟩

theorem Grows.trans {a b c : Shards} (hab : Grows sha256 a b) (hbc : Grows sha256 b c) :
    Grows sha256 a c := fun i =>
  ⟨(hbc i).reachable, (hab i).extends_.trans (hbc i).extends_,
    fun _ hx => (hbc i).hashed ((hab i).hashed hx)⟩

theorem shardExchange_grows {shards : Shards} (h : ∀ i, Reachable sha256 (shards i).blockchain)
    (serverIndex : Fin numServers) (payload : Bytes) :
    Grows sha256 shards (shardExchange sha256 aes serverIndex payload shards).2 := by
  intro i
  have hserved := serve_grows sha256 aes (h serverIndex) (recv expectedPayloadLen (some payload))
  by_cases hi : i = serverIndex
  · subst hi
    simp only [shardExchange, Function.update_self, receiveFrom]
    split
    · exact hserved
    · exact ⟨hserved.reachable, hserved.extends_, hserved.hashed⟩
  · simp only [shardExchange, Function.update_of_ne hi]
    exact Grows.refl sha256 h i

variable (keys : Fin numServers → SessionKey)

/-- A command to one server leaves the others alone. -/
theorem sendCommandToServer_other {i j : Fin numServers} (h : j ≠ i) (m : Bytes)
    (state : RouterState Shards) :
    (sendCommandToServer aes keys (shardExchange sha256 aes) i m state).2.servers j =
      state.servers j := by
  rw [sendCommandToServer_servers]
  exact Function.update_of_ne h _ _

theorem retrieveLoop_grows (m : Bytes) (servers : List (Fin numServers)) (formatted : Bytes)
    {state : RouterState Shards} (h : ∀ i, Reachable sha256 (state.servers i).blockchain) :
    Grows sha256 state.servers
      (retrieveLoop aes keys (shardExchange sha256 aes) m servers formatted state).2.servers := by
  induction servers generalizing formatted state with
  | nil => exact Grows.refl sha256 h
  | cons i rest ih =>
      have hone : Grows sha256 state.servers
          (sendCommandToServer aes keys (shardExchange sha256 aes) i m state).2.servers :=
        shardExchange_grows sha256 aes h i _
      exact hone.trans sha256 (ih _ fun j => (hone j).reachable)

/-- **Every step only adds** to the chains and to what was hashed. -/
theorem step_grows {state : RouterState Shards}
    (h : ∀ i, Reachable sha256 (state.servers i).blockchain) (event : Event) :
    Grows sha256 state.servers
      (step aes keys (shardExchange sha256 aes) state event).servers := by
  cases hmessage : message aes state.session event with
  | none =>
      rw [step_of_no_message aes keys _ hmessage]
      exact Grows.refl sha256 h
  | some m =>
      obtain ⟨key, _, hstep⟩ := step_of_message aes keys (shardExchange sha256 aes) hmessage
      rw [hstep]
      by_cases hexit : cstr m = ascii "EXIT"
      · rw [handleRequest_exit aes keys _ key hexit]
        exact Grows.refl sha256 h
      · by_cases hretrieve : cstr m = ascii "RETRIEVE"
        · rw [handleRequest_retrieve aes keys _ key hretrieve]
          exact retrieveLoop_grows sha256 aes keys _ _ _ h
        · rw [handleRequest_store aes keys _ key ⟨hexit, hretrieve⟩]
          exact shardExchange_grows sha256 aes h state.currentServer _

theorem run_reachable {state : RouterState Shards}
    (h : ∀ i, Reachable sha256 (state.servers i).blockchain) (events : List Event) :
    ∀ i, Reachable sha256
      ((run aes keys (shardExchange sha256 aes) state events).servers i).blockchain := by
  induction events using List.reverseRecOn with
  | nil => exact h
  | append_singleton events event ih =>
      intro i
      rw [run_concat]
      exact (step_grows sha256 aes keys ih event i).reachable

end ShardedLedger.Router
