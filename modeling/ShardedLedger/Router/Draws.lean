import ShardedLedger.Router.HandleClient
set_option autoImplicit false

/-!
# Router: the order in which the router draws its nonces

The router has one generator for everything: primes, secrets and nonces of the
three key exchanges with the shards, secret and nonce of each key exchange with a
client, and a nonce for every record.  `Draws` counts what it has drawn in blocks
of 128 bits and notes which blocks became nonces under which session key.  The
count depends on the events only, not on what is drawn.
-/

namespace ShardedLedger.Router

open CString Channel

/-- The blocks of a number of `DH_NUM_BITS`. -/
def secretBlocks : Nat := 16

/-- The blocks that `client_get_session_key` draws: prime, secret and `n0`. -/
def clientHandshakeBlocks : Nat := secretBlocks + secretBlocks + 1

/-- The blocks that `server_get_session_key` draws: secret and `n1`. -/
def serverHandshakeBlocks : Nat := secretBlocks + 1

/-- A session key: the one the router shares with a shard, or with the client of
the n-th session. -/
inductive Link where
  | shard (i : Fin numServers)
  | client (n : Nat)
  deriving DecidableEq

/-- What the router has drawn. -/
structure Draws where
  session : Option SessionKey
  currentServer : Fin numServers
  /-- The number of client sessions so far. -/
  sessions : Nat
  /-- The number of blocks drawn so far. -/
  position : Nat
  /-- The blocks drawn for nonces of the router's own records, the server hello
  included. -/
  reads : List (Link × Nat)

/-- The draws of `connect_and_key_exchange_with_servers`. -/
def Draws.start : Draws where
  session := none
  currentServer := 0
  sessions := 0
  position := numServers * clientHandshakeBlocks
  reads := []

/-- The session keys of the records that `handle_client` sends for a message. -/
def linksOf (currentServer : Fin numServers) (client : Link) (m : Bytes) : List Link :=
  if cstr m = ascii "EXIT" then []
  else if cstr m = ascii "RETRIEVE" then (List.finRange numServers).map Link.shard ++ [client]
  else [.shard currentServer, client]

variable (aes : AesGcm)

/-- What one step of the router draws. -/
def Draws.step (draws : Draws) (event : Event) : Draws :=
  match event with
  | .accept sessionKey =>
      match draws.session with
      | none =>
          { draws with
            session := some sessionKey
            sessions := draws.sessions + 1
            position := draws.position + serverHandshakeBlocks
            reads := draws.reads ++
              [(.client draws.sessions, draws.position + secretBlocks)] }
      | some _ => draws
  | .deliver _ =>
      match message aes draws.session event with
      | none => { draws with session := none }
      | some m =>
          let links := linksOf draws.currentServer (.client (draws.sessions - 1)) m
          { draws with
            session := sessionAfter aes draws.session event
            currentServer :=
              if IsStore m then draws.currentServer + 1 else draws.currentServer
            position := draws.position + links.length
            reads := draws.reads ++ links.zipIdx draws.position }

/-- The draws of a run. -/
def Draws.run (draws : Draws) (events : List Event) : Draws := events.foldl (Draws.step aes) draws

theorem Draws.run_concat (draws : Draws) (events : List Event) (event : Event) :
    draws.run aes (events ++ [event]) = (draws.run aes events).step aes event := by
  simp [Draws.run]

/-! ## Each nonce is a block of its own -/

/-- The first block that becomes a nonce of the router. -/
def firstRead : Nat := numServers * clientHandshakeBlocks + secretBlocks

/-- The nonces are drawn one after the other. -/
structure Draws.Ordered (draws : Draws) : Prop where
  increasing : (draws.reads.map Prod.snd).Pairwise (· < ·)
  drawn : ∀ r ∈ draws.reads, firstRead ≤ r.2 ∧ r.2 < draws.position
  length : draws.reads.length ≤ draws.position
  started : numServers * clientHandshakeBlocks ≤ draws.position
  inSession : draws.session ≠ none → firstRead < draws.position

theorem Draws.ordered_start : Draws.start.Ordered where
  increasing := List.Pairwise.nil
  drawn := by simp [Draws.start]
  length := by decide
  started := Nat.le_refl _
  inSession h := absurd rfl h

theorem linksOf_length_le (currentServer : Fin numServers) (client : Link) (m : Bytes) :
    (linksOf currentServer client m).length ≤ 4 := by
  unfold linksOf
  split
  · decide
  · split
    · rw [List.length_append, List.length_map, List.length_finRange]
      exact Nat.le_refl 4
    · exact (by decide : 2 ≤ 4)

/-- Blocks from the position on come after all earlier ones. -/
theorem Draws.Ordered.extend {draws : Draws} (h : draws.Ordered) {reads : List (Link × Nat)}
    {position : Nat} (hincreasing : (reads.map Prod.snd).Pairwise (· < ·))
    (hreads : ∀ r ∈ reads, draws.position ≤ r.2 ∧ firstRead ≤ r.2 ∧ r.2 < position)
    (hle : draws.position + reads.length ≤ position) (session : Option SessionKey)
    (hsession : session ≠ none → firstRead < position) (currentServer : Fin numServers)
    (sessions : Nat) :
    (Draws.mk session currentServer sessions position (draws.reads ++ reads)).Ordered where
  increasing := by
    simp only [List.map_append, List.pairwise_append]
    refine ⟨h.increasing, hincreasing, ?_⟩
    intro b hb b' hb'
    obtain ⟨r, hr, rfl⟩ := List.mem_map.mp hb
    obtain ⟨r', hr', rfl⟩ := List.mem_map.mp hb'
    exact Nat.lt_of_lt_of_le (h.drawn r hr).2 (hreads r' hr').1
  drawn := by
    intro r hr
    rcases List.mem_append.mp hr with hold | hnew
    · obtain ⟨hfirst, hlt⟩ := h.drawn r hold
      exact ⟨hfirst, by change r.2 < position; omega⟩
    · exact (hreads r hnew).2
  length := by
    have := h.length
    simp only [List.length_append]
    omega
  started := by
    have := h.started
    change numServers * clientHandshakeBlocks ≤ position
    omega
  inSession := hsession

/-- Only a session brings messages. -/
theorem session_ne_none_of_message {session : Option SessionKey} {event : Event} {m : Bytes}
    (h : message aes session event = some m) : session ≠ none := by
  rintro rfl
  cases event with
  | accept _ => simp [message] at h
  | deliver _ => simp [message] at h

/-- **One step** keeps the order. -/
theorem Draws.Ordered.step {draws : Draws} (h : draws.Ordered) (event : Event) :
    (draws.step aes event).Ordered := by
  have hstarted := h.started
  cases event with
  | accept sessionKey =>
      cases hsession : draws.session with
      | some key =>
          simp only [Draws.step, hsession]
          exact h
      | none =>
          simp only [Draws.step, hsession]
          refine h.extend (List.pairwise_singleton _ _) ?_ ?_ _ ?_ _ _
          · intro r hr
            obtain rfl := List.mem_singleton.mp hr
            simp only [firstRead, serverHandshakeBlocks]
            omega
          · simp only [List.length_singleton, serverHandshakeBlocks]
            omega
          · intro _
            simp only [firstRead, serverHandshakeBlocks]
            omega
  | deliver pending =>
      cases hmessage : message aes draws.session (.deliver pending) with
      | none =>
          simp only [Draws.step, hmessage]
          exact ⟨h.increasing, h.drawn, h.length, h.started, fun hne => absurd rfl hne⟩
      | some m =>
          have hposition := h.inSession (session_ne_none_of_message aes hmessage)
          simp only [Draws.step, hmessage]
          refine h.extend ?_ ?_ ?_ _ ?_ _ _
          · rw [List.zipIdx_map_snd]
            exact List.pairwise_lt_range'
          · intro r hr
            have hle := List.le_snd_of_mem_zipIdx hr
            have hlt := List.snd_lt_add_of_mem_zipIdx hr
            omega
          · rw [List.length_zipIdx]
          · intro _
            omega

theorem Draws.Ordered.run {draws : Draws} (h : draws.Ordered) (events : List Event) :
    (draws.run aes events).Ordered := by
  induction events using List.reverseRecOn with
  | nil => exact h
  | append_singleton events event ih =>
      rw [Draws.run_concat]
      exact ih.step aes event

/-- The blocks of one session key. -/
def Draws.blocksOf (draws : Draws) (link : Link) : List Nat :=
  (draws.reads.filter (·.1 = link)).map Prod.snd

theorem Draws.Ordered.blocksOf_nodup {draws : Draws} (h : draws.Ordered) (link : Link) :
    (draws.blocksOf link).Nodup := by
  have hsublist : (draws.blocksOf link).Sublist (draws.reads.map Prod.snd) :=
    List.filter_sublist.map Prod.snd
  exact (h.increasing.imp Nat.ne_of_lt).sublist hsublist

theorem Draws.Ordered.of_mem_blocksOf {draws : Draws} (h : draws.Ordered) {link : Link} {b : Nat}
    (hb : b ∈ draws.blocksOf link) : firstRead ≤ b ∧ b < draws.position := by
  obtain ⟨r, hr, rfl⟩ := List.mem_map.mp hb
  exact h.drawn r (List.mem_filter.mp hr).1

/-! ## How much is drawn -/

/-- A step draws little. -/
theorem Draws.position_step_le (draws : Draws) (event : Event) :
    (draws.step aes event).position ≤ draws.position + serverHandshakeBlocks := by
  unfold Draws.step
  split
  · split
    · exact Nat.le_refl _
    · exact Nat.le_add_right _ _
  · split
    · exact Nat.le_add_right _ _
    · rename_i m _
      have hlength :=
        linksOf_length_le draws.currentServer (.client (draws.sessions - 1)) m
      simp only [serverHandshakeBlocks, secretBlocks]
      omega

theorem Draws.position_run_le (draws : Draws) (events : List Event) :
    (draws.run aes events).position ≤
      draws.position + serverHandshakeBlocks * events.length := by
  induction events using List.reverseRecOn with
  | nil => exact Nat.le_refl _
  | append_singleton events event ih =>
      have hstep := (draws.run aes events).position_step_le aes event
      rw [Draws.run_concat, List.length_append, List.length_singleton, Nat.mul_succ]
      omega

/-- What was drawn for a nonce stays drawn. -/
theorem Draws.reads_step (draws : Draws) (event : Event) :
    draws.reads <+: (draws.step aes event).reads := by
  unfold Draws.step
  split
  · split
    · exact List.prefix_append _ _
    · exact List.prefix_refl _
  · split
    · exact List.prefix_refl _
    · exact List.prefix_append _ _

theorem Draws.reads_run (draws : Draws) (events : List Event) :
    draws.reads <+: (draws.run aes events).reads := by
  induction events using List.reverseRecOn with
  | nil => exact List.prefix_refl _
  | append_singleton events event ih =>
      rw [Draws.run_concat]
      exact ih.trans ((draws.run aes events).reads_step aes event)

/-- The first block that becomes a nonce is that of the first server hello. -/
theorem Draws.firstRead_mem_blocksOf (sessionKey : SessionKey) (later : List Event) :
    firstRead ∈ (Draws.start.run aes (.accept sessionKey :: later)).blocksOf (.client 0) := by
  have hfirst : (Draws.start.step aes (.accept sessionKey)).reads = [(.client 0, firstRead)] := rfl
  have hlater := (Draws.start.step aes (.accept sessionKey)).reads_run aes later
  rw [hfirst] at hlater
  have hread : ((.client 0, firstRead) : Link × Nat) ∈
      (Draws.start.run aes (.accept sessionKey :: later)).reads :=
    hlater.subset (List.mem_singleton_self _)
  exact List.mem_map.mpr ⟨_, List.mem_filter.mpr ⟨hread, decide_eq_true rfl⟩, rfl⟩

end ShardedLedger.Router
