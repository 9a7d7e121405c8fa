import ShardedLedger.Foundation.RoundRobin
import ShardedLedger.Router.System
import ShardedLedger.Server.Sequence
set_option autoImplicit false

/-!
# Router: router and shards in lockstep

The router sends a shard one request and takes one reply.  As long as every
reply passes the single `recv` of the router (`Fits`), request and reply stay
paired, and the shards hold what the cursor has dealt to them: `Lockstep`, with
one lemma per kind of message, and `lockstep_run` for whole runs.

A reply that does not fit would leave its end in the stream and put the router
one reply behind.  Whether replies fit depends on the chains, and the chains on
the lockstep; `lockstep_run` therefore takes a condition on the run so far that
implies the one from the other.
-/

namespace ShardedLedger.Router

open CString Channel Server Sha256 RoundRobin

variable (sha256 : Bytes → Digest) (aes : AesGcm)

/-! ## One exchange -/

/-- The shard after a request whose reply the router has taken. -/
def afterRequest (shard : Shard) (request : Bytes) : Shard :=
  let handled := Server.handleRequest sha256 shard.mallocs.head request shard.blockchain
  { shard with
    blockchain := handled.blocks
    nonces := shard.nonces.tail
    mallocs := shard.mallocs.tail
    hashed := shard.hashed ++ handled.hashed }

/-- The reply of the shard to a request. -/
def replyTo (shard : Shard) (request : Bytes) : Bytes :=
  (Server.handleRequest sha256 shard.mallocs.head request shard.blockchain).response

/-- A request to a serving shard with nothing in the stream is answered, and the
whole answer taken, if it fits. -/
theorem shardExchange_send {shards : Shards} {i : Fin numServers}
    (hserving : (shards i).serving = true) (houtgoing : (shards i).outgoing = [])
    (nonce : Nonce) {request : Bytes} (hrequest : request ≠ []) (hlength : request.length ≤ 2048)
    (hfits : (replyTo sha256 (shards i) request).length ≤ 2048) :
    shardExchange sha256 aes i (sendEncyptedData aes (shards i).sessionKey nonce request) shards =
      (some (sendEncyptedData aes (shards i).sessionKey (shards i).nonces.head
          (replyTo sha256 (shards i) request)),
        Function.update shards i (afterRequest sha256 (shards i) request)) := by
  have hrecord := recv_send aes hfits (shards i).sessionKey (shards i).nonces.head
  have hunread : (sendEncyptedData aes (shards i).sessionKey (shards i).nonces.head
      (replyTo sha256 (shards i) request)).drop expectedPayloadLen = [] := by
    apply List.drop_of_length_le
    rw [sendEncyptedData_length]
    simp only [expectedPayloadLen, nonceSize, tagSize]
    omega
  have hserved := Shard.serve_send sha256 aes (shards i) hserving nonce hrequest
  unfold replyTo at hrecord hunread
  simp only [shardExchange, recv_send aes hlength, hserved, houtgoing, List.nil_append,
    receiveFrom, hunread, if_true, hrecord, afterRequest, replyTo]

/-- A shard that is in step with the router and holds the payloads. -/
structure InStep (sessionKey : SessionKey) (payloads : List Bytes) (shard : Shard) : Prop where
  sessionKey : shard.sessionKey = sessionKey
  serving : shard.serving = true
  outgoing : shard.outgoing = []
  blockchain : shard.blockchain = chainOf sha256 payloads
  hashed : ThirdHashed sha256 shard.hashed (payloads.map storedData)

/-- The shard's reply to `RETRIEVE` passes the `recv` of the router. -/
def Fits (chain : List Block) : Prop := (retrieveData sha256 chain).response.length ≤ 2048

section Requests

variable {sha256} {sessionKey : SessionKey} {payloads : List Bytes} {shard : Shard}

theorem replyTo_retrieve (shard : Shard) :
    replyTo sha256 shard (ascii "RETRIEVE") = (retrieveData sha256 shard.blockchain).response := by
  rw [replyTo, Server.handleRequest_retrieve]

theorem replyTo_store (shard : Shard) {request : Bytes} (h : cstr request ≠ ascii "RETRIEVE") :
    replyTo sha256 shard request = ascii "DATA_STORED" := by
  rw [replyTo, Server.handleRequest_store sha256 _ h]

theorem InStep.blockchain_after_retrieve (h : InStep sha256 sessionKey payloads shard) :
    (afterRequest sha256 shard (ascii "RETRIEVE")).blockchain = shard.blockchain := by
  have hreach : Reachable sha256 shard.blockchain :=
    h.blockchain ▸ chainOf_reachable sha256 payloads
  simp only [afterRequest, Server.handleRequest_retrieve]
  exact retrieveData_blocks sha256 hreach

/-- A retrieval keeps a shard in step. -/
theorem InStep.retrieve (h : InStep sha256 sessionKey payloads shard) :
    InStep sha256 sessionKey payloads (afterRequest sha256 shard (ascii "RETRIEVE")) where
  sessionKey := h.sessionKey
  serving := h.serving
  outgoing := h.outgoing
  blockchain := h.blockchain_after_retrieve.trans h.blockchain
  hashed := h.hashed.mono sha256 (List.subset_append_left _ _)

/-- The strings of the third block are hashed when it is stored, and kept. -/
theorem InStep.thirdHashed_store (h : InStep sha256 sessionKey payloads shard) (raw : RawBlock)
    (request : Bytes) :
    ThirdHashed sha256
      (shard.hashed ++ (storeData sha256 (some raw) (request ++ [0]) shard.blockchain).hashed)
      ((payloads ++ [request]).map storedData) := by
  have hkept := h.hashed.mono sha256 (List.subset_append_left shard.hashed
    (storeData sha256 (some raw) (request ++ [0]) shard.blockchain).hashed)
  rw [h.blockchain] at hkept ⊢
  rw [List.map_append]
  rcases Nat.decEq payloads.length 2 with hlength | hlength
  · exact hkept.concat sha256 (by rw [List.length_map]; exact hlength) _
  · obtain ⟨p₀, p₁, rfl⟩ := List.length_eq_two.mp hlength
    have hstored : storedData (request ++ [0]) = storedData request := by
      rw [storedData, storedData, cstr_append_singleton_nul]
    have hthird := thirdHashed_storeData sha256 p₀ p₁ (request ++ [0]) raw
    rw [hstored] at hthird
    exact hthird.mono sha256 (List.subset_append_right _ _)

/-- A store keeps a shard in step; its payload is added unless the allocation
fails. -/
theorem InStep.store (h : InStep sha256 sessionKey payloads shard) {request : Bytes}
    (hrequest : cstr request ≠ ascii "RETRIEVE") :
    InStep sha256 sessionKey
      (if shard.mallocs.head.isSome then payloads ++ [request] else payloads)
      (afterRequest sha256 shard request) := by
  have hhandled := Server.handleRequest_store sha256 shard.mallocs.head hrequest shard.blockchain
  cases hmalloc : shard.mallocs.head with
  | none =>
      rw [hmalloc] at hhandled
      refine ⟨h.sessionKey, h.serving, h.outgoing, ?_, ?_⟩
      · simp only [afterRequest, hmalloc, hhandled]
        exact h.blockchain
      · simp only [afterRequest, hmalloc, hhandled]
        exact h.hashed.mono sha256 (List.subset_append_left _ _)
  | some raw =>
      rw [hmalloc] at hhandled
      refine ⟨h.sessionKey, h.serving, h.outgoing, ?_, ?_⟩
      · simp only [afterRequest, hmalloc, hhandled, Option.isSome_some, if_true]
        rw [storeData_terminated, h.blockchain, chainOf_concat sha256 payloads request zeroBlock]
      · simp only [afterRequest, hmalloc, hhandled, Option.isSome_some, if_true]
        exact h.thirdHashed_store raw request

end Requests

/-! ## One command -/

variable (keys : Fin numServers → SessionKey)

/-- A command to a shard in step comes back with the shard's reply. -/
theorem sendCommandToServer_eq {state : RouterState Shards} {i : Fin numServers}
    {payloads : List Bytes} (h : InStep sha256 (keys i) payloads (state.servers i)) {m : Bytes}
    (hrequest : cstr m ≠ []) (hlength : (cstr m).length ≤ 2048)
    (hreply : replyTo sha256 (state.servers i) (cstr m) ≠ [])
    (hnul : (0 : UInt8) ∉ replyTo sha256 (state.servers i) (cstr m))
    (hfits : (replyTo sha256 (state.servers i) (cstr m)).length ≤ 2048) :
    sendCommandToServer aes keys (shardExchange sha256 aes) i m state =
      (replyTo sha256 (state.servers i) (cstr m),
        { state with
          nonces := state.nonces.tail
          servers := Function.update state.servers i
            (afterRequest sha256 (state.servers i) (cstr m)) }) := by
  have hexchange := shardExchange_send sha256 aes h.serving h.outgoing state.nonces.head hrequest
    hlength hfits
  rw [h.sessionKey] at hexchange
  obtain ⟨c, rest, hcons⟩ := List.exists_cons_of_ne_nil hreply
  simp only [sendCommandToServer, hexchange, receive_send]
  rw [hcons] at hnul ⊢
  simp only [cstr_append_singleton_nul, cstr_eq_self hnul]

/-! ## The system -/

/-- The strings dealt to a shard that is in step are the ones it holds, in order;
where every allocation succeeds (`allocates`), it holds them all. -/
def Holds (allocates : Prop) (sessionKey : SessionKey) (dealt : List Bytes) (shard : Shard) :
    Prop :=
  ∃ payloads, InStep sha256 sessionKey payloads shard ∧ payloads.Sublist dealt ∧
    (allocates → payloads = dealt ∧ ∀ n, (shard.mallocs.get n).isSome)

/-- The stores among the answers, with what the client opens. -/
def storeAnswers (answers : List Answer) : List (Bytes × Option Bytes) :=
  (answers.filter fun a => IsStore a.request).map fun a =>
    (a.request, receiveEncyptedData aes a.sessionKey (some a.record))

/-- Router and shards after the strings `S` have been stored. -/
structure Lockstep (allocates : Prop) (S : List Bytes) (state : RouterState Shards) : Prop where
  currentServer : state.currentServer.val = S.length % numServers
  shards : ∀ i, Holds sha256 allocates (keys i) (deal numServers i.val S) (state.servers i)
  answers : storeAnswers aes state.answers = S.map fun s => (s, some (ascii "DATA_STORED"))

theorem lockstep_start (nonces : Stream' Nonce) (serverNonces : Fin numServers → Stream' Nonce)
    (mallocs : Fin numServers → Stream' (Option RawBlock)) :
    Lockstep sha256 aes keys (∀ i n, ((mallocs i).get n).isSome) []
      (start nonces keys serverNonces mallocs) where
  currentServer := rfl
  shards i := ⟨[], ⟨rfl, rfl, rfl, rfl, trivial⟩, List.Sublist.refl _, fun h => ⟨rfl, h i⟩⟩
  answers := rfl

section Step

variable {sha256 aes keys} {allocates : Prop} {S : List Bytes} {state : RouterState Shards}

theorem Lockstep.reachable (h : Lockstep sha256 aes keys allocates S state)
    (i : Fin numServers) : Reachable sha256 (state.servers i).blockchain := by
  obtain ⟨payloads, hstep, _⟩ := h.shards i
  rw [hstep.blockchain]
  exact chainOf_reachable sha256 payloads

/-- The lockstep is about cursor, shards and the answers to stores. -/
theorem Lockstep.congr (h : Lockstep sha256 aes keys allocates S state)
    {state' : RouterState Shards} (hcurrent : state'.currentServer = state.currentServer)
    (hservers : state'.servers = state.servers)
    (hanswers : storeAnswers aes state'.answers = storeAnswers aes state.answers) :
    Lockstep sha256 aes keys allocates S state' where
  currentServer := by rw [hcurrent]; exact h.currentServer
  shards := by rw [hservers]; exact h.shards
  answers := by rw [hanswers]; exact h.answers

/-- A retrieval changes nothing of what a shard holds. -/
theorem Holds.retrieve {sessionKey : SessionKey} {dealt : List Bytes} {shard : Shard}
    (h : Holds sha256 allocates sessionKey dealt shard) :
    Holds sha256 allocates sessionKey dealt (afterRequest sha256 shard (ascii "RETRIEVE")) := by
  obtain ⟨payloads, hstep, hsub, hall⟩ := h
  exact ⟨payloads, hstep.retrieve, hsub, fun ha => ⟨(hall ha).1, fun n => (hall ha).2 (n + 1)⟩⟩

/-- A store adds to what was dealt to the shard. -/
theorem Holds.store {sessionKey : SessionKey} {dealt : List Bytes} {shard : Shard}
    (h : Holds sha256 allocates sessionKey dealt shard) {s : Bytes}
    (hs : cstr s ≠ ascii "RETRIEVE") :
    Holds sha256 allocates sessionKey (dealt ++ [s]) (afterRequest sha256 shard s) := by
  obtain ⟨payloads, hstep, hsub, hall⟩ := h
  refine ⟨_, hstep.store hs, ?_, ?_⟩
  · split
    · exact hsub.append (List.Sublist.refl _)
    · exact hsub.trans (List.sublist_append_left _ _)
  · intro ha
    have hmalloc : shard.mallocs.head.isSome := (hall ha).2 0
    rw [if_pos hmalloc, (hall ha).1]
    exact ⟨rfl, fun n => (hall ha).2 (n + 1)⟩

/-- One shard is asked for its text. -/
theorem Lockstep.retrieve_one (h : Lockstep sha256 aes keys allocates S state)
    {i : Fin numServers} (hfits : Fits sha256 (state.servers i).blockchain) {m : Bytes}
    (hm : cstr m = ascii "RETRIEVE") :
    let sent := sendCommandToServer aes keys (shardExchange sha256 aes) i m state
    sent.1 = (retrieveData sha256 (state.servers i).blockchain).response ∧
      Lockstep sha256 aes keys allocates S sent.2 ∧
      ∀ j, (sent.2.servers j).blockchain = (state.servers j).blockchain := by
  obtain ⟨payloads, hstep, _⟩ := h.shards i
  have hreply : replyTo sha256 (state.servers i) (cstr m) =
      (retrieveData sha256 (state.servers i).blockchain).response := by
    rw [hm, replyTo_retrieve]
  obtain ⟨hne, hnul⟩ := retrieveData_response_string sha256 (h.reachable i)
  have hsend := sendCommandToServer_eq sha256 aes keys hstep (m := m) (by rw [hm]; decide)
    (by rw [hm]; decide) (by rw [hreply]; exact hne) (by rw [hreply]; exact hnul)
    (by rw [hreply]; exact hfits)
  have hservers : (sendCommandToServer aes keys (shardExchange sha256 aes) i m state).2.servers =
      Function.update state.servers i
        (afterRequest sha256 (state.servers i) (ascii "RETRIEVE")) := by
    rw [hsend, hm]
  refine ⟨(congrArg Prod.fst hsend).trans hreply, ⟨h.currentServer, ?_, h.answers⟩, ?_⟩
  · intro j
    rw [hservers]
    by_cases hj : j = i
    · subst hj
      rw [Function.update_self]
      exact (h.shards j).retrieve
    · rw [Function.update_of_ne hj]
      exact h.shards j
  · intro j
    rw [hservers]
    by_cases hj : j = i
    · subst hj
      rw [Function.update_self]
      exact hstep.blockchain_after_retrieve
    · rw [Function.update_of_ne hj]

end Step

/-- The texts of the servers, formatted and concatenated as the loop does. -/
def formatAll (texts : Fin numServers → Bytes) : List (Fin numServers) → Bytes → Bytes
  | [], formatted => formatted
  | i :: rest, formatted =>
      formatAll texts rest (strncat (roomLeft formattedResponseSize formatted) formatted
        (formattedServerResponse i (texts i)))

section Step

variable {sha256 aes keys} {allocates : Prop} {S : List Bytes} {state : RouterState Shards}

/-- The loop over the servers collects the texts of their chains, and changes
none of them. -/
theorem Lockstep.retrieveLoop (h : Lockstep sha256 aes keys allocates S state)
    (hfits : ∀ i, Fits sha256 (state.servers i).blockchain) {m : Bytes}
    (hm : cstr m = ascii "RETRIEVE") (servers : List (Fin numServers)) (formatted : Bytes) :
    let done := Router.retrieveLoop aes keys (shardExchange sha256 aes) m servers formatted state
    done.1 = formatAll (fun i => (retrieveData sha256 (state.servers i).blockchain).response)
        servers formatted ∧
      Lockstep sha256 aes keys allocates S done.2 ∧
      ∀ j, (done.2.servers j).blockchain = (state.servers j).blockchain := by
  induction servers generalizing formatted state with
  | nil => exact ⟨rfl, h, fun _ => rfl⟩
  | cons i rest ih =>
      obtain ⟨htext, hone, hsame⟩ := h.retrieve_one (hfits i) hm
      obtain ⟨hrest, hlockstep, hchains⟩ :=
        ih hone (fun j => by rw [hsame]; exact hfits j)
          (strncat (roomLeft formattedResponseSize formatted) formatted
            (formattedServerResponse i
              (sendCommandToServer aes keys (shardExchange sha256 aes) i m state).1))
      refine ⟨?_, hlockstep, fun j => (hchains j).trans (hsame j)⟩
      refine hrest.trans ?_
      simp only [hsame, htext]
      rfl

/-- An answer to something else than a store. -/
theorem storeAnswers_of_not_store (answers : List Answer) {a : Answer} (h : ¬ IsStore a.request) :
    storeAnswers aes (answers ++ [a]) = storeAnswers aes answers := by
  rw [storeAnswers, List.filter_append]
  simp [h, storeAnswers]

theorem storeAnswers_of_store (answers : List Answer) {a : Answer} (h : IsStore a.request) :
    storeAnswers aes (answers ++ [a]) =
      storeAnswers aes answers ++ [(a.request, receiveEncyptedData aes a.sessionKey (some a.record))] := by
  rw [storeAnswers, List.filter_append]
  simp [h, storeAnswers]

/-- `RETRIEVE` keeps the lockstep and every chain; the answer carries the texts. -/
theorem Lockstep.handle_retrieve (h : Lockstep sha256 aes keys allocates S state)
    (hfits : ∀ i, Fits sha256 (state.servers i).blockchain) (key : SessionKey) {m : Bytes}
    (hm : cstr m = ascii "RETRIEVE") :
    let after := Router.handleRequest aes keys (shardExchange sha256 aes) key m state
    Lockstep sha256 aes keys allocates S after ∧
      (∀ j, (after.servers j).blockchain = (state.servers j).blockchain) ∧
      ∃ nonce, after.answers = state.answers ++ [⟨key, ascii "RETRIEVE",
        sendEncyptedData aes key nonce (formatAll
          (fun i => (retrieveData sha256 (state.servers i).blockchain).response)
          (List.finRange numServers) [])⟩] := by
  have hterminated : cstr (m ++ [0]) = ascii "RETRIEVE" := by
    rw [cstr_append_singleton_nul, hm]
  obtain ⟨htext, hlockstep, hchains⟩ :=
    h.retrieveLoop hfits hterminated (List.finRange numServers) []
  have hanswers := (retrieveLoop_frame aes keys (shardExchange sha256 aes) (m ++ [0]) state
    (List.finRange numServers) []).2.2
  intro after
  have hafter : after = _ := handleRequest_retrieve aes keys (shardExchange sha256 aes) key hm state
  rw [hafter]
  refine ⟨hlockstep.congr rfl rfl ?_, hchains,
    (Router.retrieveLoop aes keys (shardExchange sha256 aes) (m ++ [0])
      (List.finRange numServers) [] state).2.nonces.head, ?_⟩
  · have hword : ¬ IsStore (ascii "RETRIEVE") := by decide
    exact storeAnswers_of_not_store _ (hterminated.symm ▸ hword)
  · simp only [answer, hanswers, hterminated, htext]

theorem replyTo_of_isStore (shard : Shard) {m : Bytes} (hstore : IsStore m) :
    replyTo sha256 shard (cstr (m ++ [0])) = ascii "DATA_STORED" := by
  rw [cstr_append_singleton_nul]
  refine replyTo_store shard ?_
  rw [cstr_cstr]
  exact hstore.2

/-- The shard at the cursor acknowledges a store. -/
theorem Lockstep.sendCommandToServer_store (h : Lockstep sha256 aes keys allocates S state)
    {m : Bytes} (hstore : IsStore m) (hne : cstr m ≠ []) (hlength : m.length ≤ 2048) :
    sendCommandToServer aes keys (shardExchange sha256 aes) state.currentServer (m ++ [0])
        { state with currentServer := state.currentServer + 1 } =
      (ascii "DATA_STORED",
        { state with
          currentServer := state.currentServer + 1
          nonces := state.nonces.tail
          servers := Function.update state.servers state.currentServer
            (afterRequest sha256 (state.servers state.currentServer) (cstr m)) }) := by
  have hterminated : cstr (m ++ [0]) = cstr m := cstr_append_singleton_nul m
  have hreply : replyTo sha256 (state.servers state.currentServer) (cstr (m ++ [0])) =
      ascii "DATA_STORED" := replyTo_of_isStore _ hstore
  obtain ⟨payloads, hstep, _⟩ := h.shards state.currentServer
  let advanced : RouterState Shards := { state with currentServer := state.currentServer + 1 }
  have hadvanced : InStep sha256 (keys state.currentServer) payloads
      (advanced.servers state.currentServer) := hstep
  have hsend := sendCommandToServer_eq sha256 aes keys hadvanced (m := m ++ [0])
    (by rw [hterminated]; exact hne)
    (by rw [hterminated]; exact Nat.le_trans (cstr_length_le m) hlength)
    (by rw [hreply]; decide) (by rw [hreply]; decide) (by rw [hreply]; decide)
  rw [hreply, hterminated] at hsend
  exact hsend

/-- A store is dealt to the shard at the cursor, and acknowledged. -/
theorem Lockstep.handle_store (h : Lockstep sha256 aes keys allocates S state)
    (key : SessionKey) {m : Bytes} (hstore : IsStore m) (hne : cstr m ≠ [])
    (hlength : m.length ≤ 2048) :
    Lockstep sha256 aes keys allocates (S ++ [cstr m])
      (Router.handleRequest aes keys (shardExchange sha256 aes) key m state) := by
  let i := state.currentServer
  have hterminated : cstr (m ++ [0]) = cstr m := cstr_append_singleton_nul m
  have hword : cstr (cstr m) ≠ ascii "RETRIEVE" := by
    rw [cstr_cstr]
    exact hstore.2
  rw [handleRequest_store aes keys (shardExchange sha256 aes) key hstore,
    h.sendCommandToServer_store hstore hne hlength]
  have hcursor : S.length % numServers = i.val := h.currentServer.symm
  refine ⟨?_, ?_, ?_⟩
  · change (i + 1).val = _
    rw [Fin.val_add, ← hcursor, List.length_append, List.length_singleton]
    simp [numServers, Nat.add_mod]
  · intro j
    change Holds sha256 allocates (keys j) _ (Function.update state.servers i _ j)
    by_cases hj : j = i
    · rw [hj, Function.update_self, deal_concat_self hcursor]
      exact (h.shards i).store hword
    · rw [Function.update_of_ne hj, deal_concat_other (fun heq =>
        hj (Fin.ext (heq.symm.trans hcursor)))]
      exact h.shards j
  · have hrequest : IsStore (cstr (m ++ [0])) := by
      rw [hterminated, IsStore, cstr_cstr]
      exact hstore
    refine (storeAnswers_of_store _ hrequest).trans ?_
    rw [receive_send, h.answers, hterminated, List.map_append, List.map_singleton]

/-- **One step keeps the lockstep**, if the replies to `RETRIEVE` fit and the
message does not begin with a NUL. -/
theorem Lockstep.step (h : Lockstep sha256 aes keys allocates S state) (event : Event)
    (hfits : ∀ m, message aes state.session event = some m → cstr m = ascii "RETRIEVE" →
      ∀ i, Fits sha256 (state.servers i).blockchain)
    (hnul : ∀ m, message aes state.session event = some m → cstr m ≠ []) :
    Lockstep sha256 aes keys allocates
      (S ++ ((message aes state.session event).toList.filter fun m => IsStore m).map cstr)
      (Router.step aes keys (shardExchange sha256 aes) state event) := by
  cases hmessage : message aes state.session event with
  | none =>
      rw [step_of_no_message aes keys _ hmessage]
      simp only [Option.toList_none, List.filter_nil, List.map_nil, List.append_nil]
      exact h.congr rfl rfl rfl
  | some m =>
      obtain ⟨key, _, hstep⟩ := step_of_message aes keys (shardExchange sha256 aes) hmessage
      rw [hstep]
      by_cases hexit : cstr m = ascii "EXIT"
      · rw [handleRequest_exit aes keys _ key hexit]
        have hnot : ¬ IsStore m := fun hstore => hstore.1 hexit
        simp only [Option.toList_some, List.filter_singleton, hnot, decide_false, cond_false,
          List.map_nil, List.append_nil]
        exact h.congr rfl rfl rfl
      · by_cases hretrieve : cstr m = ascii "RETRIEVE"
        · have hnot : ¬ IsStore m := fun hstore => hstore.2 hretrieve
          simpa [hnot] using
            (h.handle_retrieve (hfits m hmessage hretrieve) key hretrieve).1
        · have hstore : IsStore m := ⟨hexit, hretrieve⟩
          simpa [hstore] using
            h.handle_store key hstore (hnul m hmessage) (message_length aes hmessage).2

end Step

/-- **A whole run keeps the lockstep**, under a condition on the run that holds of
every earlier point and, where router and shards are in lockstep, makes the
replies to `RETRIEVE` fit. -/
theorem lockstep_run {allocates : Prop} {initial : RouterState Shards}
    (hinitial : Lockstep sha256 aes keys allocates [] initial) (Good : List Event → Prop)
    (hearlier : ∀ events event, Good (events ++ [event]) → Good events)
    (hfits : ∀ events, Good events →
      Lockstep sha256 aes keys allocates (stores aes initial.session events)
        (run aes keys (shardExchange sha256 aes) initial events) →
      ∀ i, Fits sha256
        ((run aes keys (shardExchange sha256 aes) initial events).servers i).blockchain)
    (events : List Event) (hgood : Good events)
    (hnul : ∀ m ∈ messages aes initial.session events, cstr m ≠ []) :
    Lockstep sha256 aes keys allocates (stores aes initial.session events)
      (run aes keys (shardExchange sha256 aes) initial events) := by
  induction events using List.reverseRecOn with
  | nil => exact hinitial
  | append_singleton events event ih =>
      have hbefore := hearlier events event hgood
      rw [messages_concat] at hnul
      have hlockstep := ih hbefore fun m hm => hnul m (List.mem_append_left _ hm)
      have hsession := run_session aes keys (shardExchange sha256 aes) initial events
      rw [run_concat, stores_concat, ← hsession]
      refine hlockstep.step event (fun _ _ _ => hfits events hbefore hlockstep) ?_
      intro m hm
      rw [hsession] at hm
      refine hnul m (List.mem_append_right _ ?_)
      rw [hm]
      exact List.mem_cons_self

end ShardedLedger.Router
