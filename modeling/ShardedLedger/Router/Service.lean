import ShardedLedger.Foundation.Runs
import ShardedLedger.Router.Main
set_option autoImplicit false

/-!
# Router: which messages keep the shards in service

A shard takes an empty plaintext for the end of the session and leaves its loop.
The router sends `strlen` bytes of what it decrypted: nothing, for a message that
begins with a NUL.  And with the router all shards leave their loops, when a client
does not wait for the replies to its messages.  `staysInService_iff` says that there
is no third way to take a shard out of service, and that each command gets the reply
of its shard as long as the texts for `RETRIEVE` fit a record.
-/

namespace ShardedLedger.Router

open CString Channel Server Sha256 Sockets RoundRobin Runs

variable (sha256 : Bytes → Digest) (aes : AesGcm) (keys : Fin numServers → SessionKey)

/-- The command comes back with the reply of the shard it goes to. -/
def GetsReply (i : Fin numServers) (m : Bytes) (state : RouterState Shards) : Prop :=
  (sendCommandToServer aes keys (shardExchange sha256 aes) i m state).1 =
    replyTo sha256 (state.servers i) (cstr m)

/-- All commands of the loop over the servers do. -/
def LoopGetsReplies (m : Bytes) : List (Fin numServers) → RouterState Shards → Prop
  | [], _ => True
  | i :: rest, state =>
      GetsReply sha256 aes keys i m state ∧
        LoopGetsReplies m rest (sendCommandToServer aes keys (shardExchange sha256 aes) i m state).2

/-- The commands that an event leads to do. -/
def EventGetsReplies (state : RouterState Shards) (event : Event) : Prop :=
  ∀ m, message aes state.session event = some m →
    (IsStore m → GetsReply sha256 aes keys state.currentServer (m ++ [0])
      { state with currentServer := state.currentServer + 1 }) ∧
    (cstr m = ascii "RETRIEVE" →
      LoopGetsReplies sha256 aes keys (m ++ [0]) (List.finRange numServers) state)

/-- No shard has left its loop. -/
def InService (shards : Shards) : Prop := ∀ i, (shards i).serving = true

/-- An event without a message that begins with a NUL, and without a `RETRIEVE` to a
shard whose chain validates and has a listing of more than 2048 bytes. -/
def Harmless (state : RouterState Shards) (event : Event) : Prop :=
  ∀ m, message aes state.session event = some m →
    m.head? ≠ some 0 ∧
    (cstr m = ascii "RETRIEVE" → ∀ i,
      (validateBlockchain sha256 (state.servers i).blockchain).valid = true →
        (contents (state.servers i).blockchain).length ≤ 2048)

/-! ## What harms -/

/-- What a single `recv` returns of a shard's stream. -/
theorem receiveFrom_fst (shard : Shard) :
    ∃ pending, (receiveFrom shard).1 = recv expectedPayloadLen pending := by
  unfold receiveFrom
  split
  · exact ⟨some [], rfl⟩
  · rename_i segment _ _
    exact ⟨some segment, rfl⟩

/-- A response has at most 2048 bytes. -/
theorem sendCommandToServer_length (i : Fin numServers) (m : Bytes) (state : RouterState Shards) :
    (sendCommandToServer aes keys (shardExchange sha256 aes) i m state).1.length ≤ 2048 := by
  obtain ⟨pending, hpending⟩ := receiveFrom_fst ((state.servers i).serve sha256 aes
    (recv expectedPayloadLen
      (some (sendEncyptedData aes (keys i) state.nonces.head (cstr m)))))
  unfold sendCommandToServer shardExchange
  dsimp only
  rw [hpending]
  split
  · decide
  · decide
  · rename_i ubuffer _ hreceive
    rw [cstr_append_singleton_nul]
    exact Nat.le_trans (cstr_length_le _) (length_of_receive_recv aes hreceive)

/-- So in the loop every server is asked in the state in which the loop found it. -/
theorem LoopGetsReplies.of_mem {m : Bytes} {servers : List (Fin numServers)}
    (hnodup : servers.Nodup) {state : RouterState Shards}
    (h : LoopGetsReplies sha256 aes keys m servers state) {i : Fin numServers} (hi : i ∈ servers) :
    ∃ asked : RouterState Shards, asked.servers i = state.servers i ∧
      GetsReply sha256 aes keys i m asked := by
  induction servers generalizing state with
  | nil => exact absurd hi List.not_mem_nil
  | cons j rest ih =>
      obtain ⟨hfirst, hrest⟩ := h
      obtain ⟨hnot, hnodup'⟩ := List.nodup_cons.mp hnodup
      rcases List.mem_cons.mp hi with rfl | hmem
      · exact ⟨state, rfl, hfirst⟩
      · obtain ⟨asked, hsame, hreply⟩ := ih hnodup' hrest hmem
        have hne : i ≠ j := fun heq => hnot (heq ▸ hmem)
        exact ⟨asked, hsame.trans (sendCommandToServer_other sha256 aes keys hne m state), hreply⟩

/-- A reply that the router gets has at most 2048 bytes. -/
theorem GetsReply.length_le {i : Fin numServers} {m : Bytes} {state : RouterState Shards}
    (h : GetsReply sha256 aes keys i m state) :
    (replyTo sha256 (state.servers i) (cstr m)).length ≤ 2048 := by
  have hlength := sendCommandToServer_length sha256 aes keys i m state
  rwa [h] at hlength

/-- The text of a reachable chain fits unless it validates and its listing is long. -/
theorem fits_iff {chain : List Block} (h : Reachable sha256 chain) :
    Fits sha256 chain ↔
      ((validateBlockchain sha256 chain).valid = true → (contents chain).length ≤ 2048) := by
  unfold Fits
  cases hvalid : (validateBlockchain sha256 chain).valid with
  | false =>
      rw [retrieveData_response_of_invalid sha256 hvalid]
      exact iff_of_true (by decide) (fun hfalse => absurd hfalse (by decide))
  | true =>
      rw [retrieveData_response_of_valid sha256 h hvalid, List.length_take]
      simp only [maxResponseLength, Server.maxLine, forall_const]
      omega

/-- A shard that receives an empty plaintext leaves its loop. -/
theorem shardExchange_empty {shards : Shards} {i : Fin numServers} {key : SessionKey}
    (hkey : (shards i).sessionKey = key) (nonce : Nonce) :
    ((shardExchange sha256 aes i (sendEncyptedData aes key nonce []) shards).2 i).serving =
      false := by
  have hserved : ((shards i).serve sha256 aes (recv expectedPayloadLen
      (some (sendEncyptedData aes key nonce [])))).serving = false := by
    rw [recv_send aes (Nat.zero_le _), ← hkey]
    unfold Shard.serve
    rw [receive_send]
    split
    · rename_i hnot
      simpa using hnot
    · rfl
  unfold shardExchange
  dsimp only
  rw [Function.update_self]
  unfold receiveFrom
  split
  · exact hserved
  · exact hserved

section Step

variable {sha256 aes keys} {allocates : Prop} {S : List Bytes} {state : RouterState Shards}

/-- The messages of a harmless event are not empty strings. -/
theorem Harmless.string {event : Event} (h : Harmless sha256 aes state event) (m : Bytes)
    (hmessage : message aes state.session event = some m) : cstr m ≠ [] := by
  intro hnil
  rcases cstr_eq_nil_iff.mp hnil with hempty | hhead
  · exact (message_length aes hmessage).1 (List.head?_eq_none_iff.mp hempty)
  · exact (h m hmessage).1 hhead

/-- And the texts they ask for fit. -/
theorem Harmless.fits {event : Event} (h : Harmless sha256 aes state event)
    (hreach : ∀ i, Reachable sha256 (state.servers i).blockchain) (m : Bytes)
    (hmessage : message aes state.session event = some m) (hretrieve : cstr m = ascii "RETRIEVE")
    (i : Fin numServers) : Fits sha256 (state.servers i).blockchain :=
  (fits_iff sha256 (hreach i)).mpr ((h m hmessage).2 hretrieve i)

theorem Lockstep.inService (h : Lockstep sha256 aes keys allocates S state) :
    InService state.servers := by
  intro i
  obtain ⟨_, hstep, _⟩ := h.shards i
  exact hstep.serving

/-- A message that begins with a NUL takes the shard at the cursor out of service. -/
theorem Lockstep.not_inService (h : Lockstep sha256 aes keys allocates S state) {event : Event}
    {m : Bytes} (hmessage : message aes state.session event = some m) (hnul : cstr m = []) :
    ¬ InService (Router.step aes keys (shardExchange sha256 aes) state event).servers := by
  obtain ⟨key, _, hstep⟩ := step_of_message aes keys (shardExchange sha256 aes) hmessage
  have hstore : IsStore m := by
    unfold IsStore
    rw [hnul]
    decide
  obtain ⟨_, hinstep, _⟩ := h.shards state.currentServer
  rw [hstep, handleRequest_store aes keys (shardExchange sha256 aes) key hstore]
  intro hservice
  have hempty := shardExchange_empty sha256 aes hinstep.sessionKey state.nonces.head
  have hcursor := hservice state.currentServer
  change ((shardExchange sha256 aes state.currentServer (sendEncyptedData aes
    (keys state.currentServer) state.nonces.head (cstr (m ++ [0]))) state.servers).2
      state.currentServer).serving = true at hcursor
  rw [cstr_append_singleton_nul, hnul, hempty] at hcursor
  exact absurd hcursor (by decide)

/-- A store gets the reply of the shard at the cursor. -/
theorem Lockstep.store_reply (h : Lockstep sha256 aes keys allocates S state) {m : Bytes}
    (hstore : IsStore m) (hne : cstr m ≠ []) (hlength : m.length ≤ 2048) :
    GetsReply sha256 aes keys state.currentServer (m ++ [0])
      { state with currentServer := state.currentServer + 1 } := by
  rw [GetsReply, h.sendCommandToServer_store hstore hne hlength]
  exact (replyTo_of_isStore _ hstore).symm

/-- In a retrieval every shard's text comes back, if all fit. -/
theorem Lockstep.loop_replies (h : Lockstep sha256 aes keys allocates S state)
    (hfits : ∀ i, Fits sha256 (state.servers i).blockchain) {m : Bytes}
    (hm : cstr m = ascii "RETRIEVE") (servers : List (Fin numServers)) :
    LoopGetsReplies sha256 aes keys m servers state := by
  induction servers generalizing state with
  | nil => trivial
  | cons i rest ih =>
      obtain ⟨htext, hone, hsame⟩ := h.retrieve_one (hfits i) hm
      refine ⟨?_, ih hone (fun j => by rw [hsame]; exact hfits j)⟩
      rw [GetsReply, hm, replyTo_retrieve]
      exact htext

/-- **One step**: from the lockstep, a shard leaves its loop or a command misses its
reply exactly with a harmful event. -/
theorem Lockstep.service_iff (h : Lockstep sha256 aes keys allocates S state) (event : Event) :
    (EventGetsReplies sha256 aes keys state event ∧
      InService (Router.step aes keys (shardExchange sha256 aes) state event).servers) ↔
      Harmless sha256 aes state event := by
  constructor
  · rintro ⟨hreplies, hservice⟩ m hmessage
    have hlength := message_length aes hmessage
    refine ⟨?_, ?_⟩
    · intro hhead
      exact h.not_inService hmessage (cstr_eq_nil_iff.mpr (Or.inr hhead)) hservice
    · intro hretrieve i
      have hloop := (hreplies m hmessage).2 hretrieve
      obtain ⟨asked, hsame, hreply⟩ := hloop.of_mem sha256 aes keys
        (List.nodup_finRange numServers) (List.mem_finRange i)
      have htext := hreply.length_le
      rw [hsame, cstr_append_singleton_nul, hretrieve, replyTo_retrieve] at htext
      exact (fits_iff sha256 (h.reachable i)).mp htext
  · intro hharmless
    have hfits := hharmless.fits h.reachable
    refine ⟨?_, (h.step event hfits hharmless.string).inService⟩
    intro m hmessage
    refine ⟨?_, ?_⟩
    · intro hstore
      exact h.store_reply hstore (hharmless.string m hmessage) (message_length aes hmessage).2
    · intro hretrieve
      refine h.loop_replies (hfits m hmessage hretrieve) ?_ _
      rw [cstr_append_singleton_nul, hretrieve]

end Step

/-! ## The process -/

namespace RouterMain

/-- The command comes back to the process with the reply of the shard it goes to. -/
def GetsReply (i : Fin numServers) (m : Bytes) (main : RouterMain) : Prop :=
  (main.sendCommandToServer sha256 aes keys i m).1 =
    some (replyTo sha256 (main.router.servers i) (cstr m))

/-- All commands of the loop over the servers do. -/
def LoopGetsReplies (m : Bytes) : List (Fin numServers) → RouterMain → Prop
  | [], _ => True
  | i :: rest, main =>
      main.GetsReply sha256 aes keys i m ∧
        LoopGetsReplies m rest (main.sendCommandToServer sha256 aes keys i m).2

/-- The commands that an event leads to do. -/
def EventGetsReplies (main : RouterMain) (event : MainEvent) : Prop :=
  ∀ m, main.messageAt aes event = some m →
    (IsStore m → GetsReply sha256 aes keys main.router.currentServer (m ++ [0])
      { main with
        router := { main.router with currentServer := main.router.currentServer + 1 } }) ∧
    (cstr m = ascii "RETRIEVE" →
      LoopGetsReplies sha256 aes keys (m ++ [0]) (List.finRange numServers) main)

/-- An event without a message that begins with a NUL, without a `RETRIEVE` to a shard
whose chain validates and has a listing of more than 2048 bytes, and without one that
has to be answered on a connection that was reset. -/
def Harmless (main : RouterMain) (event : MainEvent) : Prop :=
  ∀ m, main.messageAt aes event = some m →
    m.head? ≠ some 0 ∧
    (cstr m = ascii "RETRIEVE" → ∀ i,
      (validateBlockchain sha256 (main.router.servers i).blockchain).valid = true →
        (contents (main.router.servers i).blockchain).length ≤ 2048) ∧
    (cstr m ≠ ascii "EXIT" → main.client ≠ .reset)

section

variable {sha256 aes keys} {main : RouterMain}

/-- On a whole link a command gets what the router gets. -/
theorem getsReply_iff {i : Fin numServers} (h : main.links i = .connected) (m : Bytes) :
    main.GetsReply sha256 aes keys i m ↔ Router.GetsReply sha256 aes keys i m main.router := by
  obtain ⟨links, hsend, -⟩ := sendCommandToServer_of_connected sha256 aes keys h m
  rw [GetsReply, hsend, Option.some.injEq]
  rfl

theorem loopGetsReplies_iff {servers : List (Fin numServers)} (hnodup : servers.Nodup)
    (h : ∀ i ∈ servers, main.links i = .connected) (m : Bytes) :
    main.LoopGetsReplies sha256 aes keys m servers ↔
      Router.LoopGetsReplies sha256 aes keys m servers main.router := by
  induction servers generalizing main with
  | nil => exact Iff.rfl
  | cons i rest ih =>
      obtain ⟨hi, hrest⟩ := List.nodup_cons.mp hnodup
      obtain ⟨hfirst, hothers⟩ := List.forall_mem_cons.mp h
      obtain ⟨links, hsend, hother, -⟩ :=
        sendCommandToServer_of_connected sha256 aes keys hfirst m
      rw [LoopGetsReplies, Router.LoopGetsReplies, getsReply_iff hfirst, hsend, ih hrest]
      intro j hj
      rw [← hothers j hj]
      exact hother j fun heq => hi (heq ▸ hj)

theorem eventGetsReplies_iff (h : main.Linked) (event : Event) :
    main.EventGetsReplies sha256 aes keys (.event event) ↔
      Router.EventGetsReplies sha256 aes keys main.router event := by
  refine forall₂_congr fun m _ => and_congr (imp_congr_right fun _ => ?_)
    (imp_congr_right fun _ => ?_)
  · let advanced : RouterMain :=
      { main with router := { main.router with currentServer := main.router.currentServer + 1 } }
    have hadvanced : advanced.Linked := h
    exact getsReply_iff (hadvanced main.router.currentServer) _
  · exact loopGetsReplies_iff (List.nodup_finRange numServers) (fun i _ => h i) _

theorem harmless_iff (event : Event) :
    main.Harmless sha256 aes (.event event) ↔
      Router.Harmless sha256 aes main.router event ∧ ¬ main.Unanswerable aes (.event event) := by
  constructor
  · intro h
    refine ⟨fun m hm => ⟨(h m hm).1, (h m hm).2.1⟩, ?_⟩
    rintro ⟨hreset, m, hm, hexit⟩
    exact (h m hm).2.2 hexit hreset
  · rintro ⟨hharmless, hanswerable⟩ m hm
    obtain ⟨hnul, hfits⟩ := hharmless m hm
    exact ⟨hnul, hfits, fun hexit hreset => hanswerable ⟨hreset, m, hm, hexit⟩⟩

/-- **One step**: a shard leaves its loop or a command misses its reply exactly with a
harmful event. -/
theorem service_iff {allocates : Prop} {S : List Bytes} (halive : main.alive = true)
    (hlinked : main.Linked) (h : Lockstep sha256 aes keys allocates S main.router)
    (event : MainEvent) :
    (main.EventGetsReplies sha256 aes keys event ∧
      InService (main.step sha256 aes keys event).router.servers) ↔
      main.Harmless sha256 aes event := by
  cases event with
  | hangup aborted =>
      refine iff_of_true ⟨fun m hm => (by cases hm), ?_⟩ fun m hm => (by cases hm)
      rw [step]
      split
      · exact h.inService
      · exact h.inService
  | event event =>
      rw [eventGetsReplies_iff hlinked, harmless_iff]
      rcases step_of_linked sha256 aes keys halive hlinked event with
        ⟨hanswerable, hcontinues⟩ | ⟨hunanswerable, hends⟩
      · rw [and_iff_left hanswerable, hcontinues.router]
        exact h.service_iff event
      · refine iff_of_false (fun hservice => ?_) fun hharmless => hharmless.2 hunanswerable
        have hfirst := hservice.2 0
        rw [hends.servers] at hfirst
        cases hfirst

/-- A harmless event keeps process, shards and links as they should be. -/
theorem Harmless.step {allocates : Prop} {S : List Bytes} (halive : main.alive = true)
    (hlinked : main.Linked) (h : Lockstep sha256 aes keys allocates S main.router)
    {event : MainEvent} (hharmless : main.Harmless sha256 aes event) :
    (main.step sha256 aes keys event).alive = true ∧ (main.step sha256 aes keys event).Linked ∧
      ∃ S', Lockstep sha256 aes keys allocates S'
        (main.step sha256 aes keys event).router := by
  cases event with
  | hangup aborted =>
      rw [RouterMain.step]
      split
      · exact ⟨halive, hlinked, S, h⟩
      · exact ⟨halive, hlinked, S, h⟩
  | event event =>
      obtain ⟨hrouter, hanswerable⟩ := (harmless_iff event).mp hharmless
      rcases step_of_linked sha256 aes keys halive hlinked event with
        ⟨-, hcontinues⟩ | ⟨hunanswerable, -⟩
      · have hafter := h.step event (hrouter.fits h.reachable) hrouter.string
        rw [← hcontinues.router] at hafter
        exact ⟨hcontinues.alive, fun i => hcontinues.links i (hafter.inService i), _, hafter⟩
      · exact absurd hunanswerable hanswerable

end

end RouterMain

/-! ## Whole runs -/

variable (nonces : Stream' Nonce) (serverNonces : Fin numServers → Stream' Nonce)
  (mallocs : Fin numServers → Stream' (Option RawBlock))

/-- Every command of the run gets the reply of its shard, and no shard ever leaves
its loop. -/
def StaysInService (events : List MainEvent) : Prop :=
  let at_ := RouterMain.reached sha256 aes keys nonces serverNonces mallocs
  AtEveryStep (fun before event => (at_ before).EventGetsReplies sha256 aes keys event ∧
    InService (at_ (before ++ [event])).router.servers) events

/-- Every event of the run is harmless. -/
def HarmlessRun (events : List MainEvent) : Prop :=
  AtEveryStep (fun before event => (RouterMain.reached sha256 aes keys nonces serverNonces mallocs
    before).Harmless sha256 aes event) events

/-- Harmless events keep router and shards in lockstep. -/
theorem lockstep_of_harmlessRun {events : List MainEvent}
    (h : HarmlessRun sha256 aes keys nonces serverNonces mallocs events) :
    let main := RouterMain.reached sha256 aes keys nonces serverNonces mallocs events
    main.alive = true ∧ main.Linked ∧
      ∃ S, Lockstep sha256 aes keys (∀ i n, ((mallocs i).get n).isSome) S main.router := by
  refine h.induction (fun events =>
    let main := RouterMain.reached sha256 aes keys nonces serverNonces mallocs events
    main.alive = true ∧ main.Linked ∧ ∃ S, Lockstep sha256 aes keys _ S main.router)
    ⟨rfl, fun _ => rfl, [], lockstep_start sha256 aes keys nonces serverNonces mallocs⟩ ?_
  rintro before event ⟨halive, hlinked, S, hlockstep⟩ hharmless
  rw [RouterMain.reached_concat]
  exact RouterMain.Harmless.step halive hlinked hlockstep hharmless

/-- **Service.**  The shards stay in service, and every store and retrieval gets
its shards' replies, if and only if no message begins with a NUL, the texts fit at
every `RETRIEVE`, and no message that asks for a reply is handled on a connection that
was reset. -/
theorem staysInService_iff (events : List MainEvent) :
    StaysInService sha256 aes keys nonces serverNonces mallocs events ↔
      HarmlessRun sha256 aes keys nonces serverNonces mallocs events := by
  refine atEveryStep_congr ?_ events
  intro before event _ hharmless
  obtain ⟨halive, hlinked, S, hlockstep⟩ :=
    lockstep_of_harmlessRun sha256 aes keys nonces serverNonces mallocs hharmless
  rw [RouterMain.reached_concat]
  exact RouterMain.service_iff halive hlinked hlockstep event

/-- A client whose first message is a single NUL. -/
def nulSession : List MainEvent :=
  [.event (.accept exampleKey), .event (exampleMessage [0])]

/-- The router passes an empty plaintext on, and the first shard closes its session.
Of six stores that follow, the third comes back without a reply of the shard, and the
sixth ends the process. -/
theorem nul_message_ends_service :
    ¬ StaysInService Sha256.sha256 clearAes (fun _ => exampleKey) (Stream'.const exampleNonce)
        (fun _ => Stream'.const exampleNonce) (fun _ => Stream'.const (some zeroBlock))
        nulSession ∧
      (exampleProcess (nulSession ++ (List.replicate 5 (.event (exampleMessage [97]))))).alive =
        true ∧
      (exampleProcess (nulSession ++ (List.replicate 6 (.event (exampleMessage [97]))))).alive =
        false := by
  refine ⟨fun h => ?_, by decide +kernel, by decide +kernel⟩
  have hservice := (h [.event (.accept exampleKey)] (.event (exampleMessage [0])) [] rfl).2
  have hclosed : ((exampleProcess nulSession).router.servers 0).serving = false := by
    decide +kernel
  exact absurd ((hservice 0).symm.trans hclosed) (by decide)

end ShardedLedger.Router
