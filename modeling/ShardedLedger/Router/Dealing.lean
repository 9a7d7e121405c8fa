import ShardedLedger.Foundation.Runs
import ShardedLedger.Router.Main
set_option autoImplicit false

/-!
# Router: the stores of a process that may be killed

Up to the reply that ends the process, the process and its shards are those of
`system` on the events it has handled; from then on the chains stay.  So the stores
are dealt in turn whatever the clients do, and what can be missing is a reply:
`stores_dealt_in_turn_iff`.
-/

namespace ShardedLedger.Router

open CString Channel Server Sha256 Sockets RoundRobin Runs

variable (sha256 : Bytes → Digest) (aes : AesGcm)

/-- The event brings no store on a connection that was reset. -/
def StoreAnswerable (main : RouterMain) (event : MainEvent) : Prop :=
  ∀ m, main.messageAt aes event = some m → IsStore m → main.client ≠ .reset

theorem storeAnswerable_of_not_unanswerable {main : RouterMain} {event : MainEvent}
    (h : ¬ main.Unanswerable aes event) : StoreAnswerable aes main event :=
  fun m hmessage hstore hreset => h ⟨hreset, m, hmessage, hstore.1⟩

/-- The process is the router, or what the end of the process leaves of it. -/
structure Shadows (main : RouterMain) (router : RouterState Shards) : Prop where
  alive : main.alive = true → main.router = router
  ended : main.alive = false → main.router.session = none
  blockchain : ∀ i, (main.router.servers i).blockchain = (router.servers i).blockchain
  hashed : ∀ i, (main.router.servers i).hashed = (router.servers i).hashed
  currentServer : main.router.currentServer = router.currentServer

theorem Shadows.hashedStrings {main : RouterMain} {router : RouterState Shards}
    (h : Shadows main router) : hashedStrings main.router.servers = hashedStrings router.servers := by
  unfold Router.hashedStrings
  simp only [h.hashed]

theorem Shadows.of_alive {main : RouterMain} (halive : main.alive = true) :
    Shadows main main.router where
  alive _ := rfl
  ended hdead := absurd (halive.symm.trans hdead) (by decide)
  blockchain _ := rfl
  hashed _ := rfl
  currentServer := rfl

variable (keys : Fin numServers → SessionKey)

theorem RouterMain.Continues.shadows {main after : RouterMain} {event : Event}
    (h : RouterMain.Continues sha256 aes keys main event after) :
    Shadows after (Router.step aes keys (shardExchange sha256 aes) main.router event) := by
  rw [← h.router]
  exact Shadows.of_alive h.alive

theorem RouterMain.Ends.shadows {main after : RouterMain} {event : Event}
    (h : RouterMain.Ends sha256 aes keys main event after) :
    Shadows after (Router.step aes keys (shardExchange sha256 aes) main.router event) where
  alive halive := absurd (halive.symm.trans h.alive) (by decide)
  ended _ := h.session
  blockchain i := by rw [h.servers]
  hashed i := by rw [h.servers]
  currentServer := h.currentServer

/-- A client that hangs up, and anything behind the end of the process, changes
nothing but the client's socket. -/
theorem step_of_idle {main : RouterMain} (hended : main.alive = false → main.router.session = none)
    {event : MainEvent} (h : (if main.alive then event.toEvent.toList else []) = []) :
    (∃ client, main.step sha256 aes keys event = { main with client := client }) ∧
      main.messageAt aes event = none := by
  cases event with
  | hangup aborted =>
      refine ⟨?_, rfl⟩
      rw [RouterMain.step]
      split
      · exact ⟨main.client, rfl⟩
      · exact ⟨_, rfl⟩
  | event event =>
      by_cases halive : main.alive = true
      · rw [if_pos halive] at h
        exact absurd h (List.cons_ne_nil _ _)
      · rw [Bool.not_eq_true] at halive
        refine ⟨⟨main.client, ?_⟩, ?_⟩
        · exact RouterMain.step_of_dead sha256 aes keys halive (hended halive) _
        · rw [RouterMain.messageAt, hended halive]
          cases event <;> rfl

/-- An event without a store adds nothing to what is to be answered. -/
theorem map_stores_concat_iff {β : Type} (f : Bytes → β) (session : Option SessionKey)
    (events : List Event) (event : Event) :
    (stores aes session events).map f = (stores aes session (events ++ [event])).map f ↔
      ∀ m, message aes (events.foldl (sessionAfter aes) session) event = some m → ¬ IsStore m := by
  rw [stores_concat, List.map_append, List.self_eq_append_right, List.map_eq_nil_iff,
    List.map_eq_nil_iff, List.filter_eq_nil_iff]
  simp only [Option.mem_toList, decide_eq_true_eq]

theorem eq_of_handled {main : RouterMain} {event : MainEvent} {first : Event} {rest : List Event}
    (h : (if main.alive then event.toEvent.toList else []) = first :: rest) :
    main.alive = true ∧ event = .event first ∧ rest = [] := by
  split at h
  · rename_i halive
    cases event with
    | hangup aborted => cases h
    | event event =>
        cases h
        exact ⟨halive, rfl, rfl⟩
  · cases h

section Run

variable (nonces : Stream' Nonce)
  (serverNonces : Fin numServers → Stream' Nonce)
  (mallocs : Fin numServers → Stream' (Option RawBlock))

/-- No collision among the strings hashed in the run, no stored string that ends in
its own digest, and no message that begins with a NUL. -/
structure Benign (events : List MainEvent) : Prop where
  free : CollisionFreeOn sha256 (hashedStrings
    (RouterMain.reached sha256 aes keys nonces serverNonces mallocs events).router.servers)
  digest : ∀ s ∈ stores aes none
    (RouterMain.handledBy sha256 aes keys nonces serverNonces mallocs events),
      NotOwnDigest sha256 s
  string : ∀ m ∈ messages aes none
    (RouterMain.handledBy sha256 aes keys nonces serverNonces mallocs events), cstr m ≠ []

theorem Benign.front {events : List MainEvent} {event : MainEvent}
    (h : Benign sha256 aes keys nonces serverNonces mallocs (events ++ [event])) :
    Benign sha256 aes keys nonces serverNonces mallocs events := by
  have hhandled := RouterMain.handledBy_concat sha256 aes keys nonces serverNonces mallocs events
    event
  have hmessages : ∀ m ∈ messages aes none
      (RouterMain.handledBy sha256 aes keys nonces serverNonces mallocs events),
      m ∈ messages aes none
        (RouterMain.handledBy sha256 aes keys nonces serverNonces mallocs (events ++ [event])) := by
    intro m hm
    rw [hhandled, messages_append]
    exact List.mem_append_left _ hm
  refine ⟨h.free.mono (hashedStrings_subset sha256
    (RouterMain.reached_grows sha256 aes keys nonces serverNonces mallocs events event)), ?_,
    fun m hm => h.string m (hmessages m hm)⟩
  intro s hs
  obtain ⟨m, hm, rfl⟩ := List.mem_map.mp hs
  obtain ⟨hmem, hstore⟩ := List.mem_filter.mp hm
  exact h.digest _ (List.mem_map.mpr ⟨m, List.mem_filter.mpr ⟨hmessages m hmem, hstore⟩, rfl⟩)

theorem Benign.initial {before after : List MainEvent}
    (h : Benign sha256 aes keys nonces serverNonces mallocs (before ++ after)) :
    Benign sha256 aes keys nonces serverNonces mallocs before := by
  induction after using List.reverseRecOn with
  | nil => rwa [List.append_nil] at h
  | append_singleton after event ih =>
      rw [← List.append_assoc] at h
      exact ih (h.front sha256 aes keys nonces serverNonces mallocs)

/-- Where the process shadows the router, the run of the router is in lockstep. -/
theorem Benign.lockstep {events : List MainEvent}
    (h : Benign sha256 aes keys nonces serverNonces mallocs events)
    (hshadows : Shadows (RouterMain.reached sha256 aes keys nonces serverNonces mallocs events)
      (system sha256 aes keys nonces serverNonces mallocs
        (RouterMain.handledBy sha256 aes keys nonces serverNonces mallocs events))) :
    Lockstep sha256 aes keys (∀ i n, ((mallocs i).get n).isSome)
      (stores aes none (RouterMain.handledBy sha256 aes keys nonces serverNonces mallocs events))
      (system sha256 aes keys nonces serverNonces mallocs
        (RouterMain.handledBy sha256 aes keys nonces serverNonces mallocs events)) :=
  lockstep_of_collisionless sha256 aes keys nonces serverNonces mallocs
    ⟨hshadows.hashedStrings ▸ h.free, h.digest⟩ h.string

/-- Every store that was handled has been answered. -/
def StoresAnswered (events : List MainEvent) : Prop :=
  storeAnswers aes
    (RouterMain.reached sha256 aes keys nonces serverNonces mallocs events).router.answers =
      (stores aes none (RouterMain.handledBy sha256 aes keys nonces serverNonces mallocs
        events)).map fun s => (s, some (ascii "DATA_STORED"))

/-- The process after a run shadows the router on the events it has handled, with all
its links, and has left a store without its answer only if that had to be sent on a
connection that was reset. -/
structure RunShadows (events : List MainEvent) : Prop where
  shadows : Shadows (RouterMain.reached sha256 aes keys nonces serverNonces mallocs events)
    (system sha256 aes keys nonces serverNonces mallocs
      (RouterMain.handledBy sha256 aes keys nonces serverNonces mallocs events))
  linked : (RouterMain.reached sha256 aes keys nonces serverNonces mallocs events).alive = true →
    (RouterMain.reached sha256 aes keys nonces serverNonces mallocs events).Linked
  answered :
    AtEveryStep (fun before event => StoreAnswerable aes
      (RouterMain.reached sha256 aes keys nonces serverNonces mallocs before) event) events ↔
      StoresAnswered sha256 aes keys nonces serverNonces mallocs events

section Step

variable {sha256 aes keys nonces serverNonces mallocs}
variable {events : List MainEvent} {event : MainEvent} {first : Event}

/-- An event that is not handled keeps that. -/
theorem RunShadows.idle (h : RunShadows sha256 aes keys nonces serverNonces mallocs events)
    (hevent : (if (RouterMain.reached sha256 aes keys nonces serverNonces mallocs events).alive
      then event.toEvent.toList else []) = []) :
    RunShadows sha256 aes keys nonces serverNonces mallocs (events ++ [event]) := by
  have hstep := RouterMain.reached_concat sha256 aes keys nonces serverNonces mallocs events event
  have hhandled := RouterMain.handledBy_concat sha256 aes keys nonces serverNonces mallocs
    events event
  rw [hevent, List.append_nil] at hhandled
  obtain ⟨⟨client, hidle⟩, hmessage⟩ := step_of_idle sha256 aes keys h.shadows.ended hevent
  have hsame := congrArg RouterMain.router (hstep.trans hidle)
  have hanswerable : StoreAnswerable aes
      (RouterMain.reached sha256 aes keys nonces serverNonces mallocs events) event := by
    intro m hm
    rw [hmessage] at hm
    cases hm
  refine ⟨?_, ?_, ?_⟩
  · rw [hhandled, hstep, hidle]
    exact ⟨h.shadows.alive, h.shadows.ended, h.shadows.blockchain, h.shadows.hashed,
      h.shadows.currentServer⟩
  · rw [hstep, hidle]
    exact h.linked
  · rw [atEveryStep_concat, h.answered, and_iff_left hanswerable, StoresAnswered,
      StoresAnswered, hhandled]
    exact Eq.congr_left (congrArg _ (congrArg _ hsame.symm))

/-- Neither does an event that is handled end it: the process goes on as the router
does, or ends with a reply that is not sent. -/
theorem RunShadows.handled (h : RunShadows sha256 aes keys nonces serverNonces mallocs events)
    (hbenign : Benign sha256 aes keys nonces serverNonces mallocs (events ++ [.event first]))
    (halive :
      (RouterMain.reached sha256 aes keys nonces serverNonces mallocs events).alive = true) :
    RunShadows sha256 aes keys nonces serverNonces mallocs (events ++ [.event first]) := by
  have hstep := RouterMain.reached_concat sha256 aes keys nonces serverNonces mallocs events
    (.event first)
  have hhandled := RouterMain.handledBy_concat sha256 aes keys nonces serverNonces mallocs
    events (.event first)
  rw [if_pos halive] at hhandled
  have hrouter := h.shadows.alive halive
  have hnext : Router.step aes keys (shardExchange sha256 aes)
      (RouterMain.reached sha256 aes keys nonces serverNonces mallocs events).router first =
      system sha256 aes keys nonces serverNonces mallocs
        (RouterMain.handledBy sha256 aes keys nonces serverNonces mallocs
          (events ++ [.event first])) := by
    rw [hrouter, hhandled]
    exact (system_concat sha256 aes keys nonces serverNonces mallocs _ _).symm
  have hbefore := (hbenign.front sha256 aes keys nonces serverNonces mallocs).lockstep
    sha256 aes keys nonces serverNonces mallocs h.shadows
  -- up to here all stores have been answered
  have hanswered : StoresAnswered sha256 aes keys nonces serverNonces mallocs events := by
    rw [StoresAnswered, ← hbefore.answers, ← hrouter]
  have hfront := h.answered.mpr hanswered
  rcases RouterMain.step_of_linked sha256 aes keys halive (h.linked halive) first with
    ⟨hanswerable, hcontinues⟩ | ⟨hunanswerable, hends⟩
  · have hafter := hcontinues.shadows sha256 aes keys
    rw [hnext, ← hstep] at hafter
    have hlockstep := hbenign.lockstep sha256 aes keys nonces serverNonces mallocs hafter
    rw [← hstep] at hcontinues
    have hsame := hafter.alive hcontinues.alive
    refine ⟨hafter, fun _ i => ?_, ?_⟩
    · obtain ⟨_, hinstep, _⟩ := hlockstep.shards i
      exact hcontinues.links i (by rw [hsame]; exact hinstep.serving)
    · rw [atEveryStep_concat]
      refine iff_of_true ⟨hfront, storeAnswerable_of_not_unanswerable aes hanswerable⟩ ?_
      rw [StoresAnswered, ← hlockstep.answers, ← hsame]
  · have hafter := hends.shadows sha256 aes keys
    rw [hnext, ← hstep] at hafter
    rw [← hstep] at hends
    refine ⟨hafter, fun halive' => absurd (halive'.symm.trans hends.alive) (by decide), ?_⟩
    rw [atEveryStep_concat, and_iff_right hfront, StoresAnswered, hends.answers, hrouter,
      hbefore.answers, hhandled]
    -- the answers stay, so what counts is whether the event brought a store
    refine Iff.trans ?_ (map_stores_concat_iff aes _ none _ first).symm
    rw [← system_session sha256 aes keys nonces serverNonces mallocs, ← hrouter]
    constructor
    · exact fun hstores m hm hstore => hstores m hm hstore hunanswerable.1
    · exact fun hnone m hm hstore => absurd hstore (hnone m hm)

end Step

/-- **A whole run** of the process shadows the router on the events it handles. -/
theorem shadows_run {events : List MainEvent}
    (h : Benign sha256 aes keys nonces serverNonces mallocs events) :
    RunShadows sha256 aes keys nonces serverNonces mallocs events := by
  induction events using List.reverseRecOn with
  | nil => exact ⟨Shadows.of_alive rfl, fun _ _ => rfl, iff_of_true atEveryStep_nil rfl⟩
  | append_singleton events event ih =>
      have hbefore := ih (h.front sha256 aes keys nonces serverNonces mallocs)
      -- what is handled at this event, if the process still runs
      cases hevent : (if (RouterMain.reached sha256 aes keys nonces serverNonces mallocs
          events).alive then event.toEvent.toList else []) with
      | nil => exact hbefore.idle hevent
      | cons first rest =>
          obtain ⟨halive, rfl, rfl⟩ := eq_of_handled hevent
          exact hbefore.handled h halive

/-- The stores are dealt in turn: shard `i` holds the first 255 characters of the
strings at the positions congruent to `i`, in order; each of those messages was
answered `DATA_STORED`; and no event that is not a store changed the cursor or a
chain. -/
def DealtInTurn (events : List MainEvent) : Prop :=
  let at_ := RouterMain.reached sha256 aes keys nonces serverNonces mallocs
  let handled := RouterMain.handledBy sha256 aes keys nonces serverNonces mallocs events
  (∀ i, ((at_ events).router.servers i).blockchain.map (fun b => b.data.str) =
    (deal numServers i.val (stores aes none handled)).map (List.take 255)) ∧
  storeAnswers aes (at_ events).router.answers =
    (stores aes none handled).map (fun s => (s, some (ascii "DATA_STORED"))) ∧
  ∀ before event after, events = before ++ event :: after →
    (∀ m, (at_ before).messageAt aes event = some m → ¬ IsStore m) →
      (at_ (before ++ [event])).router.currentServer = (at_ before).router.currentServer ∧
        ∀ i, ((at_ (before ++ [event])).router.servers i).blockchain =
          ((at_ before).router.servers i).blockchain

/-- An event that is not a store changes nothing that lasts. -/
theorem same_of_not_store (hmallocs : ∀ i n, ((mallocs i).get n).isSome)
    {events : List MainEvent} {event : MainEvent}
    (h : Benign sha256 aes keys nonces serverNonces mallocs (events ++ [event]))
    (hnot : ∀ m, (RouterMain.reached sha256 aes keys nonces serverNonces mallocs
      events).messageAt aes event = some m → ¬ IsStore m) :
    let at_ := RouterMain.reached sha256 aes keys nonces serverNonces mallocs
    (at_ (events ++ [event])).router.currentServer = (at_ events).router.currentServer ∧
      ∀ i, ((at_ (events ++ [event])).router.servers i).blockchain =
        ((at_ events).router.servers i).blockchain := by
  intro at_
  have hfront := h.front sha256 aes keys nonces serverNonces mallocs
  have hshadows := (shadows_run sha256 aes keys nonces serverNonces mallocs hfront).shadows
  have hshadows' := (shadows_run sha256 aes keys nonces serverNonces mallocs h).shadows
  have hhandled := RouterMain.handledBy_concat sha256 aes keys nonces serverNonces mallocs
    events event
  have hstores : stores aes none
      (RouterMain.handledBy sha256 aes keys nonces serverNonces mallocs (events ++ [event])) =
        stores aes none
          (RouterMain.handledBy sha256 aes keys nonces serverNonces mallocs events) := by
    cases hevent : (if (at_ events).alive then event.toEvent.toList else []) with
    | nil => rw [hhandled, hevent, List.append_nil]
    | cons first rest =>
        obtain ⟨halive, rfl, rfl⟩ := eq_of_handled hevent
        rw [hhandled, hevent]
        have hsame := (map_stores_concat_iff aes id none
          (RouterMain.handledBy sha256 aes keys nonces serverNonces mallocs events) first).mpr ?_
        · rw [List.map_id, List.map_id] at hsame
          exact hsame.symm
        · rw [← system_session sha256 aes keys nonces serverNonces mallocs,
            ← hshadows.alive halive]
          exact hnot
  have hbefore := hfront.lockstep sha256 aes keys nonces serverNonces mallocs hshadows
  have hafter := h.lockstep sha256 aes keys nonces serverNonces mallocs hshadows'
  rw [hstores] at hafter
  refine ⟨?_, fun i => ?_⟩
  · rw [hshadows.currentServer, hshadows'.currentServer]
    exact Fin.ext (hafter.currentServer.trans hbefore.currentServer.symm)
  · obtain ⟨payloads, hstep, _, hall⟩ := hafter.shards i
    obtain ⟨payloads', hstep', _, hall'⟩ := hbefore.shards i
    rw [hshadows.blockchain, hshadows'.blockchain, hstep.blockchain, hstep'.blockchain,
      (hall hmallocs).1, (hall' hmallocs).1]

/-- **Sharding.**  In a run of the process, over any number of sessions, in which no
message begins with a NUL and no allocation fails, and without a collision, the
stores are dealt in turn if and only if no store is handled on a connection that was
reset: its string is stored, but the reply ends the process. -/
theorem stores_dealt_in_turn_iff (events : List MainEvent)
    (hmallocs : ∀ i n, ((mallocs i).get n).isSome)
    (hnul : ∀ m ∈ messages aes none
      (RouterMain.handledBy sha256 aes keys nonces serverNonces mallocs events), m.head? ≠ some 0)
    (hfree : CollisionFreeOn sha256 (hashedStrings
      (RouterMain.reached sha256 aes keys nonces serverNonces mallocs events).router.servers))
    (hdigest : ∀ s ∈ stores aes none
      (RouterMain.handledBy sha256 aes keys nonces serverNonces mallocs events),
        ¬ hexDigest (sha256 (s.take 255)) <:+ s.take 255) :
    DealtInTurn sha256 aes keys nonces serverNonces mallocs events ↔
      AtEveryStep (fun before event => StoreAnswerable aes
        (RouterMain.reached sha256 aes keys nonces serverNonces mallocs before) event) events := by
  have hbenign : Benign sha256 aes keys nonces serverNonces mallocs events :=
    ⟨hfree, hdigest, fun m hm => cstr_ne_nil_of_mem_messages aes hm (hnul m hm)⟩
  have hrun := shadows_run sha256 aes keys nonces serverNonces mallocs hbenign
  rw [hrun.answered]
  constructor
  · exact fun h => h.2.1
  · intro hanswered
    refine ⟨fun i => ?_, hanswered, ?_⟩
    · obtain ⟨payloads, hstep, _, hall⟩ :=
        (hbenign.lockstep sha256 aes keys nonces serverNonces mallocs hrun.shadows).shards i
      obtain ⟨rfl, _⟩ := hall hmallocs
      rw [hrun.shadows.blockchain]
      exact data_of_inStep sha256 aes hstep fun p hp => mem_of_mem_deal hp
    · rintro before event after rfl hnot
      rw [List.append_cons] at hbenign
      exact same_of_not_store sha256 aes keys nonces serverNonces mallocs hmallocs
        (hbenign.initial sha256 aes keys nonces serverNonces mallocs) hnot

end Run

/-! ## Two sessions -/

abbrev ExampleDealtInTurn : List MainEvent → Prop :=
  DealtInTurn Sha256.sha256 clearAes (fun _ => exampleKey) (Stream'.const exampleNonce)
    (fun _ => Stream'.const exampleNonce) (fun _ => Stream'.const (some zeroBlock))

/-- A client that stores `a`, retrieves and disconnects. -/
def shortSession : List MainEvent :=
  [.event (.accept exampleKey), .event (exampleMessage (ascii "a")),
    .event (exampleMessage (ascii "RETRIEVE")), .hangup false, .event (.deliver none)]

/-- The theorem at a short session. -/
theorem stores_dealt_in_turn_iff_shortSession :
    ExampleDealtInTurn shortSession ↔
      AtEveryStep (fun before event => StoreAnswerable clearAes (exampleProcess before) event)
        shortSession := by
  have hhashed : hashedStrings (exampleProcess shortSession).router.servers =
      List.replicate 3 (ascii "a") := by decide +kernel
  have hfree : CollisionFreeOn Sha256.sha256
      (hashedStrings (exampleProcess shortSession).router.servers) := by
    rw [hhashed]
    intro x hx y hy _
    rw [List.eq_of_mem_replicate hx, List.eq_of_mem_replicate hy]
  exact stores_dealt_in_turn_iff Sha256.sha256 clearAes (fun _ => exampleKey)
    (Stream'.const exampleNonce) (fun _ => Stream'.const exampleNonce)
    (fun _ => Stream'.const (some zeroBlock)) shortSession (fun _ _ => rfl) (by decide +kernel)
    hfree (by decide +kernel)

/-- A client that sends two stores and disconnects before they are handled. -/
def hastySession : List MainEvent :=
  [.event (.accept exampleKey), .hangup false, .event (exampleMessage (ascii "a")),
    .event (exampleMessage (ascii "b"))]

/-- Both strings are stored; the reply to the second one ends the process. -/
theorem hastySession_not_answered :
    (∀ m ∈ messages clearAes none (exampleHandled hastySession), m.head? ≠ some 0) ∧
      CollisionFreeOn Sha256.sha256
        (hashedStrings (exampleProcess hastySession).router.servers) ∧
      (∀ s ∈ stores clearAes none (exampleHandled hastySession),
        ¬ hexDigest (Sha256.sha256 (s.take 255)) <:+ s.take 255) ∧
      (exampleProcess hastySession).alive = false ∧ ¬ ExampleDealtInTurn hastySession := by
  have hhashed : hashedStrings (exampleProcess hastySession).router.servers =
      [ascii "a", ascii "a", ascii "b", ascii "b"] := by decide +kernel
  refine ⟨by decide +kernel, ?_, by decide +kernel, by decide +kernel, ?_⟩
  · rw [hhashed]
    have hdistinct : Sha256.sha256 (ascii "a") ≠ Sha256.sha256 (ascii "b") := by decide +kernel
    refine (collisionFreeOn_pair hdistinct).mono fun s hs => ?_
    simpa using hs
  · rintro ⟨-, hanswers, -⟩
    exact absurd hanswers (by decide +kernel)

end ShardedLedger.Router
