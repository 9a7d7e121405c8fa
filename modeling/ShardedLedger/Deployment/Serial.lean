import ShardedLedger.Deployment.Service
set_option autoImplicit false

/-!
# Deployment: whole sessions, one after the other

However the parties take turns, the router goes through whole sessions, one
client after the other, in the order in which it accepts them (`Serial`).  So
every client is answered as by a ledger that the clients before it have filled,
and none of them ever sees an error: `Network.every_schedule_serves_in_turn`.

The one assumption about a schedule is that SHA-256 does not collide on the
strings hashed in it.
-/

namespace ShardedLedger.Deployment

open CString Channel Router Server Sha256 RoundRobin

variable (sha256 : Bytes → Digest) (aes : AesGcm)

/-! ## A session in progress -/

/-- A client that the router is serving, when the strings `S` have been stored,
with what the router still has to go through with it, and the replies it will
still get. -/
inductive Serving (key : SessionKey) (S : List Bytes) : Process → List Event → List Bytes → Prop
  | prompting (input : List Line) (nonces : Stream' Nonce) (responses : List (Option Bytes)) :
      Serving key S ⟨.prompting, input, nonces, responses, [], [], false, false⟩
        (script aes key nonces input) (serviceReplies sha256 S (messagesOf input))
  | asked {line : Line} {m : Bytes} (hrequest : line.request = some m) (nonce : Nonce)
      (input : List Line) (nonces : Stream' Nonce) (responses : List (Option Bytes)) :
      Serving key S ⟨.waiting, input, nonces, responses, [sendEncyptedData aes key nonce m], [],
        false, false⟩
        (.deliver (some (sendEncyptedData aes key nonce m)) :: script aes key nonces input)
        (serviceReplies sha256 S (m :: messagesOf input))
  | answered {data : Bytes} (hdata : data.length ≤ 2048) (nonce : Nonce)
      (input : List Line) (nonces : Stream' Nonce) (responses : List (Option Bytes)) :
      Serving key S ⟨.waiting, input, nonces, responses, [],
        [sendEncyptedData aes key nonce data], false, false⟩
        (script aes key nonces input) (data :: serviceReplies sha256 S (messagesOf input))
  | leaving (nonce : Nonce) (input : List Line) (nonces : Stream' Nonce)
      (responses : List (Option Bytes)) :
      Serving key S ⟨.done, input, nonces, responses,
        [sendEncyptedData aes key nonce (ascii "EXIT")], [], true, false⟩
        [.deliver (some (sendEncyptedData aes key nonce (ascii "EXIT")))] []
  | ended (nonces : Stream' Nonce) (responses : List (Option Bytes)) :
      Serving key S ⟨.done, [], nonces, responses, [], [], true, false⟩ [.deliver (some [])] []

section Client

variable {sha256 aes} {key : SessionKey} {S : List Bytes} {process process' : Process}
  {todo : List Event} {expect : List Bytes}

theorem Serving.phase_ne (h : Serving sha256 aes key S process todo expect) :
    process.phase ≠ .idle ∧ process.phase ≠ .connecting := by
  cases h with
  | prompting => exact ⟨Phase.noConfusion, Phase.noConfusion⟩
  | asked => exact ⟨Phase.noConfusion, Phase.noConfusion⟩
  | answered => exact ⟨Phase.noConfusion, Phase.noConfusion⟩
  | leaving => exact ⟨Phase.noConfusion, Phase.noConfusion⟩
  | ended => exact ⟨Phase.noConfusion, Phase.noConfusion⟩

/-- What a client types is what it was expected to. -/
theorem Serving.type (h : Serving sha256 aes key S process todo expect)
    (htype : process.type aes key = some process') :
    Serving sha256 aes key S process' todo expect ∧ process'.responses = process.responses := by
  obtain ⟨hphase, hcases⟩ := Process.type_cases htype
  cases h with
  | prompting input nonces responses =>
      rcases hcases with ⟨hinput, rfl⟩ | ⟨line, rest, hinput, ⟨m, hrequest, rfl⟩ | ⟨hexit, rfl⟩ |
        ⟨hunknown, rfl⟩⟩
      · cases hinput
        exact ⟨.ended nonces responses, rfl⟩
      · cases hinput
        rw [script_of_request aes key rest nonces hrequest, messagesOf_of_request rest hrequest]
        exact ⟨.asked hrequest nonces.head rest nonces.tail responses, rfl⟩
      · cases hinput
        rw [script_of_exit aes key rest nonces hexit, messagesOf_of_exit rest hexit]
        exact ⟨.leaving nonces.head rest nonces.tail responses, rfl⟩
      · cases hinput
        rw [script_of_unknown aes key rest nonces hunknown, messagesOf_of_unknown rest hunknown]
        exact ⟨.prompting rest nonces responses, rfl⟩
  | asked => cases hphase
  | answered => cases hphase
  | leaving => cases hphase
  | ended => cases hphase

/-- What a client receives is the next reply. -/
theorem Serving.takeReply (h : Serving sha256 aes key S process todo expect)
    (htake : process.takeReply aes key = some process') :
    ∃ data expect', expect = data :: expect' ∧
      Serving sha256 aes key S process' todo expect' ∧
      process'.responses = process.responses ++ [some data] := by
  cases h with
  | prompting => cases (Process.takeReply_cases htake).1
  | asked => cases htake
  | @answered data hdata nonce input nonces responses =>
      have hunread : (sendEncyptedData aes key nonce data).drop expectedPayloadLen = [] := by
        refine List.drop_of_length_le ?_
        rw [sendEncyptedData_length]
        simp only [expectedPayloadLen, nonceSize, tagSize]
        omega
      simp only [Process.takeReply, Process.receive, recv_send aes hdata, receive_send, hunread,
        ne_eq, not_true_eq_false, if_false, if_true, Bool.false_eq_true, Option.isNone_some,
        Bool.or_self] at htake
      cases htake
      exact ⟨data, _, rfl, .prompting input nonces _, rfl⟩
  | leaving => cases (Process.takeReply_cases htake).1
  | ended => cases (Process.takeReply_cases htake).1

/-- A client that is done expects nothing more. -/
theorem Serving.expect_of_done (h : Serving sha256 aes key S process todo expect)
    (hdone : process.phase = .done) : expect = [] := by
  cases h with
  | prompting => cases hdone
  | asked => cases hdone
  | answered => cases hdone
  | leaving => rfl
  | ended => rfl

end Client

/-! ## The order of the sessions -/

section Network

variable {ι : Type} [DecidableEq ι] (keys : ι → SessionKey) (input : ι → List Line)
  (clientNonces : ι → Stream' Nonce)

/-- What the router goes through with a client. -/
def session (c : ι) : List Event :=
  .accept (keys c) :: script aes (keys c) (clientNonces c) (input c)

/-- The strings that clients store, one client after the other. -/
def storedBy (order : List ι) : List Bytes := order.flatMap fun c => storesOf (input c)

omit [DecidableEq ι] in
theorem mem_storedBy (order : List ι) {s : Bytes} (h : s ∈ storedBy input order) :
    cstr s = s ∧ s.length ≤ 21 := by
  obtain ⟨c, -, hs⟩ := List.mem_flatMap.mp h
  exact mem_storesOf hs

omit [DecidableEq ι] in
theorem messages_sessions (order : List ι) :
    messages aes none (order.flatMap (session aes keys input clientNonces)) =
      order.flatMap fun c => messagesOf (input c) := by
  induction order with
  | nil => rfl
  | cons c order ih =>
      rw [List.flatMap_cons, List.flatMap_cons, session, List.cons_append, messages]
      change [] ++ messages aes (some (keys c)) _ = _
      rw [List.nil_append, messages_script, ih]

omit [DecidableEq ι] in
theorem stores_sessions (order : List ι) :
    stores aes none (order.flatMap (session aes keys input clientNonces)) =
      storedBy input order := by
  have hfilter : ((order.flatMap fun c => messagesOf (input c)).filter fun m => IsStore m) =
      storedBy input order := List.filter_flatMap
  rw [stores, messages_sessions, hfilter]
  exact (List.map_congr_left fun s hs => (mem_storedBy input order hs).1).trans (List.map_id _)

/-- The results of the client's `receive_encypted_data`, when the clients before
it have been served. -/
def expected (before : List ι) (c : ι) : List (Option Bytes) :=
  (serviceReplies sha256 (storedBy input before) (messagesOf (input c))).map some

variable (serverSessionKeys : Fin numServers → SessionKey) (allocates : Prop)

/-- **Invariant.**  The router has gone through the sessions of the clients it has
accepted, the last one perhaps in part, and the clients have got the replies
that belong to that. -/
structure Serial (network : Network ι Shards) : Prop where
  fresh : ∀ c, c ∉ network.accepted → ∃ phase, (phase = .idle ∨ phase = .connecting) ∧
    network.clients c = { Process.start (input c) (clientNonces c) with phase := phase }
  nodup : network.accepted.Nodup
  lockstep : Lockstep sha256 aes serverSessionKeys allocates (stores aes none network.events)
    network.router
  session_eq : network.router.session = network.serving.map keys
  served : ∀ before c after, network.accepted = before ++ c :: after →
    network.serving ≠ some c → (network.clients c).Finished ∧
      (network.clients c).responses = expected sha256 input before c
  serving : ∀ c, network.serving = some c → ∃ before todo expect,
    network.accepted = before ++ [c] ∧
    Serving sha256 aes (keys c) (stores aes none network.events) (network.clients c) todo expect ∧
    network.events ++ todo = network.accepted.flatMap (session aes keys input clientNonces) ∧
    (network.clients c).responses ++ expect.map some = expected sha256 input before c
  idle : network.serving = none →
    network.events = network.accepted.flatMap (session aes keys input clientNonces)

variable {sha256 aes keys input clientNonces serverSessionKeys allocates}
  {network network' : Network ι Shards}

omit [DecidableEq ι] in
/-- A client that was accepted has left the phases before that. -/
theorem Serial.phase_of_accepted
    (h : Serial sha256 aes keys input clientNonces serverSessionKeys allocates network) {c : ι}
    (hc : c ∈ network.accepted) :
    (network.clients c).phase ≠ .idle ∧ (network.clients c).phase ≠ .connecting := by
  by_cases hserving : network.serving = some c
  · obtain ⟨_, _, _, -, hstage, -⟩ := h.serving c hserving
    exact hstage.phase_ne
  · obtain ⟨before, after, hsplit⟩ := List.append_of_mem hc
    obtain ⟨⟨hdone, -⟩, -⟩ := h.served before c after hsplit hserving
    rw [hdone]
    exact ⟨Phase.noConfusion, Phase.noConfusion⟩

omit [DecidableEq ι] in
/-- A client at its prompt or at a `recv` is the one being served. -/
theorem Serial.serving_of_phase
    (h : Serial sha256 aes keys input clientNonces serverSessionKeys allocates network) {c : ι}
    (hphase : (network.clients c).phase = .prompting ∨ (network.clients c).phase = .waiting) :
    network.serving = some c := by
  by_contra hserving
  by_cases hc : c ∈ network.accepted
  · obtain ⟨before, after, hsplit⟩ := List.append_of_mem hc
    obtain ⟨⟨hdone, -⟩, -⟩ := h.served before c after hsplit hserving
    rw [hdone] at hphase
    rcases hphase with hphase | hphase <;> cases hphase
  · obtain ⟨phase, hfresh, hclient⟩ := h.fresh c hc
    rw [hclient] at hphase
    rcases hfresh with rfl | rfl <;> rcases hphase with hphase | hphase <;> cases hphase

omit [DecidableEq ι] in
/-- The clients before the last one. -/
theorem Serial.before_of_last
    (h : Serial sha256 aes keys input clientNonces serverSessionKeys allocates network)
    {before before' after : List ι} {c : ι} (hlast : network.accepted = before ++ [c])
    (hsplit : network.accepted = before' ++ c :: after) : before' = before := by
  have hnodup := h.nodup
  rw [hlast] at hnodup
  have hnot : c ∉ before := List.disjoint_singleton.mp (List.disjoint_of_nodup_append hnodup)
  have heq : before ++ [c] = before' ++ c :: after := hlast.symm.trans hsplit
  exact ((List.append_cons_inj_of_notMem hnot List.not_mem_nil).mp heq).1.symm

/-- The client being served moves by itself. -/
theorem Serial.update
    (h : Serial sha256 aes keys input clientNonces serverSessionKeys allocates network) {c : ι}
    (hserving : network.serving = some c) {process : Process}
    (hprocess : ∀ todo expect, Serving sha256 aes (keys c) (stores aes none network.events)
      (network.clients c) todo expect → ∃ data expect', expect = data ++ expect' ∧
        Serving sha256 aes (keys c) (stores aes none network.events) process todo expect' ∧
        process.responses = (network.clients c).responses ++ data.map some) :
    Serial sha256 aes keys input clientNonces serverSessionKeys allocates
      (network.update c process) := by
  obtain ⟨before, todo, expect, haccepted, hstage, hevents, hresponses⟩ := h.serving c hserving
  obtain ⟨data, expect', rfl, hstage', hresponses'⟩ := hprocess todo expect hstage
  have hc : c ∈ network.accepted := by
    rw [haccepted]
    exact List.mem_append_right _ (List.mem_singleton_self c)
  have hself : (network.update c process).clients c = process := Function.update_self _ _ _
  have hother : ∀ d, d ≠ c → (network.update c process).clients d = network.clients d :=
    fun d hd => Function.update_of_ne hd _ _
  refine ⟨fun d hd => ?_, h.nodup, h.lockstep, h.session_eq, fun before d after hsplit hd => ?_,
    fun d hd => ?_, h.idle⟩
  · rw [hother d (by rintro rfl; exact hd hc)]
    exact h.fresh d hd
  · rw [hother d (by rintro rfl; exact hd hserving)]
    exact h.served before d after hsplit hd
  · obtain rfl : c = d := Option.some.inj (hserving.symm.trans hd)
    rw [hself]
    refine ⟨before, todo, expect', haccepted, hstage', hevents, ?_⟩
    rw [hresponses', List.append_assoc, ← List.map_append]
    exact hresponses

/-- A client connects. -/
theorem Serial.connect
    (h : Serial sha256 aes keys input clientNonces serverSessionKeys allocates network) {c : ι}
    (hphase : (network.clients c).phase = .idle) (backlog : List ι) :
    Serial sha256 aes keys input clientNonces serverSessionKeys allocates
      { network.update c { network.clients c with phase := .connecting } with
        backlog := backlog } := by
  have hc : c ∉ network.accepted := fun hmem => (h.phase_of_accepted hmem).1 hphase
  have hnot : network.serving ≠ some c := by
    intro hserving
    obtain ⟨before, _, _, haccepted, -⟩ := h.serving c hserving
    rw [haccepted] at hc
    exact hc (List.mem_append_right _ (List.mem_singleton_self c))
  have hother : ∀ d, d ≠ c → (network.update c
      { network.clients c with phase := .connecting }).clients d = network.clients d :=
    fun d hd => Function.update_of_ne hd _ _
  refine ⟨fun d hd => ?_, h.nodup, h.lockstep, h.session_eq, fun before d after hsplit hd => ?_,
    fun d hd => ?_, h.idle⟩
  · by_cases hdc : d = c
    · subst hdc
      obtain ⟨phase, -, hclient⟩ := h.fresh d hd
      refine ⟨.connecting, .inr rfl, ?_⟩
      simp only [Network.update, Function.update_self, hclient]
    · obtain ⟨phase, hfresh, hclient⟩ := h.fresh d hd
      exact ⟨phase, hfresh, (hother d hdc).trans hclient⟩
  · have hdc : d ≠ c := by
      rintro rfl
      refine hc ?_
      rw [show network.accepted = before ++ d :: after from hsplit]
      exact List.mem_append_right _ List.mem_cons_self
    have hserved := h.served before d after hsplit hd
    rwa [← hother d hdc] at hserved
  · have hdc : d ≠ c := by
      rintro rfl
      exact hnot hd
    have hserving := h.serving d hd
    rwa [← hother d hdc] at hserving

/-- The router accepts the next client. -/
theorem Serial.accept
    (h : Serial sha256 aes keys input clientNonces serverSessionKeys allocates network)
    (hidle : network.serving = none) {c : ι} (hc : c ∉ network.accepted) (backlog : List ι) :
    Serial sha256 aes keys input clientNonces serverSessionKeys allocates
      { network.update c { network.clients c with phase := .prompting } with
        backlog := backlog
        serving := some c
        router := Router.step aes serverSessionKeys (shardExchange sha256 aes) network.router
          (.accept (keys c))
        accepted := network.accepted ++ [c]
        events := network.events ++ [.accept (keys c)] } := by
  have hsession : network.router.session = none := by
    rw [h.session_eq, hidle]
    rfl
  have hstores : stores aes none (network.events ++ [.accept (keys c)]) =
      stores aes none network.events := by
    rw [stores_concat]
    exact List.append_nil _
  have hevents := h.idle hidle
  have hbefore : stores aes none network.events = storedBy input network.accepted := by
    rw [hevents, stores_sessions]
  have hother : ∀ d, d ≠ c → (network.update c
      { network.clients c with phase := .prompting }).clients d = network.clients d :=
    fun d hd => Function.update_of_ne hd _ _
  have hstep : Router.step aes serverSessionKeys (shardExchange sha256 aes) network.router
      (.accept (keys c)) = { network.router with session := some (keys c) } := by
    simp only [Router.step, hsession]
  refine ⟨fun d hd => ?_, ?_, ?_, ?_, fun before d after hsplit hd => ?_, fun d hd => ?_,
    fun hnone => absurd hnone (Option.some_ne_none c)⟩
  · obtain ⟨hold, hdc⟩ := not_or.mp (mt List.mem_append.mpr hd)
    rw [List.mem_singleton] at hdc
    obtain ⟨phase, hfresh, hclient⟩ := h.fresh d hold
    exact ⟨phase, hfresh, (hother d hdc).trans hclient⟩
  · refine h.nodup.append (List.nodup_singleton c) ?_
    rw [List.disjoint_singleton]
    exact hc
  · rw [hstores, hstep]
    exact h.lockstep.congr rfl rfl rfl
  · rw [hstep]
    rfl
  · have hdc : d ≠ c := fun heq => hd (congrArg some heq.symm)
    rcases List.eq_nil_or_concat' after with rfl | ⟨rest, last, rfl⟩
    · have hlast := (List.append_inj' hsplit rfl).2
      exact absurd (List.cons.inj hlast).1.symm hdc
    · have hfront : network.accepted ++ [c] = (before ++ d :: rest) ++ [last] := by
        rw [show network.accepted ++ [c] = before ++ d :: (rest ++ [last]) from hsplit,
          List.append_assoc, List.cons_append]
      have hserved := h.served before d rest (List.append_inj' hfront rfl).1
        (by rw [hidle]; exact (Option.some_ne_none d).symm)
      rwa [← hother d hdc] at hserved
  · obtain rfl : c = d := Option.some.inj hd
    obtain ⟨phase, -, hclient⟩ := h.fresh c hc
    have hprompting : (network.update c { network.clients c with phase := .prompting }).clients c =
        ⟨.prompting, input c, clientNonces c, [], [], [], false, false⟩ := by
      simp only [Network.update, Function.update_self, hclient, Process.start]
    refine ⟨network.accepted, script aes (keys c) (clientNonces c) (input c),
      serviceReplies sha256 (storedBy input network.accepted) (messagesOf (input c)), rfl, ?_, ?_, ?_⟩
    · rw [hstores, hbefore]
      simp only [hprompting]
      exact .prompting (input c) (clientNonces c) []
    · simp only [hevents, List.flatMap_append, List.flatMap_singleton, session, List.append_assoc,
        List.singleton_append]
    · simp only [hprompting]
      rfl

/-- The router has gone through one more event with the client it is serving, and
goes on with it. -/
theorem Serial.advance
    (h : Serial sha256 aes keys input clientNonces serverSessionKeys allocates network) {c : ι}
    (hserving : network.serving = some c) {router : RouterState Shards} {event : Event}
    {process : Process} {before : List ι} {todo : List Event} {expect : List Bytes}
    (haccepted : network.accepted = before ++ [c])
    (hlockstep : Lockstep sha256 aes serverSessionKeys allocates
      (stores aes none (network.events ++ [event])) router)
    (hsession : router.session = some (keys c))
    (hstage : Serving sha256 aes (keys c) (stores aes none (network.events ++ [event])) process
      todo expect)
    (hevents : network.events ++ event :: todo =
      network.accepted.flatMap (session aes keys input clientNonces))
    (hresponses : process.responses ++ expect.map some = expected sha256 input before c) :
    Serial sha256 aes keys input clientNonces serverSessionKeys allocates
      { network.update c process with
        router := router
        serving := some c
        events := network.events ++ [event] } := by
  have hself : (network.update c process).clients c = process := Function.update_self _ _ _
  have hother : ∀ d, d ≠ c → (network.update c process).clients d = network.clients d :=
    fun d hd => Function.update_of_ne hd _ _
  have hc : c ∈ network.accepted := by
    rw [haccepted]
    exact List.mem_append_right _ (List.mem_singleton_self c)
  refine ⟨fun d hd => ?_, h.nodup, hlockstep, hsession, fun before d after hsplit hd => ?_,
    fun d hd => ?_, fun hnone => absurd hnone (Option.some_ne_none c)⟩
  · have hdc : d ≠ c := by
      rintro rfl
      exact hd hc
    obtain ⟨phase, hfresh, hclient⟩ := h.fresh d hd
    exact ⟨phase, hfresh, (hother d hdc).trans hclient⟩
  · have hdc : d ≠ c := fun heq => hd (congrArg some heq.symm)
    have hserved := h.served before d after hsplit (hserving.symm ▸ hd)
    rwa [← hother d hdc] at hserved
  · obtain rfl : c = d := Option.some.inj hd
    refine ⟨before, todo, expect, haccepted, ?_, ?_, ?_⟩
    · simp only [hself]
      exact hstage
    · simp only [List.append_assoc, List.singleton_append]
      exact hevents
    · simp only [hself]
      exact hresponses

/-- The router has gone through the last event of the client it is serving. -/
theorem Serial.finish
    (h : Serial sha256 aes keys input clientNonces serverSessionKeys allocates network) {c : ι}
    (hserving : network.serving = some c) {router : RouterState Shards} {event : Event}
    {process : Process} {before : List ι} (haccepted : network.accepted = before ++ [c])
    (hlockstep : Lockstep sha256 aes serverSessionKeys allocates
      (stores aes none (network.events ++ [event])) router)
    (hsession : router.session = none) (hfinished : process.Finished)
    (hevents : network.events ++ [event] =
      network.accepted.flatMap (session aes keys input clientNonces))
    (hresponses : process.responses = expected sha256 input before c) :
    Serial sha256 aes keys input clientNonces serverSessionKeys allocates
      { network.update c process with
        router := router
        serving := none
        events := network.events ++ [event] } := by
  have hself : (network.update c process).clients c = process := Function.update_self _ _ _
  have hother : ∀ d, d ≠ c → (network.update c process).clients d = network.clients d :=
    fun d hd => Function.update_of_ne hd _ _
  have hc : c ∈ network.accepted := by
    rw [haccepted]
    exact List.mem_append_right _ (List.mem_singleton_self c)
  refine ⟨fun d hd => ?_, h.nodup, hlockstep, hsession, fun before' d after hsplit _ => ?_,
    fun d hd => ?_, fun _ => hevents⟩
  · have hdc : d ≠ c := by
      rintro rfl
      exact hd hc
    obtain ⟨phase, hfresh, hclient⟩ := h.fresh d hd
    exact ⟨phase, hfresh, (hother d hdc).trans hclient⟩
  · by_cases hdc : d = c
    · subst hdc
      -- the client was accepted once, so it is the last one
      have hsame : before' = before := h.before_of_last haccepted hsplit
      subst hsame
      simp only [hself]
      exact ⟨hfinished, hresponses⟩
    · have hserved := h.served before' d after hsplit (by
        rw [hserving]
        exact fun heq => hdc (Option.some.inj heq).symm)
      rwa [← hother d hdc] at hserved
  · exact absurd hd (Option.some_ne_none d).symm

omit [DecidableEq ι] in
/-- What is stored in the middle of a session is short, too. -/
theorem mem_stores_of_sessions {order : List ι} {events todo : List Event}
    (h : events ++ todo = order.flatMap (session aes keys input clientNonces)) {s : Bytes}
    (hs : s ∈ stores aes none events) : cstr s = s ∧ s.length ≤ 21 := by
  refine mem_storedBy input order ?_
  rw [← stores_sessions aes keys input clientNonces order, ← h, stores, messages_append,
    List.filter_append, List.map_append]
  exact List.mem_append_left _ hs

variable (serverSessionKeys) in
/-- The router has sent a record and goes on with its client. -/
theorem Network.handle_of_answer {c : ι} {process : Process} {pending : Option Bytes}
    {key : SessionKey} {a : Answer}
    (hsession : (Router.step aes serverSessionKeys (shardExchange sha256 aes) network.router
      (.deliver pending)).session = some key)
    (hanswers : (Router.step aes serverSessionKeys (shardExchange sha256 aes) network.router
      (.deliver pending)).answers = network.router.answers ++ [a]) :
    network.handle aes serverSessionKeys (shardExchange sha256 aes) c process pending =
      { network.update c { process with
          replies := process.replies ++ [a.record]
          routerClosed := false } with
        router := Router.step aes serverSessionKeys (shardExchange sha256 aes) network.router
          (.deliver pending)
        serving := some c
        events := network.events ++ [.deliver pending] } := by
  simp only [Network.handle, hsession, hanswers, List.drop_left, List.map_singleton,
    Option.isNone_some, Bool.false_eq_true, if_false]

variable (serverSessionKeys) in
/-- The router has ended the session. -/
theorem Network.handle_of_end {c : ι} {process : Process} {pending : Option Bytes}
    (hend : Router.step aes serverSessionKeys (shardExchange sha256 aes) network.router
      (.deliver pending) = { network.router with session := none }) :
    network.handle aes serverSessionKeys (shardExchange sha256 aes) c process pending =
      { network.update c { process with routerClosed := true } with
        router := { network.router with session := none }
        serving := none
        events := network.events ++ [.deliver pending] } := by
  simp only [Network.handle, hend, List.drop_length, List.map_nil, List.append_nil,
    Option.isNone_none, if_true]

omit [DecidableEq ι] in
/-- What a client sends at last, and its end of the stream, end the session. -/
theorem step_leaving {state : RouterState Shards} {key : SessionKey}
    (hsession : state.session = some key) (nonce : Nonce) :
    Router.step aes serverSessionKeys (shardExchange sha256 aes) state
        (.deliver (some (sendEncyptedData aes key nonce (ascii "EXIT")))) =
      { state with session := none } := by
  have hmessage := message_send aes key (show ascii "EXIT" ≠ [] by decide) (by decide) nonce
  rw [← hsession] at hmessage
  obtain ⟨key', -, hexit⟩ :=
    step_of_message aes serverSessionKeys (shardExchange sha256 aes) hmessage
  rw [hexit, handleRequest_exit aes serverSessionKeys _ key' rfl]

omit [DecidableEq ι] in
theorem step_ended {state : RouterState Shards} {key : SessionKey}
    (hsession : state.session = some key) :
    Router.step aes serverSessionKeys (shardExchange sha256 aes) state (.deliver (some [])) =
      { state with session := none } := by
  have hmessage : message aes state.session (.deliver (some [])) = none := by
    rw [hsession]
    rfl
  have heof := step_of_no_message aes serverSessionKeys (shardExchange sha256 aes) hmessage
  simpa only [sessionAfter, hmessage] using heof

/-- The router ends the session of a client that has left. -/
theorem Serial.leave
    (h : Serial sha256 aes keys input clientNonces serverSessionKeys allocates network) {c : ι}
    (hserving : network.serving = some c) {pending : Option Bytes} {process : Process}
    {before : List ι} (haccepted : network.accepted = before ++ [c])
    (hend : Router.step aes serverSessionKeys (shardExchange sha256 aes) network.router
      (.deliver pending) = { network.router with session := none })
    (hnothing : (message aes network.router.session (.deliver pending)).toList.filter
      (fun m => IsStore m) = [])
    (hfold : network.events.foldl (sessionAfter aes) none = network.router.session)
    (hdone : process.phase = .done)
    (hevents : network.events ++ [.deliver pending] =
      network.accepted.flatMap (session aes keys input clientNonces))
    (hresponses : process.responses = expected sha256 input before c) :
    Serial sha256 aes keys input clientNonces serverSessionKeys allocates
      (network.handle aes serverSessionKeys (shardExchange sha256 aes) c process pending) := by
  have hstores : stores aes none (network.events ++ [.deliver pending]) =
      stores aes none network.events := by
    rw [stores_concat, hfold, hnothing]
    exact List.append_nil _
  have hlockstep : Lockstep sha256 aes serverSessionKeys allocates
      (stores aes none (network.events ++ [.deliver pending]))
      { network.router with session := none } := by
    rw [hstores]
    exact h.lockstep.congr rfl rfl rfl
  rw [Network.handle_of_end serverSessionKeys hend]
  exact h.finish hserving haccepted hlockstep rfl ⟨hdone, rfl⟩ hevents hresponses

/-- The router handles what the client it is serving has sent. -/
theorem Serial.serve
    (h : Serial sha256 aes keys input clientNonces serverSessionKeys allocates network)
    (hfold : network.events.foldl (sessionAfter aes) none = network.router.session)
    (hallocates : allocates)
    (hfree : CollisionFreeOn sha256 (hashedStrings network.router.servers))
    (hstep : network.step aes keys serverSessionKeys (shardExchange sha256 aes) .serve =
      some network') :
    Serial sha256 aes keys input clientNonces serverSessionKeys allocates network' := by
  simp only [Network.step] at hstep
  cases hserving : network.serving with
  | none =>
      rw [hserving] at hstep
      cases hstep
  | some c =>
      obtain ⟨before, todo, expect, haccepted, hstage, hevents, hresponses⟩ := h.serving c hserving
      have hsession : network.router.session = some (keys c) := by
        rw [h.session_eq, hserving]
        rfl
      rw [hserving] at hstep
      generalize hprocess : network.clients c = process at hstage hresponses
      cases hstage with
      | prompting =>
          simp only [hprocess] at hstep
          cases hstep
      | answered =>
          simp only [hprocess] at hstep
          cases hstep
      | @asked line m hrequest nonce rest nonces responses =>
          simp only [hprocess, Option.some.injEq] at hstep
          subst hstep
          obtain ⟨data, nonce', request, hkept, hanswers, hdata, hreplies, hlockstep⟩ :=
            step_request h.lockstep hallocates (fun s hs => mem_stores_of_sessions hevents hs)
              hfree hsession hrequest nonce
          obtain ⟨hne, hlength⟩ := Line.request_length hrequest
          have hstores : stores aes none (network.events ++
              [.deliver (some (sendEncyptedData aes (keys c) nonce m))]) =
              stores aes none network.events ++ ([m].filter fun m => IsStore m).map cstr := by
            rw [stores_concat, hfold, hsession, message_send aes (keys c) hne hlength nonce]
            rfl
          rw [Network.handle_of_answer serverSessionKeys hkept hanswers]
          rw [hreplies] at hresponses
          rw [← hstores] at hlockstep hresponses
          exact h.advance hserving haccepted hlockstep hkept
            (.answered hdata nonce' rest nonces responses) hevents hresponses
      | leaving nonce rest nonces responses =>
          simp only [hprocess, Option.some.injEq] at hstep
          subst hstep
          have hmessage := message_send aes (keys c) (show ascii "EXIT" ≠ [] by decide)
            (by decide) nonce
          refine h.leave hserving haccepted (step_leaving hsession nonce) ?_ hfold rfl hevents ?_
          · rw [hsession, hmessage]
            rfl
          · rwa [List.map_nil, List.append_nil] at hresponses
      | ended nonces responses =>
          simp only [hprocess, if_true, Option.some.injEq] at hstep
          subst hstep
          refine h.leave hserving haccepted (step_ended hsession) ?_ hfold rfl hevents ?_
          · rw [hsession]
            rfl
          · rwa [List.map_nil, List.append_nil] at hresponses

/-- **One action** keeps the order of the sessions. -/
theorem Serial.step
    (h : Serial sha256 aes keys input clientNonces serverSessionKeys allocates network)
    (hconsistent : network.Consistent)
    (hfold : network.events.foldl (sessionAfter aes) none = network.router.session)
    (hallocates : allocates)
    (hfree : CollisionFreeOn sha256 (hashedStrings network.router.servers)) {action : Action ι}
    (hstep : network.step aes keys serverSessionKeys (shardExchange sha256 aes) action =
      some network') :
    Serial sha256 aes keys input clientNonces serverSessionKeys allocates network' := by
  cases action with
  | connect c =>
      obtain ⟨hphase, rfl⟩ := Network.step_connect hstep
      exact h.connect hphase _
  | accept =>
      obtain ⟨c, backlog, hidle, hbacklog, rfl⟩ := Network.step_accept hstep
      have hqueued : c ∈ network.backlog := by
        rw [hbacklog]
        exact List.mem_cons_self
      have hphase := (hconsistent.clients c).connecting_of_queued hqueued
      exact h.accept hidle (fun hmem => (h.phase_of_accepted hmem).2 hphase) backlog
  | type c =>
      obtain ⟨process, htype, rfl⟩ := Option.map_eq_some_iff.mp hstep
      refine h.update (h.serving_of_phase (.inl (Process.type_cases htype).1))
        fun todo expect hstage => ?_
      obtain ⟨hstage', hresponses⟩ := hstage.type htype
      exact ⟨[], expect, rfl, hstage', hresponses.trans (List.append_nil _).symm⟩
  | serve => exact h.serve hfold hallocates hfree hstep
  | takeReply c =>
      obtain ⟨process, htake, rfl⟩ := Option.map_eq_some_iff.mp hstep
      refine h.update (h.serving_of_phase (.inr (Process.takeReply_cases htake).1))
        fun todo expect hstage => ?_
      obtain ⟨data, expect', rfl, hstage', hresponses⟩ := hstage.takeReply htake
      exact ⟨[data], expect', rfl, hstage', hresponses⟩

omit [DecidableEq ι] in
/-- A client that has been accepted has got some of its replies, and all of them when it
is done. -/
theorem Serial.responses
    (h : Serial sha256 aes keys input clientNonces serverSessionKeys allocates network)
    {before after : List ι} {c : ι} (hsplit : network.accepted = before ++ c :: after) :
    (network.clients c).responses <+: expected sha256 input before c ∧
      ((network.clients c).phase = .done →
        (network.clients c).responses = expected sha256 input before c) := by
  by_cases hserving : network.serving = some c
  · obtain ⟨before', todo, expect, haccepted, hstage, -, hresponses⟩ := h.serving c hserving
    rw [← h.before_of_last haccepted hsplit] at hresponses
    refine ⟨⟨_, hresponses⟩, fun hdone => ?_⟩
    rw [← hresponses, hstage.expect_of_done hdone, List.map_nil, List.append_nil]
  · obtain ⟨-, hresponses⟩ := h.served before c after hsplit hserving
    exact ⟨hresponses ▸ List.prefix_rfl, fun _ => hresponses⟩

omit [DecidableEq ι] in
/-- The router has gone through a part of the sessions, through all of them when it
serves nobody. -/
theorem Serial.events_prefix
    (h : Serial sha256 aes keys input clientNonces serverSessionKeys allocates network) :
    ∃ todo, network.events ++ todo =
        network.accepted.flatMap (session aes keys input clientNonces) ∧
      (network.serving = none → todo = []) := by
  cases hserving : network.serving with
  | none => exact ⟨[], by rw [List.append_nil, h.idle hserving], fun _ => rfl⟩
  | some c =>
      obtain ⟨_, todo, _, -, -, hevents, -⟩ := h.serving c hserving
      exact ⟨todo, hevents, fun hnone => absurd hnone.symm (Option.some_ne_none c).symm⟩

omit [DecidableEq ι] in
/-- The shards hold what has been stored so far, a part of what the accepted clients
store. -/
theorem Serial.stored
    (h : Serial sha256 aes keys input clientNonces serverSessionKeys allocates network)
    (hallocates : allocates) :
    ∃ stored rest, stored ++ rest = storedBy input network.accepted ∧
      (network.serving = none → rest = []) ∧
      ∀ i, ((network.router.servers i).blockchain.map fun b => b.data.str) =
        deal numServers i.val stored := by
  obtain ⟨todo, hevents, hidle⟩ := h.events_prefix
  have hall := stores_sessions aes keys input clientNonces network.accepted
  rw [← hevents, stores, messages_append, List.filter_append, List.map_append] at hall
  refine ⟨_, _, hall, fun hnone => by rw [hidle hnone]; rfl, fun i => ?_⟩
  obtain ⟨payloads, hstep, -, hpayloads⟩ := h.lockstep.shards i
  obtain ⟨rfl, -⟩ := hpayloads hallocates
  rw [data_of_inStep sha256 aes hstep fun p hp => mem_of_mem_deal hp]
  refine (List.map_congr_left fun s hs => ?_).trans (List.map_id _)
  have hlength := (mem_stores_of_sessions hevents (mem_of_mem_deal hs)).2
  exact List.take_of_length_le (Nat.le_trans hlength (by decide))

/-- What an action does to the router. -/
theorem Network.router_of_step {action : Action ι}
    (hstep : network.step aes keys serverSessionKeys (shardExchange sha256 aes) action =
      some network') :
    (network'.router = network.router ∧ network'.events = network.events) ∨
      ∃ event, network'.router = Router.step aes serverSessionKeys (shardExchange sha256 aes)
        network.router event ∧ network'.events = network.events ++ [event] := by
  cases action with
  | connect c =>
      obtain ⟨-, rfl⟩ := Network.step_connect hstep
      exact .inl ⟨rfl, rfl⟩
  | accept =>
      obtain ⟨c, backlog, -, -, rfl⟩ := Network.step_accept hstep
      exact .inr ⟨_, rfl, rfl⟩
  | type c =>
      obtain ⟨process, -, rfl⟩ := Option.map_eq_some_iff.mp hstep
      exact .inl ⟨rfl, rfl⟩
  | serve =>
      obtain ⟨c, -, ⟨segment, requests, -, rfl⟩ | ⟨-, -, rfl⟩⟩ := Network.step_serve hstep
      · exact .inr ⟨_, rfl, rfl⟩
      · exact .inr ⟨_, rfl, rfl⟩
  | takeReply c =>
      obtain ⟨process, -, rfl⟩ := Option.map_eq_some_iff.mp hstep
      exact .inl ⟨rfl, rfl⟩

variable (sha256 aes keys input clientNonces serverSessionKeys) (nonces : Stream' Nonce)
  (serverNonces : Fin numServers → Stream' Nonce)
  (mallocs : Fin numServers → Stream' (Option RawBlock))

/-- Clients, router and shards before anything happens. -/
def deployment : Network ι Shards :=
  .start input clientNonces (Router.start nonces serverSessionKeys serverNonces mallocs)

omit [DecidableEq ι] in
theorem deployment_serial :
    Serial sha256 aes keys input clientNonces serverSessionKeys
      (∀ i n, ((mallocs i).get n).isSome)
      (deployment input clientNonces serverSessionKeys nonces serverNonces mallocs) where
  fresh c _ := ⟨.idle, .inl rfl, rfl⟩
  nodup := List.nodup_nil
  lockstep := lockstep_start sha256 aes serverSessionKeys nonces serverNonces mallocs
  session_eq := rfl
  served before c after hsplit := absurd hsplit.symm (by simp [deployment, Network.start])
  serving c hserving := absurd hserving.symm (Option.some_ne_none c)
  idle _ := rfl

/-- What holds after a schedule. -/
theorem deployment_run (hmallocs : ∀ i n, ((mallocs i).get n).isSome)
    {schedule : List (Action ι)}
    (hrun : (deployment input clientNonces serverSessionKeys nonces serverNonces mallocs).run aes
      keys serverSessionKeys (shardExchange sha256 aes) schedule = some network)
    (hfree : CollisionFreeOn sha256 (hashedStrings network.router.servers)) :
    Serial sha256 aes keys input clientNonces serverSessionKeys
      (∀ i n, ((mallocs i).get n).isSome) network := by
  let system := Router.system sha256 aes serverSessionKeys nonces serverNonces mallocs
  let Inv (network : Network ι Shards) : Prop :=
    network.router = system network.events ∧ network.Consistent ∧
      (CollisionFreeOn sha256 (hashedStrings network.router.servers) →
        Serial sha256 aes keys input clientNonces serverSessionKeys
          (∀ i n, ((mallocs i).get n).isSome) network)
  have hinitial : Inv (deployment input clientNonces serverSessionKeys nonces serverNonces mallocs) :=
    ⟨rfl, Network.start_consistent _ _ _, fun _ => deployment_serial sha256 aes keys input
      clientNonces serverSessionKeys nonces serverNonces mallocs⟩
  suffices hinv : Inv network from hinv.2.2 hfree
  refine Schedules.run_invariant ?_ hinitial hrun
  rintro before after action ⟨hrouter, hconsistent, hserial⟩ hstep
  have hfold : before.events.foldl (sessionAfter aes) none = before.router.session := by
    rw [hrouter]
    exact (system_session sha256 aes serverSessionKeys nonces serverNonces mallocs _).symm
  have hrouter' : after.router = system after.events ∧
      hashedStrings before.router.servers ⊆ hashedStrings after.router.servers := by
    rcases Network.router_of_step hstep with ⟨hsame, hevents⟩ | ⟨event, hnext, hevents⟩
    · rw [hsame, hevents]
      exact ⟨hrouter, fun _ hs => hs⟩
    · have hsystem : after.router = system (before.events ++ [event]) := by
        rw [hnext, hrouter]
        exact (system_concat sha256 aes serverSessionKeys nonces serverNonces mallocs _ _).symm
      refine ⟨by rw [hsystem, hevents], ?_⟩
      rw [hsystem, hrouter]
      exact hashedStrings_subset sha256
        (system_grows sha256 aes serverSessionKeys nonces serverNonces mallocs _ _)
  refine ⟨hrouter'.1, (hconsistent.step hstep).1, fun hfree' => ?_⟩
  have hbefore := hfree'.mono hrouter'.2
  exact (hserial hbefore).step hconsistent hfold hmallocs hbefore hstep

/-- **Every schedule serves the clients in turn.**  However the clients and the router
take turns, the router goes through whole sessions, one after the other; every
client gets the replies of a ledger that the clients accepted before it have
filled, in order and without an error, all of them when it is done; and the
shards hold the strings of the sessions, dealt in turn. -/
theorem Network.every_schedule_serves_in_turn (hmallocs : ∀ i n, ((mallocs i).get n).isSome)
    {schedule : List (Action ι)}
    (hrun : (deployment input clientNonces serverSessionKeys nonces serverNonces mallocs).run aes
      keys serverSessionKeys (shardExchange sha256 aes) schedule = some network)
    (hfree : CollisionFreeOn sha256 (hashedStrings network.router.servers)) :
    network.accepted.Nodup ∧
    network.events <+: network.accepted.flatMap (session aes keys input clientNonces) ∧
    (∀ c, c ∉ network.accepted → (network.clients c).responses = []) ∧
    (∀ before c after, network.accepted = before ++ c :: after →
      (network.clients c).responses <+: expected sha256 input before c ∧
        ((network.clients c).phase = .done →
          (network.clients c).responses = expected sha256 input before c)) ∧
    ∃ stored rest, stored ++ rest = storedBy input network.accepted ∧
      (network.serving = none → rest = []) ∧
      ∀ i, ((network.router.servers i).blockchain.map fun b => b.data.str) =
        deal numServers i.val stored := by
  have hserial := deployment_run sha256 aes keys input clientNonces serverSessionKeys nonces
    serverNonces mallocs hmallocs hrun hfree
  obtain ⟨todo, hevents, -⟩ := hserial.events_prefix
  refine ⟨hserial.nodup, ⟨todo, hevents⟩, fun c hc => ?_,
    fun before c after hsplit => hserial.responses hsplit, hserial.stored hmallocs⟩
  obtain ⟨phase, -, hclient⟩ := hserial.fresh c hc
  rw [hclient]
  rfl

theorem exampleRand_lt : 5 < 2 ^ 31 := by decide

/-- What `rand` returns in the example. -/
def exampleRand : Fin (2 ^ 31) := ⟨5, exampleRand_lt⟩

/-- Two clients: one stores and leaves, the other retrieves. -/
def storeThenRetrieve (c : Bool) : List Line :=
  if c then [⟨ascii "retrieve\n", exampleRand⟩]
  else [⟨ascii "store\n", exampleRand⟩, ⟨ascii "exit\n", exampleRand⟩]

/-- The two clients, the router and the shards; no allocation fails. -/
abbrev storeThenRetrieveDeployment : Network Bool Shards :=
  deployment storeThenRetrieve (fun _ => Stream'.const exampleNonce) (fun _ => exampleKey)
    (Stream'.const exampleNonce) (fun _ => Stream'.const exampleNonce)
    (fun _ => Stream'.const (some zeroBlock))

/-- The second client connects while the first is served, and waits for its turn. -/
def storeThenRetrieveSchedule : List (Action Bool) :=
  [.connect false, .accept, .type false, .connect true, .serve, .takeReply false, .type false,
    .serve, .accept, .type true, .serve, .takeReply true]

abbrev storeThenRetrieveRun : Option (Network Bool Shards) :=
  storeThenRetrieveDeployment.run clearAes (fun _ => exampleKey) (fun _ => exampleKey)
    (shardExchange Sha256.sha256 clearAes) storeThenRetrieveSchedule

/-- The theorem at that schedule. -/
theorem Network.every_schedule_serves_in_turn_two_clients :
    ∃ network, storeThenRetrieveRun = some network ∧
    network.accepted.Nodup ∧
    network.events <+: network.accepted.flatMap (session clearAes (fun _ => exampleKey)
      storeThenRetrieve (fun _ => Stream'.const exampleNonce)) ∧
    (∀ c, c ∉ network.accepted → (network.clients c).responses = []) ∧
    (∀ before c after, network.accepted = before ++ c :: after →
      (network.clients c).responses <+: expected Sha256.sha256 storeThenRetrieve before c ∧
        ((network.clients c).phase = .done →
          (network.clients c).responses = expected Sha256.sha256 storeThenRetrieve before c)) ∧
    ∃ stored rest, stored ++ rest = storedBy storeThenRetrieve network.accepted ∧
      (network.serving = none → rest = []) ∧
      ∀ i, ((network.router.servers i).blockchain.map fun b => b.data.str) =
        deal numServers i.val stored := by
  have hhashed : storeThenRetrieveRun.map (fun network => hashedStrings network.router.servers) =
      some (List.replicate 3 (ascii "RandomData_5")) := by decide +kernel
  obtain ⟨network, hrun, hstrings⟩ := Option.map_eq_some_iff.mp hhashed
  have hfree : CollisionFreeOn Sha256.sha256 (hashedStrings network.router.servers) := by
    rw [hstrings]
    intro x hx y hy _
    rw [List.eq_of_mem_replicate hx, List.eq_of_mem_replicate hy]
  exact ⟨network, hrun, every_schedule_serves_in_turn Sha256.sha256 clearAes
    (fun _ => exampleKey) storeThenRetrieve (fun _ => Stream'.const exampleNonce)
    (fun _ => exampleKey) (Stream'.const exampleNonce) (fun _ => Stream'.const exampleNonce)
    (fun _ => Stream'.const (some zeroBlock)) (fun _ _ => rfl) hrun hfree⟩

end Network

end ShardedLedger.Deployment
