import ShardedLedger.Client.Main
import ShardedLedger.Router.Retrieval
import ShardedLedger.Router.Service
import ShardedLedger.Router.Traffic
set_option autoImplicit false

/-!
# Router: which messages fit their receiver

`receive_encypted_data` takes at most 2048 bytes of plaintext, but the response
buffers of the shard and of the router are larger.  `messagesFit_iff` says when
everything that is sent fits: at each `RETRIEVE` the three texts have, under their
headings, at most 2048 bytes together.

As long as everything fits, nothing is left in the streams of the shards (`Quiet`),
whether the shards still serve or not; so the texts arrive as they were sent.
-/

namespace ShardedLedger.Router

open CString Channel Server Sha256 Runs

variable (sha256 : Bytes → Digest) (aes : AesGcm)

/-- The record of a plaintext that fits `receive_encypted_data`. -/
def FitsReceiver (record : Bytes) : Prop :=
  ∃ sessionKey nonce data, record = sendEncyptedData aes sessionKey nonce data ∧
    data.length ≤ 2048

theorem fitsReceiver_send (sessionKey : SessionKey) (nonce : Nonce) (data : Bytes) :
    FitsReceiver aes (sendEncyptedData aes sessionKey nonce data) ↔ data.length ≤ 2048 := by
  constructor
  · rintro ⟨sessionKey', nonce', data', heq, hlength⟩
    have hlengths := congrArg List.length heq
    rw [sendEncyptedData_length, sendEncyptedData_length] at hlengths
    omega
  · intro h
    exact ⟨sessionKey, nonce, data, rfl, h⟩

/-- Payload and replies fit. -/
def Exchanged.Fits (exchanged : Exchanged) : Prop :=
  FitsReceiver aes exchanged.payload ∧ ∀ reply ∈ exchanged.replies, FitsReceiver aes reply

/-- All that was sent so far fits, between router and shards and to the clients. -/
def RecordsFit (state : RouterState Observed) : Prop :=
  (∀ exchanged ∈ state.servers.exchanges, exchanged.Fits aes) ∧
    ∀ answer ∈ state.answers, FitsReceiver aes answer.record

/-! ## The texts of a retrieval -/

/-- What the router puts in the place of a reply that does not open. -/
def noReply : Bytes := ascii "Reached size limit for server response"

/-- What a shard shows for `RETRIEVE`, in full; nothing, once it has left its loop. -/
def shownText (shard : Shard) : Bytes :=
  if shard.serving then
    if (validateBlockchain sha256 shard.blockchain).valid then contents shard.blockchain
    else failResponse
  else noReply

/-- The texts of the three shards under their headings. -/
def shownTexts (shards : Shards) : Bytes :=
  ((List.finRange numServers).map fun i => listingOf i (shownText sha256 (shards i))).flatten

/-- At a `RETRIEVE`, the texts fit a record. -/
def Roomy (state : RouterState Shards) (event : Event) : Prop :=
  ∀ m, message aes state.session event = some m → cstr m = ascii "RETRIEVE" →
    (shownTexts sha256 state.servers).length ≤ 2048

/-- What the router gets for a request, if it fits. -/
def receivedText (shard : Shard) (request : Bytes) : Bytes :=
  if shard.serving = true ∧ request ≠ [] then replyTo sha256 shard request else noReply

/-- A shard with nothing in its stream. -/
structure Quiet (sessionKey : SessionKey) (shard : Shard) : Prop where
  sessionKey : shard.sessionKey = sessionKey
  outgoing : shard.outgoing = []
  reachable : Reachable sha256 shard.blockchain

theorem nul_not_mem_shownText (shard : Shard) : (0 : UInt8) ∉ shownText sha256 shard := by
  unfold shownText
  split
  · split
    · exact nul_not_mem_contents _
    · decide
  · decide

section Quiet

variable {sha256} {sessionKey : SessionKey} {shard : Shard}

/-- A reply is a non-empty string. -/
theorem Quiet.replyTo_string (h : Quiet sha256 sessionKey shard) {request : Bytes}
    (hrequest : cstr request = request) :
    replyTo sha256 shard request ≠ [] ∧ (0 : UInt8) ∉ replyTo sha256 shard request := by
  by_cases hretrieve : request = ascii "RETRIEVE"
  · rw [hretrieve, replyTo_retrieve]
    exact retrieveData_response_string sha256 h.reachable
  · rw [replyTo_store shard (by rwa [hrequest])]
    decide

/-- What is received for `RETRIEVE` fits if and only if the text does, and is then
the text. -/
theorem Quiet.receivedText_retrieve (h : Quiet sha256 sessionKey shard) :
    ((receivedText sha256 shard (ascii "RETRIEVE")).length ≤ 2048 ↔
      (shownText sha256 shard).length ≤ 2048) ∧
    ((shownText sha256 shard).length ≤ 2048 →
      receivedText sha256 shard (ascii "RETRIEVE") = shownText sha256 shard) := by
  have hword : ascii "RETRIEVE" ≠ [] := by decide
  unfold receivedText shownText
  rw [replyTo_retrieve]
  cases hserving : shard.serving with
  | false => exact ⟨Iff.rfl, fun _ => rfl⟩
  | true =>
      rw [if_pos ⟨rfl, hword⟩, if_pos rfl]
      cases hvalid : (validateBlockchain sha256 shard.blockchain).valid with
      | false =>
          rw [retrieveData_response_of_invalid sha256 hvalid]
          exact ⟨Iff.rfl, fun _ => rfl⟩
      | true =>
          rw [retrieveData_response_of_valid sha256 h.reachable hvalid, List.length_take,
            if_pos rfl]
          simp only [maxResponseLength, Server.maxLine]
          refine ⟨by omega, ?_⟩
          intro hshort
          exact List.take_of_length_le (by omega)

/-- Everything but `RETRIEVE` is answered shortly. -/
theorem receivedText_store (shard : Shard) {request : Bytes}
    (h : cstr request ≠ ascii "RETRIEVE") :
    (receivedText sha256 shard request).length ≤ 2048 := by
  unfold receivedText
  split
  · rw [replyTo_store shard h]
    decide
  · decide

/-- A shard that answers a request is quiet again once the reply is taken. -/
theorem Quiet.afterRequest (h : Quiet sha256 sessionKey shard) (request : Bytes) :
    Quiet sha256 sessionKey (Router.afterRequest sha256 shard request) where
  sessionKey := h.sessionKey
  outgoing := h.outgoing
  reachable := (handleRequest_grows sha256 shard.mallocs.head request h.reachable).1

theorem Quiet.stopped (h : Quiet sha256 sessionKey shard) (serving : Bool) :
    Quiet sha256 sessionKey { shard with serving := serving } :=
  ⟨h.sessionKey, h.outgoing, h.reachable⟩

end Quiet

/-! ## One command -/

/-- A shard that has left its loop, or is sent an empty plaintext, does not answer. -/
theorem serve_silent {shard : Shard} {request : Bytes} (hlength : request.length ≤ 2048)
    (h : ¬ (shard.serving = true ∧ request ≠ [])) (nonce : Nonce) :
    ∃ serving, shard.serve sha256 aes (recv expectedPayloadLen
      (some (sendEncyptedData aes shard.sessionKey nonce request))) =
        { shard with serving := serving } := by
  rw [recv_send aes hlength]
  rcases serve_cases sha256 aes shard
    (some (sendEncyptedData aes shard.sessionKey nonce request)) with hend | hanswered
  · exact hend
  · obtain ⟨request', hserving, hne, hreceive, _⟩ := hanswered
    rw [receive_send] at hreceive
    obtain rfl := Option.some.inj hreceive
    exact absurd ⟨hserving, hne⟩ h

variable {sha256}

/-- The exchange with a shard that does not answer. -/
theorem Quiet.exchange_silent {shards : Shards} {i : Fin numServers} {key : SessionKey}
    (h : Quiet sha256 key (shards i)) {request : Bytes} (hlength : request.length ≤ 2048)
    (hsilent : ¬ ((shards i).serving = true ∧ request ≠ [])) (nonce : Nonce) :
    repliesTo sha256 aes (shards i) (sendEncyptedData aes key nonce request) = [] ∧
      ∃ serving, shardExchange sha256 aes i (sendEncyptedData aes key nonce request) shards =
        (some [], Function.update shards i { shards i with serving := serving }) := by
  obtain rfl := h.sessionKey
  obtain ⟨serving, hserved⟩ := serve_silent sha256 aes hlength hsilent nonce
  refine ⟨?_, serving, ?_⟩
  · simp only [repliesTo, hserved, List.drop_length]
  · simp only [shardExchange, hserved, receiveFrom, h.outgoing]

/-- The exchange with a shard that answers. -/
theorem Quiet.repliesTo_eq {shard : Shard} {key : SessionKey} (h : Quiet sha256 key shard)
    {request : Bytes} (hlength : request.length ≤ 2048) (hserving : shard.serving = true)
    (hrequest : request ≠ []) (nonce : Nonce) :
    repliesTo sha256 aes shard (sendEncyptedData aes key nonce request) =
      [sendEncyptedData aes key shard.nonces.head (replyTo sha256 shard request)] := by
  have hserved := Shard.serve_send sha256 aes shard hserving nonce hrequest
  rw [h.sessionKey] at hserved
  simp only [repliesTo, recv_send aes hlength, hserved, List.drop_left, replyTo]

theorem quiet_update {keys : Fin numServers → SessionKey} {shards : Shards}
    (h : ∀ j, Quiet sha256 (keys j) (shards j)) {i : Fin numServers} {shard : Shard}
    (hshard : Quiet sha256 (keys i) shard) :
    ∀ j, Quiet sha256 (keys j) (Function.update shards i shard j) := by
  intro j
  by_cases hj : j = i
  · subst hj
    rwa [Function.update_self]
  · rw [Function.update_of_ne hj]
    exact h j

/-- **One command** fits if and only if what comes back does; it then comes back
whole, and the shards stay quiet. -/
theorem Quiet.command {keys : Fin numServers → SessionKey} {state : RouterState Observed}
    (h : ∀ j, Quiet sha256 (keys j) (state.servers.shards j)) (i : Fin numServers) (m : Bytes)
    (hlength : (cstr m).length ≤ 2048) :
    let sent := sendCommandToServer aes keys (observedExchange sha256 aes) i m state
    let received := receivedText sha256 (state.servers.shards i) (cstr m)
    ∃ exchanged, sent.2.servers.exchanges = state.servers.exchanges ++ [exchanged] ∧
      (exchanged.Fits aes ↔ received.length ≤ 2048) ∧
      (received.length ≤ 2048 → sent.1 = received ∧
        (∀ j, Quiet sha256 (keys j) (sent.2.servers.shards j)) ∧
        ∀ j, j ≠ i → sent.2.servers.shards j = state.servers.shards j) := by
  intro sent received
  let payload := sendEncyptedData aes (keys i) state.nonces.head (cstr m)
  have hpayload : FitsReceiver aes payload := (fitsReceiver_send aes _ _ _).mpr hlength
  have hothers : ∀ j, j ≠ i → sent.2.servers.shards j = state.servers.shards j :=
    fun j hj => Function.update_of_ne hj _ _
  refine ⟨⟨i, payload, repliesTo sha256 aes (state.servers.shards i) payload⟩, rfl, ?_⟩
  by_cases hanswers : (state.servers.shards i).serving = true ∧ cstr m ≠ []
  · obtain ⟨hserving, hrequest⟩ := hanswers
    have hreplies := (h i).repliesTo_eq aes hlength hserving hrequest state.nonces.head
    have hreceived : received = replyTo sha256 (state.servers.shards i) (cstr m) :=
      if_pos ⟨hserving, hrequest⟩
    rw [hreceived]
    refine ⟨?_, ?_⟩
    · simp only [Exchanged.Fits, payload, hreplies, List.forall_mem_singleton,
        fitsReceiver_send]
      exact and_iff_right hlength
    · intro hfits
      have hexchange := shardExchange_send sha256 aes hserving (h i).outgoing
        state.nonces.head hrequest hlength hfits
      rw [(h i).sessionKey] at hexchange
      obtain ⟨hne, hnul⟩ := (h i).replyTo_string (cstr_cstr m)
      refine ⟨?_, ?_, hothers⟩
      · simp only [sent, sendCommandToServer, observedExchange, hexchange, receive_send]
        obtain ⟨c, rest, hcons⟩ := List.exists_cons_of_ne_nil hne
        rw [hcons] at hnul ⊢
        simp only [cstr_append_singleton_nul, cstr_eq_self hnul]
      · have hshards : sent.2.servers.shards = _ := congrArg Prod.snd hexchange
        rw [hshards]
        exact quiet_update h ((h i).afterRequest (cstr m))
  · obtain ⟨hreplies, serving, hexchange⟩ :=
      (h i).exchange_silent aes hlength hanswers state.nonces.head
    have hreceived : received = noReply := if_neg hanswers
    have hshort : noReply.length ≤ 2048 := by decide
    rw [hreceived]
    refine ⟨?_, fun _ => ⟨?_, ?_, hothers⟩⟩
    · simp only [Exchanged.Fits, payload, hreplies, List.not_mem_nil, false_implies,
        implies_true, and_true]
      exact iff_of_true hpayload hshort
    · simp only [sent, sendCommandToServer, observedExchange, hexchange]
      rfl
    · have hshards : sent.2.servers.shards = _ := congrArg Prod.snd hexchange
      rw [hshards]
      exact quiet_update h ((h i).stopped serving)

/-! ## One step -/

/-- An answer fits if its text does. -/
theorem recordsFit_answer (key : SessionKey) (request response : Bytes)
    (state : RouterState Observed) :
    RecordsFit aes (answer aes key request response state) ↔
      RecordsFit aes state ∧ response.length ≤ 2048 := by
  unfold RecordsFit answer
  simp only [List.forall_mem_append, List.forall_mem_singleton, fitsReceiver_send, and_assoc]

variable {keys : Fin numServers → SessionKey} {state : RouterState Observed}

/-- In the loop over the servers everything fits if the texts do, which are then
what is collected. -/
theorem Quiet.retrieveLoop (h : ∀ j, Quiet sha256 (keys j) (state.servers.shards j)) {m : Bytes}
    (hm : cstr m = ascii "RETRIEVE") {servers : List (Fin numServers)} (hnodup : servers.Nodup)
    (formatted : Bytes) :
    let done := Router.retrieveLoop aes keys (observedExchange sha256 aes) m servers formatted state
    let text := fun i => shownText sha256 (state.servers.shards i)
    ((∀ e ∈ done.2.servers.exchanges, e.Fits aes) ↔
      (∀ e ∈ state.servers.exchanges, e.Fits aes) ∧ ∀ i ∈ servers, (text i).length ≤ 2048) ∧
    ((∀ i ∈ servers, (text i).length ≤ 2048) →
      done.1 = formatAll text servers formatted ∧
        ∀ j, Quiet sha256 (keys j) (done.2.servers.shards j)) := by
  induction servers generalizing formatted state with
  | nil => simpa [Router.retrieveLoop, formatAll] using h
  | cons i rest ih =>
      intro done text
      obtain ⟨hnot, hnodup'⟩ := List.nodup_cons.mp hnodup
      let sent := sendCommandToServer aes keys (observedExchange sha256 aes) i m state
      let collected := strncat (roomLeft formattedResponseSize formatted) formatted
        (formattedServerResponse i sent.1)
      obtain ⟨exchanged, hlog, hfits, hnext⟩ :=
        Quiet.command aes h i m (by rw [hm]; decide)
      rw [hm] at hfits hnext
      obtain ⟨hiff, htext⟩ := (h i).receivedText_retrieve
      rw [hiff] at hfits hnext
      by_cases hshort : (text i).length ≤ 2048
      · obtain ⟨hreceived, hquiet, hothers⟩ := hnext hshort
        have hsame : ∀ j ∈ rest, shownText sha256 (sent.2.servers.shards j) = text j := by
          intro j hj
          rw [hothers j fun heq => hnot (heq ▸ hj)]
        obtain ⟨hall, hcollected⟩ := ih hquiet hnodup' collected
        have hrest : (∀ j ∈ rest, (shownText sha256 (sent.2.servers.shards j)).length ≤ 2048) ↔
            ∀ j ∈ rest, (text j).length ≤ 2048 :=
          forall₂_congr fun j hj => by rw [hsame j hj]
        refine ⟨hall.trans ?_, ?_⟩
        · rw [hlog, List.forall_mem_append, List.forall_mem_singleton, hfits, hrest,
            List.forall_mem_cons, and_assoc]
        · intro hshorts
          obtain ⟨hdone, hquiet'⟩ :=
            hcollected (hrest.mpr fun j hj => hshorts j (List.mem_cons_of_mem _ hj))
          have hsent : sent.1 = text i := hreceived.trans (htext hshort)
          refine ⟨hdone.trans ?_, hquiet'⟩
          rw [formatAll_congr hsame]
          simp only [collected, hsent]
          rfl
      · have hunfit : exchanged ∈ done.2.servers.exchanges := by
          have hgrows := retrieveLoop_exchanges sha256 aes keys m rest collected sent.2
          rw [hlog] at hgrows
          exact hgrows.subset (List.mem_append_right _ (List.mem_singleton_self _))
        refine ⟨iff_of_false ?_ ?_, ?_⟩
        · intro hfit
          exact hshort (hfits.mp (hfit exchanged hunfit))
        · rintro ⟨_, hall⟩
          exact hshort (hall i List.mem_cons_self)
        · intro hall
          exact absurd (hall i List.mem_cons_self) hshort

/-- A retrieval fits if the texts fit a record together. -/
theorem Quiet.handle_retrieve (h : ∀ j, Quiet sha256 (keys j) (state.servers.shards j))
    (hfit : RecordsFit aes state) (key : SessionKey) {m : Bytes} (hm : cstr m = ascii "RETRIEVE") :
    let after := handleRequest aes keys (observedExchange sha256 aes) key m state
    (RecordsFit aes after ↔ (shownTexts sha256 state.servers.shards).length ≤ 2048) ∧
      (RecordsFit aes after → ∀ j, Quiet sha256 (keys j) (after.servers.shards j)) := by
  let text := fun i => shownText sha256 (state.servers.shards i)
  let done := Router.retrieveLoop aes keys (observedExchange sha256 aes) (m ++ [0])
    (List.finRange numServers) [] state
  have hnul : ∀ i, (0 : UInt8) ∉ text i := fun i => nul_not_mem_shownText sha256 _
  have hterminated : cstr (m ++ [0]) = ascii "RETRIEVE" := by
    rw [cstr_append_singleton_nul, hm]
  obtain ⟨hall, hcollected⟩ :
      ((∀ e ∈ done.2.servers.exchanges, e.Fits aes) ↔
        (∀ e ∈ state.servers.exchanges, e.Fits aes) ∧
          ∀ i ∈ List.finRange numServers, (text i).length ≤ 2048) ∧
      ((∀ i ∈ List.finRange numServers, (text i).length ≤ 2048) →
        done.1 = formatAll text (List.finRange numServers) [] ∧
          ∀ j, Quiet sha256 (keys j) (done.2.servers.shards j)) :=
    Quiet.retrieveLoop aes h hterminated (List.nodup_finRange numServers) []
  have hanswers : done.2.answers = state.answers :=
    (retrieveLoop_frame aes keys _ _ _ _ _).2.2
  intro after
  have hafter : after = answer aes key (m ++ [0]) done.1 done.2 :=
    handleRequest_retrieve aes keys _ key hm state
  rw [hafter, recordsFit_answer]
  have hshort : RecordsFit aes done.2 → ∀ i ∈ List.finRange numServers, (text i).length ≤ 2048 :=
    fun hdone => (hall.mp hdone.1).2
  refine ⟨⟨?_, ?_⟩, ?_⟩
  · rintro ⟨hdone, hlength⟩
    rw [(hcollected (hshort hdone)).1, formatAll_fits_iff hnul] at hlength
    exact hlength
  · intro hlength
    have htexts : ∀ i ∈ List.finRange numServers, (text i).length ≤ 2048 := by
      intro i _
      have hle := le_flatten_listingOf_length text i
      change _ ≤ (shownTexts sha256 state.servers.shards).length at hle
      omega
    refine ⟨⟨hall.mpr ⟨hfit.1, htexts⟩, ?_⟩, ?_⟩
    · rw [hanswers]
      exact hfit.2
    · rw [(hcollected htexts).1, formatAll_fits_iff hnul]
      exact hlength
  · rintro ⟨hdone, _⟩
    exact (hcollected (hshort hdone)).2

/-- A store fits. -/
theorem Quiet.handle_store (h : ∀ j, Quiet sha256 (keys j) (state.servers.shards j))
    (hfit : RecordsFit aes state) (key : SessionKey) {m : Bytes} (hstore : IsStore m)
    (hlength : m.length ≤ 2048) :
    let after := handleRequest aes keys (observedExchange sha256 aes) key m state
    RecordsFit aes after ∧ ∀ j, Quiet sha256 (keys j) (after.servers.shards j) := by
  have hterminated : cstr (m ++ [0]) = cstr m := cstr_append_singleton_nul m
  have hrequest : (cstr (m ++ [0])).length ≤ 2048 := by
    rw [hterminated]
    exact Nat.le_trans (cstr_length_le m) hlength
  have hshort : (receivedText sha256 (state.servers.shards state.currentServer)
      (cstr (m ++ [0]))).length ≤ 2048 := by
    refine receivedText_store _ ?_
    rw [hterminated, cstr_cstr]
    exact hstore.2
  let advanced : RouterState Observed := { state with currentServer := state.currentServer + 1 }
  have hadvanced : ∀ j, Quiet sha256 (keys j) (advanced.servers.shards j) := h
  obtain ⟨exchanged, hlog, hfits, hnext⟩ :=
    Quiet.command aes hadvanced state.currentServer (m ++ [0]) hrequest
  obtain ⟨hreceived, hquiet, _⟩ := hnext hshort
  intro after
  have hafter : after = _ := handleRequest_store aes keys (observedExchange sha256 aes) key hstore state
  rw [hafter, recordsFit_answer]
  refine ⟨⟨⟨?_, hfit.2⟩, ?_⟩, hquiet⟩
  · rw [hlog, List.forall_mem_append, List.forall_mem_singleton]
    exact ⟨hfit.1, hfits.mpr hshort⟩
  · rw [hreceived]
    exact hshort

/-- **One step**: from a state in which all was quiet and fitted, everything still
fits, and is quiet, exactly if the texts fit at a `RETRIEVE`. -/
theorem Quiet.step (h : ∀ j, Quiet sha256 (keys j) (state.servers.shards j))
    (hfit : RecordsFit aes state) (event : Event) :
    let after := Router.step aes keys (observedExchange sha256 aes) state event
    (RecordsFit aes after ↔ Roomy sha256 aes (state.map Observed.shards) event) ∧
      (RecordsFit aes after → ∀ j, Quiet sha256 (keys j) (after.servers.shards j)) := by
  intro after
  cases hmessage : message aes state.session event with
  | none =>
      have hafter : after = _ := step_of_no_message aes keys (observedExchange sha256 aes) hmessage
      rw [hafter]
      refine ⟨iff_of_true hfit ?_, fun _ => h⟩
      intro m hm
      exact absurd (hmessage.symm.trans hm) (by simp)
  | some m =>
      obtain ⟨key, _, hafter⟩ := step_of_message aes keys (observedExchange sha256 aes) hmessage
      change after = _ at hafter
      rw [hafter]
      have honly : ∀ m', message aes (state.map Observed.shards).session event = some m' →
          m' = m := fun m' hm' => Option.some.inj (hm'.symm.trans hmessage)
      by_cases hexit : cstr m = ascii "EXIT"
      · rw [handleRequest_exit aes keys _ key hexit]
        refine ⟨iff_of_true hfit ?_, fun _ => h⟩
        intro m' hm' hretrieve
        rw [honly m' hm', hexit] at hretrieve
        exact absurd hretrieve (by decide)
      · by_cases hretrieve : cstr m = ascii "RETRIEVE"
        · obtain ⟨hiff, hquiet⟩ := Quiet.handle_retrieve aes h hfit key hretrieve
          refine ⟨hiff.trans ⟨fun hlength _ _ _ => hlength, fun hroomy => ?_⟩, hquiet⟩
          exact hroomy m hmessage hretrieve
        · obtain ⟨hfits, hquiet⟩ := Quiet.handle_store aes h hfit key ⟨hexit, hretrieve⟩
            (message_length aes hmessage).2
          refine ⟨iff_of_true hfits ?_, fun _ => hquiet⟩
          intro m' hm' hretrieve'
          rw [honly m' hm'] at hretrieve'
          exact absurd hretrieve' hretrieve

/-! ## Whole runs -/

section Run

variable (sha256) (keys) (nonces : Stream' Nonce) (serverNonces : Fin numServers → Stream' Nonce)
  (mallocs : Fin numServers → Stream' (Option RawBlock))

/-- All that client, router and shards send in the run fits its receiver. -/
def MessagesFit (events : List Event) : Prop :=
  let at_ := observedSystem sha256 aes keys nonces serverNonces mallocs
  AtEveryStep (fun before event => RecordsFit aes (at_ (before ++ [event]))) events ∧
    ∀ sessionKey clientNonces iterations payload,
      .send payload ∈ Client.commandLoop aes sessionKey clientNonces iterations →
        FitsReceiver aes payload

/-- At every `RETRIEVE` of the run, the texts fit a record. -/
def RoomyRun (events : List Event) : Prop :=
  AtEveryStep (fun before event => Roomy sha256 aes
    (system sha256 aes keys nonces serverNonces mallocs before) event) events

/-- What the client sends fits. -/
theorem commandLoop_fits (sessionKey : SessionKey) (clientNonces : Stream' Nonce)
    (iterations : List Client.Iteration) (payload : Bytes)
    (h : .send payload ∈ Client.commandLoop aes sessionKey clientNonces iterations) :
    FitsReceiver aes payload := by
  obtain ⟨messages, hlength, hpayloads⟩ :=
    Client.payloads_commandLoop aes sessionKey clientNonces iterations
  rw [← Client.mem_payloads, hpayloads] at h
  obtain ⟨n, hn, rfl⟩ := List.mem_iff_getElem.mp h
  rw [List.getElem_zipWith, fitsReceiver_send]
  exact Nat.le_trans (hlength _ (List.getElem_mem _)) (by decide)

/-- A run in which everything fits leaves the shards quiet. -/
theorem quiet_of_recordsFit {events : List Event}
    (h : AtEveryStep (fun before event => RecordsFit aes
      (observedSystem sha256 aes keys nonces serverNonces mallocs (before ++ [event]))) events) :
    RecordsFit aes (observedSystem sha256 aes keys nonces serverNonces mallocs events) ∧
      ∀ j, Quiet sha256 (keys j)
        ((observedSystem sha256 aes keys nonces serverNonces mallocs events).servers.shards j) := by
  refine h.induction (fun events =>
    RecordsFit aes (observedSystem sha256 aes keys nonces serverNonces mallocs events) ∧
      ∀ j, Quiet sha256 (keys j)
        ((observedSystem sha256 aes keys nonces serverNonces mallocs events).servers.shards j))
    ?_ ?_
  · exact ⟨⟨by simp [observedSystem, observedStart, run, RouterState.map],
      by simp [observedSystem, observedStart, run, RouterState.map, start]⟩,
      fun j => ⟨rfl, rfl, [], rfl⟩⟩
  · rintro before event ⟨hfit, hquiet⟩ hafter
    rw [observedSystem_concat] at hafter ⊢
    exact ⟨hafter, (Quiet.step aes hquiet hfit event).2 hafter⟩

/-- Between router, shards and clients everything fits exactly in runs with room
for the texts. -/
theorem recordsFit_iff_roomyRun (events : List Event) :
    AtEveryStep (fun before event => RecordsFit aes
      (observedSystem sha256 aes keys nonces serverNonces mallocs (before ++ [event]))) events ↔
      RoomyRun sha256 aes keys nonces serverNonces mallocs events := by
  refine atEveryStep_congr ?_ events
  intro before event hbefore _
  obtain ⟨hfit, hquiet⟩ := quiet_of_recordsFit sha256 aes keys nonces serverNonces mallocs hbefore
  rw [observedSystem_concat, ← observedSystem_map]
  exact (Quiet.step aes hquiet hfit event).1

/-- **Sizes.**  Everything that client, router and shards send in a run fits its
receiver if and only if at every `RETRIEVE` the texts of the three shards have,
under their headings, at most 2048 bytes together. -/
theorem messagesFit_iff (events : List Event) :
    MessagesFit sha256 aes keys nonces serverNonces mallocs events ↔
      RoomyRun sha256 aes keys nonces serverNonces mallocs events := by
  have hrecords := recordsFit_iff_roomyRun sha256 aes keys nonces serverNonces mallocs events
  constructor
  · intro h
    exact hrecords.mp h.1
  · intro h
    exact ⟨hrecords.mpr h, commandLoop_fits aes⟩

end Run

/-- The text of a shard with two stores of 255 bytes. -/
theorem shownText_of_longPayloads {shard : Shard} (hserving : shard.serving = true)
    (hchain : shard.blockchain = chainOf Sha256.sha256 [longPayload, longPayload]) :
    700 ≤ (shownText Sha256.sha256 shard).length := by
  have hvalid : (validateBlockchain Sha256.sha256
      (chainOf Sha256.sha256 [longPayload, longPayload])).valid = true :=
    (chainOf_valid_iff Sha256.sha256 _).mpr
      (linksAgree_of_length_le_two Sha256.sha256 (Nat.le_refl 2))
  unfold shownText
  rw [hserving, hchain, hvalid, if_pos rfl, if_pos rfl]
  exact longStores_contents

/-- Three such texts do not fit a record. -/
theorem shownTexts_long {shards : Shards}
    (h : ∀ i, 700 ≤ (shownText Sha256.sha256 (shards i)).length) :
    2048 < (shownTexts Sha256.sha256 shards).length := by
  have hzero := h 0
  have hone := h 1
  have htwo := h 2
  unfold shownTexts
  rw [flatten_listingOf_length]
  omega

/-- After six stores of 255 bytes, a client retrieves. -/
theorem long_answer_does_not_fit :
    ¬ MessagesFit Sha256.sha256 clearAes (fun _ => exampleKey) (Stream'.const exampleNonce)
      (fun _ => Stream'.const exampleNonce) (fun _ => Stream'.const (some zeroBlock))
      (longStores ++ [exampleMessage (ascii "RETRIEVE")]) := by
  rintro ⟨hfits, _⟩
  have hroomy : Roomy Sha256.sha256 clearAes (exampleSystem longStores)
      (exampleMessage (ascii "RETRIEVE")) :=
    (recordsFit_iff_roomyRun _ _ _ _ _ _ _).mp hfits longStores _ [] rfl
  have hmessage : message clearAes (exampleSystem longStores).session
      (exampleMessage (ascii "RETRIEVE")) = some (ascii "RETRIEVE") := by
    rw [system_session]
    decide +kernel
  have hlong := shownTexts_long fun i =>
    shownText_of_longPayloads (longStores_lockstep.inService i) (longStores_blockchain i)
  exact absurd (hroomy _ hmessage (by decide)) (Nat.not_le_of_lt hlong)

end ShardedLedger.Router
