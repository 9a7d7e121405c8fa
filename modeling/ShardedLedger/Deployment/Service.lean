import ShardedLedger.Deployment.Script
import ShardedLedger.Deployment.Progress
set_option autoImplicit false

/-!
# Deployment: the ledger that the clients talk to

The ledger as its users see it is a list of strings.  A store adds to it and is
answered `DATA_STORED`; a retrieval is answered with `report`, the texts of three
chains to which the strings are dealt in turn (`serviceReplies`).

The client of this program stores short strings.  So every reply fits a record,
and a request to the router in lockstep gets the reply of the ledger
(`step_request`).
-/

namespace ShardedLedger.Deployment

open CString Channel Router Server Sha256 RoundRobin

variable (sha256 : Bytes → Digest) (aes : AesGcm)

/-! ## The ledger -/

/-- The text of a shard when the strings have been stored. -/
def shardText (S : List Bytes) (i : Fin numServers) : Bytes :=
  (retrieveData sha256 (chainOf sha256 (deal numServers i.val S))).response

/-- What a retrieval is answered when the strings have been stored. -/
def report (S : List Bytes) : Bytes :=
  formatAll (shardText sha256 S) (List.finRange numServers) []

/-- The replies to a client's messages when the strings have been stored. -/
def serviceReplies : List Bytes → List Bytes → List Bytes
  | _, [] => []
  | S, m :: rest =>
      if cstr m = ascii "EXIT" then []
      else if cstr m = ascii "RETRIEVE" then report sha256 S :: serviceReplies S rest
      else ascii "DATA_STORED" :: serviceReplies (S ++ [cstr m]) rest

/-! ## The replies fit -/

theorem entry_length_le_of_data {block : Block} (hdata : block.data.str.length ≤ 21)
    (hhash : block.hash.str.length = 64) : (entry block).length ≤ 180 := by
  have hprevious := block.previousHash.str_length_lt
  rw [entry_length]
  simp only [hashSize] at hprevious
  omega

/-- The text of up to two blocks with short data. -/
theorem render_length_le_of_short {chain : List Block}
    (h : ∀ b ∈ chain, (entry b).length ≤ 180) : (render chain).length ≤ 180 * chain.length := by
  induction chain with
  | nil => exact Nat.le_refl _
  | cons block rest ih =>
      rw [List.forall_mem_cons] at h
      have hrest := ih h.2
      rw [render_cons, List.length_append, List.length_cons]
      omega

/-- The text of a shard that holds short strings is short: from the third string
on its chain is not shown. -/
theorem response_length_le_of_short {sessionKey : SessionKey} {payloads : List Bytes}
    {shard : Shard} (h : InStep sha256 sessionKey payloads shard)
    (hfree : CollisionFreeOn sha256 shard.hashed)
    (hshort : ∀ p ∈ payloads, cstr p = p ∧ p.length ≤ 21) :
    (retrieveData sha256 shard.blockchain).response.length ≤ 360 := by
  have hstored : ∀ p ∈ payloads, (storedData p).length ≤ 21 := fun p hp =>
    Nat.le_trans (List.length_take_le' _ _) (Nat.le_trans (cstr_length_le p) (hshort p hp).2)
  rw [h.blockchain]
  have hreach := chainOf_reachable sha256 payloads
  cases hvalid : (validateBlockchain sha256 (chainOf sha256 payloads)).valid with
  | false =>
      rw [retrieveData_response_of_invalid sha256 hvalid]
      decide
  | true =>
      have hfew : payloads.length ≤ 2 := by
        refine Nat.le_of_not_lt fun hthree => ?_
        have hinvalid := chainOf_invalid sha256 hthree h.hashed hfree fun p hp hsuffix => by
          have hlength := hsuffix.length_le
          rw [hexDigest_length] at hlength
          have := hstored p hp
          omega
        rw [hvalid] at hinvalid
        cases hinvalid
      have hentries : ∀ b ∈ chainOf sha256 payloads, (entry b).length ≤ 180 := by
        intro b hb
        have hmem := List.mem_map_of_mem (f := fun b => b.data.str) hb
        rw [chainOf_data] at hmem
        obtain ⟨p, hp, heq⟩ := List.mem_map.mp hmem
        refine entry_length_le_of_data ?_ (hash_length_of_mem_chainOf sha256 hb)
        rw [← heq]
        exact hstored p hp
      have hrender := render_length_le_of_short hentries
      rw [chainOf_length] at hrender
      rw [retrieveData_response_of_valid sha256 hreach hvalid, List.length_take]
      refine Nat.le_trans (Nat.min_le_right _ _) ?_
      cases hchain : chainOf sha256 payloads with
      | nil => decide
      | cons block rest =>
          rw [← hchain, contents_of_ne_nil (hchain ▸ List.cons_ne_nil _ _)]
          omega

/-! ## One request -/

section Request

variable {sha256 aes} {serverSessionKeys : Fin numServers → SessionKey} {allocates : Prop}
  {S : List Bytes} {state : RouterState Shards}

/-- In lockstep every shard has a short text. -/
theorem text_of_lockstep (h : Lockstep sha256 aes serverSessionKeys allocates S state)
    (hallocates : allocates) (hshort : ∀ s ∈ S, cstr s = s ∧ s.length ≤ 21)
    (hfree : CollisionFreeOn sha256 (hashedStrings state.servers)) (i : Fin numServers) :
    (retrieveData sha256 (state.servers i).blockchain).response = shardText sha256 S i ∧
      (shardText sha256 S i).length ≤ 360 ∧ (0 : UInt8) ∉ shardText sha256 S i := by
  obtain ⟨payloads, hstep, -, hall⟩ := h.shards i
  obtain ⟨rfl, -⟩ := hall hallocates
  have htext : (retrieveData sha256 (state.servers i).blockchain).response =
      shardText sha256 S i := by rw [hstep.blockchain, shardText]
  refine ⟨htext, ?_, ?_⟩
  · rw [← htext]
    exact response_length_le_of_short sha256 hstep (hfree.mono (hashed_subset _ i))
      fun p hp => hshort p (mem_of_mem_deal hp)
  · rw [← htext]
    exact (retrieveData_response_string sha256 (h.reachable i)).2

theorem report_length_le (hlength : ∀ i, (shardText sha256 S i).length ≤ 360)
    (hnul : ∀ i, (0 : UInt8) ∉ shardText sha256 S i) : (report sha256 S).length ≤ 2048 := by
  rw [report, formatAll_fits_iff hnul, flatten_listingOf_length]
  have h₀ := hlength 0
  have h₁ := hlength 1
  have h₂ := hlength 2
  omega

/-- **A request that waits for a reply** gets the reply of the ledger, in a
record that fits the client's buffer. -/
theorem step_request (h : Lockstep sha256 aes serverSessionKeys allocates S state)
    (hallocates : allocates) (hshort : ∀ s ∈ S, cstr s = s ∧ s.length ≤ 21)
    (hfree : CollisionFreeOn sha256 (hashedStrings state.servers)) {key : SessionKey}
    (hsession : state.session = some key) {line : Line} {m : Bytes}
    (hrequest : line.request = some m) (nonce : Nonce) :
    let after := Router.step aes serverSessionKeys (shardExchange sha256 aes) state
      (.deliver (some (sendEncyptedData aes key nonce m)))
    ∃ data nonce' request, after.session = some key ∧
      after.answers = state.answers ++ [⟨key, request, sendEncyptedData aes key nonce' data⟩] ∧
      data.length ≤ 2048 ∧
      (∀ rest, serviceReplies sha256 S (m :: rest) =
        data :: serviceReplies sha256 (S ++ ([m].filter fun m => IsStore m).map cstr) rest) ∧
      Lockstep sha256 aes serverSessionKeys allocates
        (S ++ ([m].filter fun m => IsStore m).map cstr) after := by
  obtain ⟨hne, hlength⟩ := Line.request_length hrequest
  have hmessage := message_send aes key hne hlength nonce
  rw [← hsession] at hmessage
  obtain ⟨key', hkey', hstep⟩ :=
    step_of_message aes serverSessionKeys (shardExchange sha256 aes) hmessage
  obtain rfl : key = key' := Option.some.inj (hsession.symm.trans hkey')
  intro after
  have hafter : after = _ := hstep
  have htexts := text_of_lockstep h hallocates hshort hfree
  have hfits : ∀ i, Fits sha256 (state.servers i).blockchain := fun i => by
    rw [Fits, (htexts i).1]
    exact Nat.le_trans (htexts i).2.1 (by decide)
  have hkept : Lockstep sha256 aes serverSessionKeys allocates
      (S ++ ([m].filter fun m => IsStore m).map cstr) after := by
    have hlockstep := h.step (.deliver (some (sendEncyptedData aes key nonce m)))
      (fun _ _ _ => hfits) (fun m' hm' => by
        rw [hmessage] at hm'
        cases hm'
        exact Line.cstr_request_ne_nil hrequest)
    rwa [hmessage] at hlockstep
  rcases Line.request_cases hrequest with rfl | ⟨rand, rfl⟩
  · have hnot : ¬ IsStore retrieveBuffer := fun hstore => hstore.2 cstr_retrieveBuffer
    obtain ⟨-, -, nonce', hanswers⟩ := h.handle_retrieve hfits key cstr_retrieveBuffer
    have hreport : (fun i => (retrieveData sha256 (state.servers i).blockchain).response) =
        shardText sha256 S := funext fun i => (htexts i).1
    rw [hreport] at hanswers
    refine ⟨report sha256 S, nonce', ascii "RETRIEVE", ?_, ?_,
      report_length_le (fun i => (htexts i).2.1) (fun i => (htexts i).2.2), fun rest => ?_, hkept⟩
    · rw [hafter, handleRequest_retrieve aes serverSessionKeys _ key cstr_retrieveBuffer]
      exact (retrieveLoop_frame aes serverSessionKeys (shardExchange sha256 aes) _ state _ _).1.trans
        hsession
    · rw [hafter]
      exact hanswers
    · rw [serviceReplies, cstr_retrieveBuffer, if_neg (by decide), if_pos rfl,
        List.filter_singleton, decide_eq_false hnot, cond_false, List.map_nil, List.append_nil]
  · have hstore := isStore_generateRandomData rand
    have hsent := h.sendCommandToServer_store hstore (Line.cstr_request_ne_nil hrequest) hlength
    refine ⟨ascii "DATA_STORED", state.nonces.tail.head,
      cstr (Client.generateRandomData rand ++ [0]), ?_, ?_, by decide, fun rest => ?_, hkept⟩
    · rw [hafter, handleRequest_store aes serverSessionKeys _ key hstore, hsent]
      exact hsession
    · rw [hafter, handleRequest_store aes serverSessionKeys _ key hstore, hsent]
      rfl
    · rw [serviceReplies, if_neg hstore.1, if_neg hstore.2, List.filter_singleton,
        decide_eq_true hstore, cond_true, List.map_singleton]

end Request

end ShardedLedger.Deployment
