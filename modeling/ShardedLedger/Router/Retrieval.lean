import ShardedLedger.Router.Sharding
set_option autoImplicit false

/-!
# Router: what a client gets for `RETRIEVE`

The texts of the three shards, each under its heading: `listing`.  It reaches
the client whole as long as it fits one record (`retrieve_returns_stored`).
-/

namespace ShardedLedger.Router

open CString Channel Server Sha256 RoundRobin

variable (sha256 : Bytes → Digest) (aes : AesGcm)

/-- The text of one shard under its heading. -/
def listingOf (i : Fin numServers) (text : Bytes) : Bytes :=
  ascii "Server " ++ ascii (Nat.repr (i.val + 1)) ++ ascii ":\n" ++ text ++ ascii "\n"

/-- The texts of all shards. -/
def listing (shards : Shards) : Bytes :=
  ((List.finRange numServers).map fun i => listingOf i (contents (shards i).blockchain)).flatten

theorem listingOf_length (i : Fin numServers) (text : Bytes) :
    (listingOf i text).length = text.length + 11 := by
  have hheading : (ascii "Server " ++ ascii (Nat.repr (i.val + 1)) ++ ascii ":\n").length = 10 := by
    revert i
    decide
  rw [listingOf, List.length_append, List.length_append, hheading]
  change 10 + text.length + 1 = text.length + 11
  omega

theorem nul_not_mem_listingOf (i : Fin numServers) {text : Bytes} (h : (0 : UInt8) ∉ text) :
    (0 : UInt8) ∉ listingOf i text := by
  have hheading : (0 : UInt8) ∉ ascii "Server " ++ ascii (Nat.repr (i.val + 1)) ++ ascii ":\n" := by
    revert i
    decide
  intro hmem
  rcases List.mem_append.mp hmem with hfront | hend
  · rcases List.mem_append.mp hfront with hhead | htext
    · exact hheading hhead
    · exact h htext
  · exact absurd hend (by decide)

theorem formattedServerResponse_eq_take (i : Fin numServers) (text : Bytes) :
    formattedServerResponse i text = (listingOf i text).take 2047 := rfl

/-- The pieces have at most 2047 bytes, and the loop has room for all of them. -/
theorem formatAll_eq_flatten {texts : Fin numServers → Bytes} (hnul : ∀ i, (0 : UInt8) ∉ texts i)
    (servers : List (Fin numServers)) (formatted : Bytes)
    (hroom : formatted.length + 2047 * servers.length < formattedResponseSize) :
    formatAll texts servers formatted =
      formatted ++ (servers.map fun i => formattedServerResponse i (texts i)).flatten := by
  induction servers generalizing formatted with
  | nil => simp [formatAll]
  | cons i rest ih =>
      have hlength : (formattedServerResponse i (texts i)).length ≤ 2047 := by
        rw [formattedServerResponse_eq_take]
        exact List.length_take_le _ _
      have hpiece : (0 : UInt8) ∉ formattedServerResponse i (texts i) :=
        nul_not_mem_take (nul_not_mem_listingOf i (hnul i)) _
      rw [List.length_cons] at hroom
      have hcat : strncat (roomLeft formattedResponseSize formatted) formatted
          (formattedServerResponse i (texts i)) =
            formatted ++ formattedServerResponse i (texts i) := by
        refine strncat_eq_append hpiece ?_ formatted
        rw [roomLeft_eq (by omega) (by decide)]
        omega
      rw [formatAll, hcat, ih, List.map_cons, List.flatten_cons, List.append_assoc]
      rw [List.length_append]
      omega

theorem formatAll_congr {texts texts' : Fin numServers → Bytes} {servers : List (Fin numServers)}
    (h : ∀ i ∈ servers, texts i = texts' i) (formatted : Bytes) :
    formatAll texts servers formatted = formatAll texts' servers formatted := by
  induction servers generalizing formatted with
  | nil => rfl
  | cons i rest ih =>
      rw [formatAll, formatAll, h i List.mem_cons_self]
      exact ih (fun j hj => h j (List.mem_cons_of_mem _ hj)) _

/-- Short texts go through the loop uncut. -/
theorem formatAll_eq {texts : Fin numServers → Bytes} (hnul : ∀ i, (0 : UInt8) ∉ texts i)
    (hshort : ∀ i, (texts i).length ≤ 2036) (servers : List (Fin numServers)) (formatted : Bytes)
    (hroom : formatted.length + 2047 * servers.length < formattedResponseSize) :
    formatAll texts servers formatted =
      formatted ++ (servers.map fun i => listingOf i (texts i)).flatten := by
  have hpieces : ∀ i, formattedServerResponse i (texts i) = listingOf i (texts i) := by
    intro i
    rw [formattedServerResponse_eq_take]
    refine List.take_of_length_le ?_
    have := hshort i
    rw [listingOf_length]
    omega
  rw [formatAll_eq_flatten hnul servers formatted hroom]
  simp only [hpieces]

/-! ## The condition on the chains -/

/-- The chain validates and its text passes the `recv` of the router. -/
structure Showable (chain : List Block) : Prop where
  valid : (validateBlockchain sha256 chain).valid = true
  short : (contents chain).length ≤ 2048

theorem contents_length_mono {front back : List Block} (h : front <+: back) :
    (contents front).length ≤ (contents back).length := by
  obtain ⟨rest, rfl⟩ := h
  cases front with
  | nil =>
      cases rest with
      | nil => exact Nat.le_refl _
      | cons block rest =>
          have hentry := entry_length block
          change 7 ≤ (entry block ++ render rest).length
          rw [List.length_append]
          omega
  | cons block front =>
      change (render (block :: front)).length ≤ (render (block :: front ++ rest)).length
      rw [render, render, List.map_append, List.flatten_append, List.length_append]
      omega

/-- Whatever is shown later was shown before. -/
theorem Showable.front {front back : List Block} (h : Showable sha256 back)
    (hextends : front <+: back) : Showable sha256 front := by
  refine ⟨?_, Nat.le_trans (contents_length_mono hextends) h.short⟩
  obtain ⟨rest, rfl⟩ := hextends
  have hvalid := h.valid
  rw [accepted_iff_sealed] at hvalid ⊢
  rw [List.map_append] at hvalid
  exact HashChain.sealed_of_append _ hvalid

/-- A showable chain is shown in full. -/
theorem Showable.response {chain : List Block} (h : Showable sha256 chain)
    (hreach : Reachable sha256 chain) :
    (retrieveData sha256 chain).response = contents chain := by
  rw [retrieveData_response_of_valid sha256 hreach h.valid]
  exact List.take_of_length_le (Nat.le_trans h.short (by decide))

theorem Showable.fits {chain : List Block} (h : Showable sha256 chain)
    (hreach : Reachable sha256 chain) : Fits sha256 chain := by
  rw [Fits, h.response sha256 hreach]
  exact h.short

section Run

variable (keys : Fin numServers → SessionKey) (nonces : Stream' Nonce)
  (serverNonces : Fin numServers → Stream' Nonce)
  (mallocs : Fin numServers → Stream' (Option RawBlock))

/-- Router and shards stay in lockstep where the chains remain showable. -/
theorem lockstep_of_showable {events : List Event}
    (h : ∀ i, Showable sha256
      ((system sha256 aes keys nonces serverNonces mallocs events).servers i).blockchain)
    (hnul : ∀ m ∈ messages aes none events, cstr m ≠ []) :
    Lockstep sha256 aes keys (∀ i n, ((mallocs i).get n).isSome) (stores aes none events)
      (system sha256 aes keys nonces serverNonces mallocs events) := by
  refine lockstep_run sha256 aes keys (lockstep_start sha256 aes keys nonces serverNonces mallocs)
    (fun events => ∀ i, Showable sha256
      ((system sha256 aes keys nonces serverNonces mallocs events).servers i).blockchain)
    ?_ ?_ events h hnul
  · intro events event hgood i
    exact (hgood i).front sha256
      (system_grows sha256 aes keys nonces serverNonces mallocs events event i).extends_
  · intro events hgood hlockstep i
    exact (hgood i).fits sha256 (hlockstep.reachable i)

theorem flatten_listingOf_length (texts : Fin numServers → Bytes) :
    ((List.finRange numServers).map fun i => listingOf i (texts i)).flatten.length =
      (texts 0).length + (texts 1).length + (texts 2).length + 33 := by
  have hservers : List.finRange numServers = [0, 1, 2] := by decide
  simp only [hservers, List.map_cons, List.map_nil, List.flatten_cons, List.flatten_nil,
    List.length_append, List.length_nil, listingOf_length]
  omega

theorem le_flatten_listingOf_length (texts : Fin numServers → Bytes) (i : Fin numServers) :
    (texts i).length + 33 ≤
      ((List.finRange numServers).map fun i => listingOf i (texts i)).flatten.length := by
  rw [flatten_listingOf_length]
  match i with
  | ⟨0, _⟩ =>
      change (texts 0).length + 33 ≤ _
      omega
  | ⟨1, _⟩ =>
      change (texts 1).length + 33 ≤ _
      omega
  | ⟨2, _⟩ =>
      change (texts 2).length + 33 ≤ _
      omega

/-- The pieces are cut at 2047 bytes each, so the whole fits a record only uncut. -/
theorem formatAll_fits_iff {texts : Fin numServers → Bytes} (hnul : ∀ i, (0 : UInt8) ∉ texts i) :
    (formatAll texts (List.finRange numServers) []).length ≤ 2048 ↔
      ((List.finRange numServers).map fun i => listingOf i (texts i)).flatten.length ≤ 2048 := by
  have hservers : List.finRange numServers = [0, 1, 2] := by decide
  rw [flatten_listingOf_length, formatAll_eq_flatten hnul _ _ (by decide)]
  simp only [hservers, List.map_cons, List.map_nil, List.flatten_cons, List.flatten_nil,
    List.length_append, List.length_nil, formattedServerResponse_eq_take, List.length_take,
    listingOf_length]
  omega

theorem listing_length (shards : Shards) :
    (listing shards).length =
      (contents (shards 0).blockchain).length + (contents (shards 1).blockchain).length +
        (contents (shards 2).blockchain).length + 33 :=
  flatten_listingOf_length fun i => contents (shards i).blockchain

theorem contents_le_listing (shards : Shards) (i : Fin numServers) :
    (contents (shards i).blockchain).length + 33 ≤ (listing shards).length :=
  le_flatten_listingOf_length (fun i => contents (shards i).blockchain) i

/-- The answer to a retrieval in lockstep carries the texts of the shards. -/
theorem answer_to_retrieval {allocates : Prop} {S : List Bytes} {events : List Event}
    (h : Lockstep sha256 aes keys allocates S
      (system sha256 aes keys nonces serverNonces mallocs events))
    (hfits : ∀ i, Fits sha256
      ((system sha256 aes keys nonces serverNonces mallocs events).servers i).blockchain)
    (event : Event) (m : Bytes)
    (hmessage : message aes (system sha256 aes keys nonces serverNonces mallocs events).session
      event = some m)
    (hretrieve : cstr m = ascii "RETRIEVE") :
    let at_ := system sha256 aes keys nonces serverNonces mallocs
    ∃ sessionKey nonce, (at_ events).session = some sessionKey ∧
      (at_ (events ++ [event])).answers = (at_ events).answers ++
        [⟨sessionKey, ascii "RETRIEVE", sendEncyptedData aes sessionKey nonce (formatAll
          (fun i => (retrieveData sha256 ((at_ events).servers i).blockchain).response)
          (List.finRange numServers) [])⟩] := by
  intro at_
  obtain ⟨sessionKey, hsession, hstep⟩ :=
    step_of_message aes keys (shardExchange sha256 aes) hmessage
  obtain ⟨-, -, nonce, hanswers⟩ := h.handle_retrieve hfits sessionKey hretrieve
  refine ⟨sessionKey, nonce, hsession, ?_⟩
  change (system sha256 aes keys nonces serverNonces mallocs (events ++ [event])).answers = _
  rw [system_concat, hstep]
  exact hanswers

/-- **Retrieval.**  In a run of the system in which no message begins with a NUL,
with chains that validate and whose listing fits one record, a client that
retrieves decrypts exactly the listing: under every shard's heading the texts of
all its blocks, in chain order.  The blocks hold the first 255 characters of
strings dealt to the shard, in order, and of all of them where no allocation
fails; all were answered `DATA_STORED`. -/
theorem retrieve_returns_listing (events : List Event) (event : Event) (m : Bytes)
    (hnul : ∀ m ∈ messages aes none events, m.head? ≠ some 0)
    (hvalid : ∀ i, (validateBlockchain sha256
      ((system sha256 aes keys nonces serverNonces mallocs events).servers i).blockchain).valid)
    (hfits : (listing
      (system sha256 aes keys nonces serverNonces mallocs events).servers).length ≤ 2048)
    (hmessage : message aes (system sha256 aes keys nonces serverNonces mallocs events).session
      event = some m)
    (hretrieve : cstr m = ascii "RETRIEVE") :
    let at_ := system sha256 aes keys nonces serverNonces mallocs
    (∃ sessionKey record, (at_ events).session = some sessionKey ∧
      (at_ (events ++ [event])).answers =
        (at_ events).answers ++ [⟨sessionKey, ascii "RETRIEVE", record⟩] ∧
      receiveEncyptedData aes sessionKey (recv expectedPayloadLen (some record)) =
        some (listing (at_ events).servers)) ∧
    (∀ i, ∃ payloads, payloads.Sublist (deal numServers i.val (stores aes none events)) ∧
      ((∀ i n, ((mallocs i).get n).isSome) →
        payloads = deal numServers i.val (stores aes none events)) ∧
      ((at_ events).servers i).blockchain.map (fun b => b.data.str) =
        payloads.map (List.take 255)) ∧
    storeAnswers aes (at_ events).answers =
      (stores aes none events).map fun s => (s, some (ascii "DATA_STORED")) := by
  intro at_
  have hcontents : ∀ i, (contents ((at_ events).servers i).blockchain).length ≤ 2015 := by
    intro i
    have hpart := contents_le_listing (at_ events).servers i
    have hwhole : (listing (at_ events).servers).length ≤ 2048 := hfits
    omega
  have hshowable : ∀ i, Showable sha256 ((at_ events).servers i).blockchain := fun i =>
    ⟨hvalid i, Nat.le_trans (hcontents i) (by decide)⟩
  have hlockstep := lockstep_of_showable sha256 aes keys nonces serverNonces mallocs hshowable
    fun m hm => cstr_ne_nil_of_mem_messages aes hm (hnul m hm)
  refine ⟨?_, ?_, hlockstep.answers⟩
  · obtain ⟨sessionKey, nonce, hsession, hanswers⟩ :=
      answer_to_retrieval sha256 aes keys nonces serverNonces mallocs hlockstep
        (fun i => (hshowable i).fits sha256 (hlockstep.reachable i)) event m hmessage hretrieve
    have htexts : (fun i => (retrieveData sha256 ((at_ events).servers i).blockchain).response) =
        fun i => contents ((at_ events).servers i).blockchain :=
      funext fun i => (hshowable i).response sha256 (hlockstep.reachable i)
    have hlisting : formatAll
        (fun i => (retrieveData sha256 ((at_ events).servers i).blockchain).response)
        (List.finRange numServers) [] = listing (at_ events).servers := by
      rw [htexts, formatAll_eq (fun i => nul_not_mem_contents _)
        (fun i => Nat.le_trans (hcontents i) (by decide)) _ _ (by decide)]
      rfl
    rw [hlisting] at hanswers
    refine ⟨sessionKey, sendEncyptedData aes sessionKey nonce (listing (at_ events).servers),
      hsession, hanswers, ?_⟩
    rw [recv_send aes hfits, receive_send]
  · intro i
    obtain ⟨payloads, hstep, hsub, hall⟩ := hlockstep.shards i
    refine ⟨payloads, hsub, fun hmallocs => (hall hmallocs).1, ?_⟩
    exact data_of_inStep sha256 aes hstep fun p hp => mem_of_mem_deal (hsub.subset hp)

end Run

/-- A client that stores `a`. -/
def oneStore : List Event := [.accept exampleKey, exampleMessage (ascii "a")]

/-- The theorem at a run with one store. -/
theorem retrieve_returns_listing_oneStore :
    (∃ sessionKey record, (exampleSystem oneStore).session = some sessionKey ∧
      (exampleSystem (oneStore ++ [exampleMessage (ascii "RETRIEVE")])).answers =
        (exampleSystem oneStore).answers ++ [⟨sessionKey, ascii "RETRIEVE", record⟩] ∧
      receiveEncyptedData clearAes sessionKey (recv expectedPayloadLen (some record)) =
        some (listing (exampleSystem oneStore).servers)) ∧
    (∀ i, ∃ payloads, payloads.Sublist (deal numServers i.val (stores clearAes none oneStore)) ∧
      ((∀ (_ : Fin numServers) n, ((Stream'.const (some zeroBlock)).get n).isSome) →
        payloads = deal numServers i.val (stores clearAes none oneStore)) ∧
      ((exampleSystem oneStore).servers i).blockchain.map (fun b => b.data.str) =
        payloads.map (List.take 255)) ∧
    storeAnswers clearAes (exampleSystem oneStore).answers =
      (stores clearAes none oneStore).map fun s => (s, some (ascii "DATA_STORED")) :=
  retrieve_returns_listing Sha256.sha256 clearAes (fun _ => exampleKey)
    (Stream'.const exampleNonce) (fun _ => Stream'.const exampleNonce)
    (fun _ => Stream'.const (some zeroBlock)) oneStore (exampleMessage (ascii "RETRIEVE"))
    (ascii "RETRIEVE") (by decide +kernel) (by decide +kernel) (by decide +kernel)
    (by decide +kernel) (by decide +kernel)

/-! ## The limit of one record -/

section Run

variable (keys : Fin numServers → SessionKey) (nonces : Stream' Nonce)
  (serverNonces : Fin numServers → Stream' Nonce)
  (mallocs : Fin numServers → Stream' (Option RawBlock))

/-- The turns are fair. -/
theorem deal_length (i : Fin numServers) (l : List Bytes) :
    (deal numServers i.val l).length = (l.length + 2 - i.val) / 3 := by
  have hi : i.val < 3 := i.isLt
  induction l using List.reverseRecOn with
  | nil =>
      simp only [deal_nil, List.length_nil]
      omega
  | append_singleton l s ih =>
      rw [deal_concat, List.length_append, List.length_append, ih]
      simp only [numServers, List.length_singleton]
      split
      · rw [List.length_singleton]
        omega
      · rw [List.length_nil]
        omega

/-- Up to six stores the lockstep needs no assumption. -/
theorem lockstep_of_few_stores {events : List Event} (h : (stores aes none events).length ≤ 6)
    (hnul : ∀ m ∈ messages aes none events, cstr m ≠ []) :
    Lockstep sha256 aes keys (∀ i n, ((mallocs i).get n).isSome) (stores aes none events)
      (system sha256 aes keys nonces serverNonces mallocs events) := by
  refine lockstep_run sha256 aes keys (lockstep_start sha256 aes keys nonces serverNonces mallocs)
    (fun events => (stores aes none events).length ≤ 6) ?_ ?_ events h hnul
  · intro events event hgood
    rw [stores_concat, List.length_append] at hgood
    omega
  · intro events hgood hlockstep i
    obtain ⟨payloads, hstep, hsub, _⟩ := hlockstep.shards i
    have htwo : payloads.length ≤ 2 := by
      have hle : payloads.length ≤ (deal numServers i.val (stores aes none events)).length :=
        hsub.length_le
      rw [deal_length] at hle
      have hgood' : (stores aes none events).length ≤ 6 := hgood
      omega
    rw [hstep.blockchain]
    exact fits_of_length_le_two sha256 htwo

/-- What the client decrypts of an answer with a listing beyond one record is shorter. -/
theorem answer_too_long {allocates : Prop} {S : List Bytes} {events : List Event}
    (h : Lockstep sha256 aes keys allocates S
      (system sha256 aes keys nonces serverNonces mallocs events))
    (hfits : ∀ i, Fits sha256
      ((system sha256 aes keys nonces serverNonces mallocs events).servers i).blockchain)
    (event : Event) (m : Bytes)
    (hmessage : message aes (events.foldl (sessionAfter aes) none) event = some m)
    (hretrieve : cstr m = ascii "RETRIEVE")
    (hlong : 2048 < (listing
      (system sha256 aes keys nonces serverNonces mallocs events).servers).length) :
    let at_ := system sha256 aes keys nonces serverNonces mallocs
    ∃ sessionKey record,
      (at_ (events ++ [event])).answers =
        (at_ events).answers ++ [⟨sessionKey, ascii "RETRIEVE", record⟩] ∧
      ∀ data, receiveEncyptedData aes sessionKey (recv expectedPayloadLen (some record)) =
        some data → data.length < (listing (at_ events).servers).length := by
  intro at_
  rw [← system_session sha256 aes keys nonces serverNonces mallocs] at hmessage
  obtain ⟨sessionKey, nonce, _, hanswers⟩ := answer_to_retrieval sha256 aes keys nonces
    serverNonces mallocs h hfits event m hmessage hretrieve
  refine ⟨sessionKey, _, hanswers, ?_⟩
  intro data hdata
  exact Nat.lt_of_le_of_lt (length_of_receive_recv aes hdata) hlong

end Run

/-- The payload of 255 bytes. -/
def longPayload : Bytes := List.replicate 255 97

/-- A client that stores it six times. -/
def longStores : List Event := .accept exampleKey :: List.replicate 6 (exampleMessage longPayload)

theorem longStores_stores : stores clearAes none longStores = List.replicate 6 longPayload := by
  decide +kernel

/-- The six stores are dealt out. -/
theorem longStores_lockstep :
    Lockstep Sha256.sha256 clearAes (fun _ => exampleKey)
      (∀ (_ : Fin numServers) n, ((Stream'.const (some zeroBlock)).get n).isSome)
      (List.replicate 6 longPayload) (exampleSystem longStores) := by
  rw [← longStores_stores]
  exact lockstep_of_few_stores Sha256.sha256 clearAes (fun _ => exampleKey) _ _ _
    (by rw [longStores_stores]; decide) (by decide +kernel)

/-- Every shard holds two of them. -/
theorem longStores_blockchain (i : Fin numServers) :
    ((exampleSystem longStores).servers i).blockchain =
      chainOf Sha256.sha256 [longPayload, longPayload] := by
  have hdealt : deal numServers i.val (List.replicate 6 longPayload) =
      [longPayload, longPayload] := by
    revert i
    decide +kernel
  obtain ⟨payloads, hstep, _, hall⟩ := longStores_lockstep.shards i
  rw [hstep.blockchain, (hall fun _ _ => rfl).1, hdealt]

theorem longStores_fits (i : Fin numServers) :
    Fits Sha256.sha256 ((exampleSystem longStores).servers i).blockchain := by
  rw [longStores_blockchain]
  exact fits_of_length_le_two Sha256.sha256 (Nat.le_refl 2)

theorem storedData_longPayload : storedData longPayload = longPayload := by decide +kernel

/-- The text of such a shard. -/
theorem longStores_contents :
    700 ≤ (contents (chainOf Sha256.sha256 [longPayload, longPayload])).length := by
  have hentries : ∀ b ∈ chainOf Sha256.sha256 [longPayload, longPayload],
      350 ≤ (entry b).length := by
    intro b hb
    have hhash := hash_length_of_mem_chainOf Sha256.sha256 hb
    have hmem := List.mem_map_of_mem (f := fun b => b.data.str) hb
    rw [chainOf_data] at hmem
    have hstring : b.data.str = longPayload := by simpa [storedData_longPayload] using hmem
    rw [entry_length, hhash, hstring, show longPayload.length = 255 from List.length_replicate]
    omega
  have hrender := le_render_length hentries
  have htwo : (chainOf Sha256.sha256 [longPayload, longPayload]).length = 2 :=
    chainOf_length Sha256.sha256 _
  rw [htwo] at hrender
  rwa [contents_of_ne_nil (by intro hnil; simp [hnil] at htwo)]

/-- Six stores of 255 bytes, each answered `DATA_STORED`, two on each shard: what
the client decrypts of the answer to `RETRIEVE`, if anything, is shorter than
the listing. -/
theorem long_listing_does_not_fit :
    storeAnswers clearAes (exampleSystem longStores).answers =
        List.replicate 6 (longPayload, some (ascii "DATA_STORED")) ∧
      (∀ i, ((exampleSystem longStores).servers i).blockchain.map (fun b => b.data.str) =
        [longPayload, longPayload]) ∧
      ∃ sessionKey record,
        (exampleSystem (longStores ++ [exampleMessage (ascii "RETRIEVE")])).answers =
          (exampleSystem longStores).answers ++ [⟨sessionKey, ascii "RETRIEVE", record⟩] ∧
        ∀ data, receiveEncyptedData clearAes sessionKey (recv expectedPayloadLen (some record)) =
          some data → data.length < (listing (exampleSystem longStores).servers).length := by
  refine ⟨?_, ?_, ?_⟩
  · rw [longStores_lockstep.answers, List.map_replicate]
  · intro i
    rw [longStores_blockchain, chainOf_data]
    simp only [List.map_cons, List.map_nil, storedData_longPayload]
  · have hlockstep := longStores_lockstep
    have hfits := longStores_fits
    have hchains := longStores_blockchain
    have hlong := longStores_contents
    unfold exampleSystem at hlockstep hchains hfits ⊢
    refine answer_too_long Sha256.sha256 clearAes (fun _ => exampleKey) _ _ _ hlockstep hfits
      (exampleMessage (ascii "RETRIEVE")) (ascii "RETRIEVE") (by decide +kernel) (by decide) ?_
    rw [listing_length, hchains, hchains, hchains]
    omega

end ShardedLedger.Router
