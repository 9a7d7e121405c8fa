import ShardedLedger.Random.MersenneTwister
import ShardedLedger.Router.Nonces
set_option autoImplicit false

/-!
# Random: what the nonces of the router reveal

A nonce is sent in the clear, and a nonce is four outputs of the generator that
the router also takes its secrets from.  From 156 nonces in a row its state can be
computed, and with it all that it will draw (`nonces_reveal_generator`).
-/

namespace ShardedLedger.Random

open CString BigEndian Generator Channel Router Server

/-! ## Nonces as outputs -/

/-- The word in a number. -/
theorem word_of_number (words : Words) {j count : Nat} (hj : j < count) :
    UInt32.ofNat (number words count / 2 ^ (32 * j)) = words j := by
  obtain ⟨rest, rfl⟩ : ∃ rest, count = j + (1 + rest) := ⟨count - j - 1, by omega⟩
  rw [number_add, number_add, number_one, Nat.add_mul_div_left _ _ (Nat.two_pow_pos _),
    Nat.div_eq_of_lt (number_lt words j), Nat.zero_add, Nat.mul_one, UInt32.ofNat_add,
    UInt32.ofNat_mul]
  simp

/-- A word of a nonce, the least significant one first. -/
def wordOfNonce (nonce : Bytes) (j : Nat) : UInt32 := UInt32.ofNat (ofBytes nonce / 2 ^ (32 * j))

/-- The generator that 156 nonces lead to. -/
def eavesdrop (nonces : List Bytes) : RandState :=
  cloneState fun i => wordOfNonce (nonces.getD (i / 4) []) (i % 4)

/-- It goes on as the generator that the nonces are from. -/
theorem eavesdrop_words (state : RandState) (b : Nat) {nonces : List Bytes}
    (h : ∀ i < 156, ofBytes (nonces.getD i []) = block state.words (b + i)) (k : Nat) :
    (eavesdrop nonces).words k = state.words (4 * (b + 156) + k) := by
  have houtputs : (fun i : Fin N => wordOfNonce (nonces.getD (i / 4) []) (i % 4)) =
      fun i : Fin N => state.words (4 * b + i) := by
    funext i
    have hi : i.val < 624 := i.isLt
    have hblock : block state.words (b + i / 4) =
        number (fun j => state.words (4 * (b + i / 4) + j)) 4 := rfl
    rw [wordOfNonce, h _ (by omega), hblock, word_of_number _ (Nat.mod_lt _ (by decide))]
    congr 1
    omega
  rw [eavesdrop, houtputs, cloneState_words]
  rfl

/-! ## The router's draws -/

section Router

variable {S : Type}

/-- The run of a world whose generators are Mersenne Twisters, in the state that a
seed leads to. -/
def withGenerators (world : World S) (states : S → RandState) : World S :=
  { world with words := fun s => (states s).words }

/-- The blocks that the count of the draws speaks of are what `mpz_urandomb` reads:
a nonce is one of them, and a number of `DH_NUM_BITS` takes 16. -/
theorem nonces_drawn (process : Router.Process S) (states : S → RandState) (b : Nat) :
    let state := (states process.seed).skip (4 * b)
    (process.nonces fun s => (states s).words).get b =
        getRandomBytes (process.stale b) (mpzUrandomb (8 * nonceSize) state).1 ∧
      (mpzUrandomb (8 * nonceSize) state).2 = (states process.seed).skip (4 * (b + 1)) ∧
      (mpzUrandomb 2048 state).2 = (states process.seed).skip (4 * (b + secretBlocks)) := by
  have hblock : number (fun j => (states process.seed).words (4 * b + j)) 4 % 2 ^ 128 =
      block (states process.seed).words b := Nat.mod_eq_of_lt (block_lt _ b)
  intro state
  simp only [state, mpzUrandomb_eq, RandState.skip_skip, RandState.skip_words]
  refine ⟨congrArg (getRandomBytes _) hblock.symm, ?_, ?_⟩
  · rw [Nat.mul_add]
    rfl
  · rw [Nat.mul_add]
    rfl

variable (aes : AesGcm)

/-- While a client is served, the router draws nothing but nonces. -/
theorem draws_run_deliver (draws : Draws) {during : List Event}
    (h : ∀ event ∈ during, ∃ pending, event = .deliver pending) :
    ∃ links : List Link,
      (draws.run aes during).reads = draws.reads ++ links.zipIdx draws.position ∧
      (draws.run aes during).position = draws.position + links.length := by
  induction during using List.reverseRecOn with
  | nil => exact ⟨[], (List.append_nil _).symm, rfl⟩
  | append_singleton during event ih =>
      obtain ⟨links, hreads, hposition⟩ := ih fun e he => h e (List.mem_append_left _ he)
      obtain ⟨pending, rfl⟩ := h event (List.mem_append_right _ (List.mem_singleton_self _))
      rw [Draws.run_concat]
      generalize draws.run aes during = reached at hreads hposition
      cases hmessage : message aes reached.session (.deliver pending) with
      | none =>
          simp only [Draws.step, hmessage]
          exact ⟨links, hreads, hposition⟩
      | some m =>
          simp only [Draws.step, hmessage]
          refine ⟨links ++ linksOf reached.currentServer (.client (reached.sessions - 1)) m, ?_, ?_⟩
          · rw [hreads, hposition, List.zipIdx_append, List.append_assoc]
          · rw [hposition, List.length_append, Nat.add_assoc]

variable (sha256 : Bytes → Sha256.Digest) (keys : Fin numServers → SessionKey) (world : World S)
  (mallocs : Fin numServers → Stream' (Option RawBlock))

/-- The nonces of the records that the router has sent. -/
def sentNonces (events : List Event) : List Bytes :=
  (seededSystem sha256 aes keys world mallocs events).encrypted.map Prod.snd

theorem sentNonces_eq (events : List Event) :
    sentNonces aes sha256 keys world mallocs events =
      ((Draws.start.run aes events).reads.map Prod.snd).map
        (world.router.nonceAt world.words) := by
  have hfollows := (seededSystem_draws sha256 aes keys world mallocs events).1
  rw [sentNonces, hfollows.encrypted, inBlocks, List.map_map, List.map_map]
  rfl

/-- The nonces of the records that the router sends while it serves a client. -/
def recentNonces (before during : List Event) : List Bytes :=
  (sentNonces aes sha256 keys world mallocs (before ++ during)).drop
    (sentNonces aes sha256 keys world mallocs before).length

/-- They are the next blocks. -/
theorem recentNonces_eq (before : List Event) {during : List Event}
    (h : ∀ event ∈ during, ∃ pending, event = .deliver pending) :
    ∃ count, (Draws.start.run aes (before ++ during)).position =
        (Draws.start.run aes before).position + count ∧
      recentNonces aes sha256 keys world mallocs before during =
        (List.range' (Draws.start.run aes before).position count).map
          (world.router.nonceAt world.words) := by
  have hrun : Draws.start.run aes (before ++ during) =
      (Draws.start.run aes before).run aes during := List.foldl_append
  obtain ⟨links, hreads, hposition⟩ := draws_run_deliver aes (Draws.start.run aes before) h
  refine ⟨links.length, by rw [hrun, hposition], ?_⟩
  rw [recentNonces, sentNonces_eq, sentNonces_eq, hrun, hreads, List.map_append, List.map_append,
    List.zipIdx_map_snd]
  exact List.drop_left

/-- **Nonces reveal the generator.**  Who has seen 156 records in a row that the router
sends while it serves a client, with nonces that fill their array, computes from
their nonces all numbers that the router will ever draw, whatever their sizes: the
nonces of later records, and the secrets of all later key exchanges. -/
theorem nonces_reveal_generator (states : S → RandState) (before during : List Event)
    (hduring : ∀ event ∈ during, ∃ pending, event = .deliver pending)
    (hseen : 156 ≤ (recentNonces aes sha256 keys (withGenerators world states) mallocs
      before during).length)
    (hfills : ∀ b, b < (Draws.start.run aes (before ++ during)).position →
      (Draws.start.run aes (before ++ during)).position ≤ b + 156 →
      fillsNonce (fun s => (states s).words) (world.router.seed, b)) :
    let nonces := recentNonces aes sha256 keys (withGenerators world states) mallocs before during
    let position := (Draws.start.run aes (before ++ during)).position
    ∀ sizes, drawAll sizes ((states world.router.seed).skip (4 * position)) =
      drawAll sizes (eavesdrop (nonces.drop (nonces.length - 156))) := by
  obtain ⟨count, hposition, hnonces⟩ :=
    recentNonces_eq aes sha256 keys (withGenerators world states) mallocs before hduring
  rw [hnonces, List.length_map, List.length_range'] at hseen
  let start := (Draws.start.run aes before).position + (count - 156)
  have hlast : (Draws.start.run aes (before ++ during)).position = start + 156 := by omega
  intro nonces position sizes
  have hrecent : nonces.drop (nonces.length - 156) =
      (List.range' start 156).map (world.router.nonceAt fun s => (states s).words) := by
    have hcount : count - (count - 156) = 156 := by omega
    change (recentNonces _ _ _ _ _ _ _).drop ((recentNonces _ _ _ _ _ _ _).length - 156) = _
    rw [hnonces, List.length_map, List.length_range', ← List.map_drop, List.drop_range', hcount,
      Nat.mul_one]
    rfl
  have hblocks : ∀ i < 156, ofBytes ((nonces.drop (nonces.length - 156)).getD i []) =
      block (states world.router.seed).words (start + i) := by
    intro i hi
    have hfilled := hfills (start + i) (by omega) (by omega)
    have hget : (nonces.drop (nonces.length - 156)).getD i [] =
        world.router.nonceAt (fun s => (states s).words) (start + i) := by
      rw [hrecent, List.getD_eq_getElem?_getD, List.getElem?_map, List.getElem?_range' hi,
        Nat.one_mul]
      rfl
    rw [hget, nonceAt_of_fills hfilled]
    exact mpzImport_mpzExport_of_full (of_decide_eq_true hfilled) (block_lt_nonce _ _) _
  have hwords : ((states world.router.seed).skip (4 * position)).words =
      (eavesdrop (nonces.drop (nonces.length - 156))).words := by
    funext k
    rw [eavesdrop_words _ start hblocks, RandState.words_skip, ← hlast]
  rw [drawAll_eq_readAll, drawAll_eq_readAll, hwords]

end Router

/-! ## A generator whose nonces are full -/

theorem zero_le_N : 0 ≤ N := Nat.zero_le N

/-- All words of the array are equal. -/
def constantState : RandState := ⟨Vector.replicate N 0xFFFFFFFF, 0, zero_le_N⟩

/-- Up to the end of the next array only two different terms come. -/
theorem constantState_term {k : Nat} (hk : k < 1247) :
    constantState.term k = 0xFFFFFFFF ∨ constantState.term k = 0x1908B0DF := by
  have hfirst : ∀ k < N, constantState.term k = 0xFFFFFFFF := by
    intro k hk
    rw [RandState.term, constantState, Nat.zero_add, terms_of_lt _ hk, getElem!_of_lt _ hk]
    exact Vector.getElem_replicate hk
  induction k using Nat.strong_induction_on with
  | _ k ih =>
      by_cases hnew : k < N
      · exact .inl (hfirst k hnew)
      · obtain ⟨j, rfl⟩ : ∃ j, k = j + N := ⟨k - N, (Nat.sub_add_cancel (Nat.le_of_not_lt hnew)).symm⟩
        have hN : N = 624 := rfl
        have hM : M = 397 := rfl
        have hterm : constantState.term (j + N) = twist (constantState.term j)
            (constantState.term (j + 1)) (constantState.term (j + M)) := by
          simp only [RandState.term, constantState, Nat.zero_add]
          exact terms_twist _ j
        rw [hterm, hfirst j (by omega), hfirst (j + 1) (by omega)]
        rcases ih (j + M) (by omega) (by omega) with hfar | hfar
        · rw [hfar]
          exact .inr (by decide)
        · rw [hfar]
          exact .inl (by decide)

/-- So the blocks up to there fill a nonce. -/
theorem constantState_fills {b : Nat} (hb : b < 311) :
    fillsNonce (fun _ : Unit => constantState.words) ((), b) := by
  have hword : 2 ^ 24 ≤ (constantState.words (4 * b + 3)).toNat := by
    rw [RandState.words_eq]
    rcases constantState_term (show 4 * b + 3 < 1247 by omega) with hterm | hterm
    · rw [hterm]
      decide
    · rw [hterm]
      decide
  have hblock : block constantState.words b =
      number (fun j => constantState.words (4 * b + j)) 3 +
        2 ^ 96 * (constantState.words (4 * b + 3)).toNat := by
    have hsplit := number_add (fun j => constantState.words (4 * b + j)) 3 1
    rw [number_one] at hsplit
    exact hsplit
  refine decide_eq_true ?_
  change 256 ^ 15 ≤ block constantState.words b
  rw [hblock]
  omega

/-- A client that retrieves 39 times. -/
def manyRetrievals : List Event := List.replicate 39 (exampleMessage (ascii "RETRIEVE"))

/-- The router draws 156 nonces for it. -/
theorem manyRetrievals_position :
    (Draws.start.run clearAes [.accept exampleKey]).position = 116 ∧
      (Draws.start.run clearAes ([.accept exampleKey] ++ manyRetrievals)).position = 272 := by
  decide +kernel

/-- The theorem at this client. -/
theorem nonces_reveal_generator_manyRetrievals :
    let nonces := recentNonces clearAes Sha256.sha256 (fun _ => exampleKey)
      (withGenerators sameSecond fun _ => constantState) (fun _ => Stream'.const (some zeroBlock))
      [.accept exampleKey] manyRetrievals
    let position :=
      (Draws.start.run clearAes ([.accept exampleKey] ++ manyRetrievals)).position
    ∀ sizes, drawAll sizes (constantState.skip (4 * position)) =
      drawAll sizes (eavesdrop (nonces.drop (nonces.length - 156))) := by
  have hduring : ∀ event ∈ manyRetrievals, ∃ pending, event = .deliver pending :=
    fun event hevent => ⟨_, List.eq_of_mem_replicate hevent⟩
  obtain ⟨count, hcount, hnonces⟩ := recentNonces_eq clearAes Sha256.sha256 (fun _ => exampleKey)
    (withGenerators sameSecond fun _ => constantState) (fun _ => Stream'.const (some zeroBlock))
    [.accept exampleKey] hduring
  obtain ⟨hstart, hposition⟩ := manyRetrievals_position
  have hseen : 156 ≤ (recentNonces clearAes Sha256.sha256 (fun _ => exampleKey)
      (withGenerators sameSecond fun _ => constantState) (fun _ => Stream'.const (some zeroBlock))
      [.accept exampleKey] manyRetrievals).length := by
    rw [hnonces, List.length_map, List.length_range']
    omega
  exact nonces_reveal_generator clearAes Sha256.sha256 (fun _ => exampleKey) sameSecond
    (fun _ => Stream'.const (some zeroBlock)) (fun _ => constantState) [.accept exampleKey]
    manyRetrievals hduring hseen fun b hb _ => constantState_fills (by omega)

end ShardedLedger.Random
