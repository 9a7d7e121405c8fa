import Mathlib
set_option autoImplicit false

/-!
# Foundation: authenticated encryption and channels over an active network

`Aead` is an authenticated encryption scheme as a pair of functions with their
laws: decryption inverts encryption, accepts nothing that is not an encryption
under the same key and nonce, and keeps lengths.

`run` is a run of two parties that wrap messages into records and open what the
network hands them.  The network may hand over anything, in any order and any
number of times.  `Authentic` is the assumption that it cannot forge: what opens
was wrapped before, by one of the two in the run or while the channel was set up.
From it follows exactly origin (`sent_before_of_accepted`); order, number and
direction of the accepted messages are those of the accepted records
(`accepted_eq_filterMap`), which the network chooses (`exists_authentic_run`).
-/

namespace ShardedLedger.SecureChannel

/-! ## Authenticated encryption -/

/-- An authenticated encryption scheme without associated data, on byte strings. -/
structure Aead (Key Nonce Tag : Type) where
  /-- Ciphertext and tag. -/
  encrypt : Key → Nonce → List UInt8 → List UInt8 × Tag
  /-- The plaintext of a ciphertext with its tag, if they authenticate. -/
  decrypt : Key → Nonce → List UInt8 → Tag → Option (List UInt8)
  decrypt_encrypt : ∀ k n m, decrypt k n (encrypt k n m).1 (encrypt k n m).2 = some m
  encrypt_of_decrypt : ∀ {k n c t m}, decrypt k n c t = some m → encrypt k n m = (c, t)
  length_encrypt : ∀ k n m, (encrypt k n m).1.length = m.length

/-- The scheme that sends the message in the clear under a tag computed from
key, nonce and message. -/
def Aead.ofTag {Key Nonce Tag : Type} [DecidableEq Tag]
    (tag : Key → Nonce → List UInt8 → Tag) : Aead Key Nonce Tag where
  encrypt k n m := (m, tag k n m)
  decrypt k n c t := if t = tag k n c then some c else none
  decrypt_encrypt k n m := by simp
  encrypt_of_decrypt {k n c t m} h := by
    split at h
    · rename_i ht
      have hm : c = m := by simpa using h
      subst hm
      rw [ht]
    · simp at h
  length_encrypt k n m := rfl

/-! ## Two parties and a network -/

/-- The two ends of a channel. -/
inductive Side where
  | left
  | right
  deriving DecidableEq

/-- The other end. -/
def Side.peer : Side → Side
  | .left => .right
  | .right => .left

/-- A step of a run: an end wraps a message, with some randomness, or the
network hands an end something to open. -/
inductive Event (Randomness Message Record : Type) where
  | send (side : Side) (randomness : Randomness) (message : Message)
  | deliver (side : Side) (record : Record)

/-- What happened so far, per end. -/
structure History (Message Record : Type) where
  /-- Messages wrapped, in order. -/
  sent : Side → List Message
  /-- The records they were wrapped into. -/
  records : Side → List Record
  /-- Messages accepted, in order. -/
  accepted : Side → List Message
  /-- The records they were opened from. -/
  opened : Side → List Record

/-- Nothing happened. -/
def History.empty {Message Record : Type} : History Message Record :=
  ⟨fun _ => [], fun _ => [], fun _ => [], fun _ => []⟩

variable {Randomness Message Record : Type}
  (wrap : Randomness → Message → Record) (unwrap : Record → Option Message)

/-- One step of the run. -/
def step (h : History Message Record) : Event Randomness Message Record → History Message Record
  | .send side r m =>
      { h with
        sent := Function.update h.sent side (h.sent side ++ [m])
        records := Function.update h.records side (h.records side ++ [wrap r m]) }
  | .deliver side record =>
      match unwrap record with
      | none => h
      | some m =>
          { h with
            accepted := Function.update h.accepted side (h.accepted side ++ [m])
            opened := Function.update h.opened side (h.opened side ++ [record]) }

/-- The history of a whole run. -/
def run (events : List (Event Randomness Message Record)) : History Message Record :=
  events.foldl (step wrap unwrap) .empty

/-- The step forges nothing: what it opens was wrapped before, by either end or
among the records of the `setup`. -/
def StepAuthentic (setup : List Record) (h : History Message Record) :
    Event Randomness Message Record → Prop
  | .send _ _ _ => True
  | .deliver _ record =>
      (unwrap record).isSome → record ∈ setup ∨ ∃ side, record ∈ h.records side

/-- The network forges nothing in the whole run. -/
def Authentic (setup : List Record) (events : List (Event Randomness Message Record)) : Prop :=
  ∀ before event after, events = before ++ event :: after →
    StepAuthentic unwrap setup (run wrap unwrap before) event

theorem run_concat (events : List (Event Randomness Message Record))
    (event : Event Randomness Message Record) :
    run wrap unwrap (events ++ [event]) = step wrap unwrap (run wrap unwrap events) event := by
  simp [run]

/-- The accepted messages are what the opened records open to. -/
theorem accepted_eq_filterMap (events : List (Event Randomness Message Record)) (side : Side) :
    (run wrap unwrap events).accepted side =
      ((run wrap unwrap events).opened side).filterMap unwrap := by
  induction events using List.reverseRecOn with
  | nil => rfl
  | append_singleton events event ih =>
      rw [run_concat]
      cases event with
      | send s r m => exact ih
      | deliver s record =>
          simp only [step]
          split
          · exact ih
          · rename_i m hm
            by_cases hs : side = s
            · subst hs
              simp [ih, hm]
            · simp [Function.update_of_ne hs, ih]

/-- The sent messages are what the wrapped records open to. -/
theorem sent_eq_filterMap (hround : ∀ r m, unwrap (wrap r m) = some m)
    (events : List (Event Randomness Message Record)) (side : Side) :
    (run wrap unwrap events).sent side =
      ((run wrap unwrap events).records side).filterMap unwrap := by
  induction events using List.reverseRecOn with
  | nil => rfl
  | append_singleton events event ih =>
      rw [run_concat]
      cases event with
      | send s r m =>
          simp only [step]
          by_cases hs : side = s
          · subst hs
            simp [ih, hround]
          · simp [Function.update_of_ne hs, ih]
      | deliver s record =>
          simp only [step]
          split
          · exact ih
          · exact ih

/-- What one delivery accepts is what the record opens to. -/
theorem step_deliver_of_open {record : Record} {message : Message}
    (hopen : unwrap record = some message) (h : History Message Record) (side : Side) :
    step wrap unwrap h (.deliver side record : Event Randomness Message Record) =
      { h with
        accepted := Function.update h.accepted side (h.accepted side ++ [message])
        opened := Function.update h.opened side (h.opened side ++ [record]) } := by
  simp only [step, hopen]

/-- **Origin.**  What an end accepts in an authentic run was sent before by one of
the two ends, or wrapped while the channel was set up. -/
theorem sent_before_of_accepted (hround : ∀ r m, unwrap (wrap r m) = some m)
    {setup : List Record} {events : List (Event Randomness Message Record)}
    (hauth : Authentic wrap unwrap setup events)
    {before after : List (Event Randomness Message Record)} {side : Side} {record : Record}
    (hsplit : events = before ++ .deliver side record :: after) {message : Message}
    (hopen : unwrap record = some message) :
    message ∈ setup.filterMap unwrap ∨
      ∃ origin, message ∈ (run wrap unwrap before).sent origin := by
  rcases hauth before _ after hsplit (by rw [hopen]; rfl) with hsetup | ⟨origin, hrecord⟩
  · exact Or.inl (List.mem_filterMap.mpr ⟨record, hsetup, hopen⟩)
  · refine Or.inr ⟨origin, ?_⟩
    rw [sent_eq_filterMap wrap unwrap hround]
    exact List.mem_filterMap.mpr ⟨record, hrecord, hopen⟩

/-- Where the opened records are a subsequence of the peer's, so are the messages. -/
theorem accepted_sublist_sent (hround : ∀ r m, unwrap (wrap r m) = some m)
    (events : List (Event Randomness Message Record)) {side origin : Side}
    (h : ((run wrap unwrap events).opened side).Sublist ((run wrap unwrap events).records origin)) :
    ((run wrap unwrap events).accepted side).Sublist ((run wrap unwrap events).sent origin) := by
  rw [accepted_eq_filterMap, sent_eq_filterMap wrap unwrap hround]
  exact h.filterMap unwrap

/-- Where the opened records come first among the peer's, so do the messages. -/
theorem accepted_initial_sent (hround : ∀ r m, unwrap (wrap r m) = some m)
    (events : List (Event Randomness Message Record)) {side origin : Side}
    (h : (run wrap unwrap events).opened side <+: (run wrap unwrap events).records origin) :
    (run wrap unwrap events).accepted side <+: (run wrap unwrap events).sent origin := by
  rw [accepted_eq_filterMap, sent_eq_filterMap wrap unwrap hround]
  exact h.filterMap unwrap

/-- A delivery wraps nothing. -/
theorem step_deliver_records (h : History Message Record) (side : Side) (record : Record) :
    (step wrap unwrap h (.deliver side record : Event Randomness Message Record)).records =
      h.records := by
  simp only [step]
  split
  · rfl
  · rfl

theorem run_append_deliveries_records (events : List (Event Randomness Message Record))
    (side : Side) (records : List Record) :
    (run wrap unwrap (events ++ records.map (.deliver side))).records =
      (run wrap unwrap events).records := by
  induction records using List.reverseRecOn with
  | nil => rw [List.map_nil, List.append_nil]
  | append_singleton records record ih =>
      rw [List.map_append, List.map_singleton, ← List.append_assoc, run_concat,
        step_deliver_records, ih]

/-- **Freedom of the network.**  Any selection of the records wrapped so far, by
either end, in any order and with any repetition, can be delivered to either
end, which accepts it all. -/
theorem exists_authentic_run {setup : List Record}
    {events : List (Event Randomness Message Record)}
    (hauth : Authentic wrap unwrap setup events) (side : Side) (records : List Record)
    (hknown : ∀ r ∈ records, r ∈ setup ∨ ∃ origin, r ∈ (run wrap unwrap events).records origin) :
    Authentic wrap unwrap setup (events ++ records.map (.deliver side)) ∧
      (run wrap unwrap (events ++ records.map (.deliver side))).accepted side =
        (run wrap unwrap events).accepted side ++ records.filterMap unwrap := by
  induction records using List.reverseRecOn with
  | nil => simpa using hauth
  | append_singleton records record ih =>
      obtain ⟨hbefore, haccepted⟩ :=
        ih fun r hr => hknown r (List.mem_append_left _ hr)
      rw [List.map_append, List.map_singleton, ← List.append_assoc]
      constructor
      · intro before event after hsplit
        rcases List.eq_nil_or_concat after with rfl | ⟨front, last, rfl⟩
        · obtain ⟨rfl, hevent⟩ := List.append_inj' hsplit rfl
          obtain rfl := List.singleton_inj.mp hevent
          intro _
          rw [run_append_deliveries_records]
          exact hknown record (List.mem_append_right _ List.mem_cons_self)
        · rw [List.concat_eq_append, ← List.cons_append, ← List.append_assoc] at hsplit
          exact hbefore before event front (List.append_inj' hsplit rfl).1
      · rw [run_concat, List.filterMap_append]
        cases hopen : unwrap record with
        | none => simp [step, hopen, haccepted]
        | some m => simp [step, hopen, haccepted]

end ShardedLedger.SecureChannel
