import ShardedLedger.Deployment.Network
import ShardedLedger.Router.Retrieval
set_option autoImplicit false

/-!
# Deployment: what a client makes the router do

`script` is what the router goes through with a client that types the given
lines: one record for each request, and at last `EXIT` or the end of the stream.
-/

namespace ShardedLedger.Deployment

open CString Channel Router Server Sha256 RoundRobin

/-! ## The messages of a client -/

/-- The messages that the lines lead to, up to `exit`. -/
def messagesOf : List Line → List Bytes
  | [] => []
  | line :: input =>
      match commandOf line.text with
      | .store => Client.generateRandomData line.rand :: messagesOf input
      | .retrieve => retrieveBuffer :: messagesOf input
      | .exit => [ascii "EXIT"]
      | .unknown => messagesOf input

/-- The client leaves with `exit`, before its input ends. -/
def exits : List Line → Bool
  | [] => false
  | line :: input =>
      match commandOf line.text with
      | .exit => true
      | _ => exits input

variable (aes : AesGcm) (key : SessionKey)

/-- The records that carry messages, with one nonce after the other. -/
def records : Stream' Nonce → List Bytes → List Bytes
  | _, [] => []
  | nonces, m :: rest => sendEncyptedData aes key nonces.head m :: records nonces.tail rest

/-- What the router goes through with a client that it has accepted. -/
def script (nonces : Stream' Nonce) (input : List Line) : List Event :=
  (records aes key nonces (messagesOf input)).map (fun record => .deliver (some record)) ++
    if exits input then [] else [.deliver (some [])]

section Lines

variable {line : Line} (input : List Line) (nonces : Stream' Nonce)

theorem messagesOf_of_request {m : Bytes} (h : line.request = some m) :
    messagesOf (line :: input) = m :: messagesOf input := by
  unfold Line.request at h
  rw [messagesOf]
  cases hcommand : commandOf line.text with
  | store =>
      rw [hcommand] at h
      exact congrArg (· :: messagesOf input) (Option.some.inj h)
  | retrieve =>
      rw [hcommand] at h
      exact congrArg (· :: messagesOf input) (Option.some.inj h)
  | exit =>
      rw [hcommand] at h
      cases h
  | unknown =>
      rw [hcommand] at h
      cases h

theorem exits_of_request {m : Bytes} (h : line.request = some m) :
    exits (line :: input) = exits input := by
  unfold Line.request at h
  rw [exits]
  cases hcommand : commandOf line.text with
  | store => rfl
  | retrieve => rfl
  | exit =>
      rw [hcommand] at h
      cases h
  | unknown => rfl

theorem script_of_request {m : Bytes} (h : line.request = some m) :
    script aes key nonces (line :: input) =
      .deliver (some (sendEncyptedData aes key nonces.head m)) ::
        script aes key nonces.tail input := by
  rw [script, messagesOf_of_request input h, exits_of_request input h]
  rfl

theorem messagesOf_of_unknown (h : commandOf line.text = .unknown) :
    messagesOf (line :: input) = messagesOf input := by
  rw [messagesOf, h]

theorem script_of_unknown (h : commandOf line.text = .unknown) :
    script aes key nonces (line :: input) = script aes key nonces input := by
  rw [script, messagesOf_of_unknown input h, exits, h]
  rfl

theorem messagesOf_of_exit (h : commandOf line.text = .exit) :
    messagesOf (line :: input) = [ascii "EXIT"] := by
  rw [messagesOf, h]

theorem script_of_exit (h : commandOf line.text = .exit) :
    script aes key nonces (line :: input) =
      [.deliver (some (sendEncyptedData aes key nonces.head (ascii "EXIT")))] := by
  rw [script, messagesOf_of_exit input h, exits, h]
  rfl

end Lines

/-- The records of the network's client are those of the client's own model,
whatever reaches its socket. -/
theorem payloads_commandLoop_eq_records (nonces : Stream' Nonce)
    (input : List (Line × Option Bytes)) :
    Client.payloads (Client.commandLoop aes key nonces
      (input.map fun l => ⟨l.1.text, l.1.rand, l.2⟩)) =
      records aes key nonces (messagesOf (input.map Prod.fst)) := by
  induction input generalizing nonces with
  | nil => rfl
  | cons l input ih =>
      rw [List.map_cons, List.map_cons, messagesOf]
      unfold Client.commandLoop commandOf
      dsimp only
      split
      · rw [Client.payloads_append, Client.payloads_storeData, ih]
        rfl
      · split
        · rw [Client.payloads_append, Client.payloads_retrieveData, ih]
          rfl
        · split
          · rfl
          · exact ih nonces

/-! ## What the messages are -/

/-- The string fits the buffer: `rand` returns an `int`. -/
theorem generateRandomData_eq (rand : Fin (2 ^ 31)) :
    Client.generateRandomData rand = ascii "RandomData_" ++ ascii (Nat.repr rand) ∧
      (Client.generateRandomData rand).length ≤ 21 := by
  have hdigits : (ascii (Nat.repr rand)).length ≤ 10 := by
    rw [ascii, List.length_map, Nat.toList_repr]
    exact (Nat.length_toDigits_le_iff (by decide) (by decide)).mpr
      (Nat.lt_trans rand.isLt (by decide))
  have hlength : (ascii "RandomData_" ++ ascii (Nat.repr rand)).length ≤ 21 := by
    rw [List.length_append, show (ascii "RandomData_").length = 11 from rfl]
    omega
  have heq : Client.generateRandomData rand = ascii "RandomData_" ++ ascii (Nat.repr rand) :=
    snprintf_eq_self (Nat.lt_of_le_of_lt hlength (by decide))
  exact ⟨heq, heq ▸ hlength⟩

/-- And is a string that is neither of the router's words. -/
theorem cstr_generateRandomData (rand : Fin (2 ^ 31)) :
    cstr (Client.generateRandomData rand) = Client.generateRandomData rand := by
  refine cstr_eq_self ?_
  rw [(generateRandomData_eq rand).1, List.mem_append, not_or]
  refine ⟨by decide, ?_⟩
  rw [ascii, List.mem_map]
  rintro ⟨c, hc, hzero⟩
  rw [Nat.toList_repr] at hc
  have hdigit := Nat.isDigit_of_mem_toDigits (by decide) (by decide) hc
  rw [Char.isDigit_iff_toNat, show '0'.toNat = 48 from rfl, show '9'.toNat = 57 from rfl] at hdigit
  have hnat := congrArg UInt8.toNat hzero
  rw [UInt8.toNat_ofNat', UInt8.toNat_zero] at hnat
  omega

theorem isStore_generateRandomData (rand : Fin (2 ^ 31)) :
    IsStore (Client.generateRandomData rand) := by
  have hhead : (Client.generateRandomData rand).take 2 = ascii "Ra" := by
    rw [(generateRandomData_eq rand).1]
    rfl
  rw [IsStore, cstr_generateRandomData]
  constructor
  · intro h
    rw [h] at hhead
    exact absurd hhead (by decide)
  · intro h
    rw [h] at hhead
    exact absurd hhead (by decide)

theorem cstr_retrieveBuffer : cstr retrieveBuffer = ascii "RETRIEVE" := by
  change (CharBuf.ofStr (Client.maxLine - 1) (ascii "RETRIEVE")).str = _
  rw [CharBuf.str_ofStr]
  rfl

theorem retrieveBuffer_length : retrieveBuffer.length = 256 := (CharBuf.ofStr _ _).length_eq

/-- A message that waits for a reply stores or retrieves. -/
theorem Line.request_cases {line : Line} {m : Bytes} (h : line.request = some m) :
    m = retrieveBuffer ∨ ∃ rand : Fin (2 ^ 31), m = Client.generateRandomData rand := by
  unfold Line.request at h
  split at h
  · exact .inr ⟨line.rand, (Option.some.inj h).symm⟩
  · exact .inl (Option.some.inj h).symm
  · cases h
  · cases h

theorem Line.request_length {line : Line} {m : Bytes} (h : line.request = some m) :
    m ≠ [] ∧ m.length ≤ 2048 := by
  rcases Line.request_cases h with rfl | ⟨rand, rfl⟩
  · constructor
    · intro hnil
      have hlength := retrieveBuffer_length
      rw [hnil] at hlength
      cases hlength
    · rw [retrieveBuffer_length]
      decide
  · constructor
    · rw [(generateRandomData_eq rand).1]
      exact fun hnil => List.cons_ne_nil _ _ hnil
    · exact Nat.le_trans (generateRandomData_eq rand).2 (by decide)

/-- It is not empty as a string, either. -/
theorem Line.cstr_request_ne_nil {line : Line} {m : Bytes} (h : line.request = some m) :
    cstr m ≠ [] := by
  rcases Line.request_cases h with rfl | ⟨rand, rfl⟩
  · rw [cstr_retrieveBuffer]
    decide
  · rw [cstr_generateRandomData]
    exact (Line.request_length h).1

/-- The router takes a record of the session whole. -/
theorem message_send {m : Bytes} (hne : m ≠ []) (hlength : m.length ≤ 2048) (nonce : Nonce) :
    message aes (some key) (.deliver (some (sendEncyptedData aes key nonce m))) = some m := by
  simp only [message, recv_send aes hlength, receive_send, Option.filter_some, hne, ne_eq,
    not_false_eq_true, decide_true, if_true]

/-! ## The strings a client stores -/

/-- The strings that the lines store, up to `exit`. -/
def storesOf (input : List Line) : List Bytes := (messagesOf input).filter fun m => IsStore m

theorem mem_messagesOf {input : List Line} {m : Bytes} (h : m ∈ messagesOf input) :
    m = ascii "EXIT" ∨ ∃ line ∈ input, line.request = some m := by
  induction input with
  | nil => exact absurd h List.not_mem_nil
  | cons line input ih =>
      have hrest : m ∈ messagesOf input →
          m = ascii "EXIT" ∨ ∃ line' ∈ line :: input, line'.request = some m := by
        intro hm
        rcases ih hm with hexit | ⟨line', hline', hrequest⟩
        · exact .inl hexit
        · exact .inr ⟨line', List.mem_cons_of_mem _ hline', hrequest⟩
      cases hrequest : line.request with
      | some m' =>
          rw [messagesOf_of_request input hrequest] at h
          rcases List.mem_cons.mp h with rfl | hm
          · exact .inr ⟨line, List.mem_cons_self, hrequest⟩
          · exact hrest hm
      | none =>
          rw [messagesOf] at h
          unfold Line.request at hrequest
          split at hrequest
          · cases hrequest
          · cases hrequest
          · rename_i hcommand
            rw [hcommand] at h
            exact .inl (List.mem_singleton.mp h)
          · rename_i hcommand
            rw [hcommand] at h
            exact hrest h

/-- What is stored is short. -/
theorem mem_storesOf {input : List Line} {s : Bytes} (h : s ∈ storesOf input) :
    cstr s = s ∧ s.length ≤ 21 := by
  obtain ⟨hmem, hstore⟩ := List.mem_filter.mp h
  have hstore := of_decide_eq_true hstore
  rcases mem_messagesOf hmem with rfl | ⟨line, -, hrequest⟩
  · exact absurd rfl hstore.1
  · rcases Line.request_cases hrequest with rfl | ⟨rand, rfl⟩
    · exact absurd cstr_retrieveBuffer hstore.2
    · exact ⟨cstr_generateRandomData rand, (generateRandomData_eq rand).2⟩

/-- The router finds the messages of the client in its script, and is without a
session at its end. -/
theorem messages_script (nonces : Stream' Nonce) (input : List Line) (rest : List Event) :
    messages aes (some key) (script aes key nonces input ++ rest) =
      messagesOf input ++ messages aes none rest := by
  induction input generalizing nonces with
  | nil => rfl
  | cons line input ih =>
      cases hrequest : line.request with
      | some m =>
          obtain ⟨hne, hlength⟩ := Line.request_length hrequest
          have hmessage := message_send aes key hne hlength nonces.head
          have hsession : sessionAfter aes (some key)
              (.deliver (some (sendEncyptedData aes key nonces.head m))) = some key := by
            simp only [sessionAfter, hmessage]
            refine if_neg fun hexit => ?_
            rcases Line.request_cases hrequest with rfl | ⟨rand, rfl⟩
            · rw [cstr_retrieveBuffer] at hexit
              exact absurd hexit (by decide)
            · exact (isStore_generateRandomData rand).1 hexit
          rw [script_of_request aes key input nonces hrequest,
            messagesOf_of_request input hrequest, List.cons_append, messages, hmessage, hsession,
            ih, Option.toList_some, List.singleton_append, List.cons_append]
      | none =>
          cases hcommand : commandOf line.text with
          | store =>
              rw [Line.request, hcommand] at hrequest
              cases hrequest
          | retrieve =>
              rw [Line.request, hcommand] at hrequest
              cases hrequest
          | exit =>
              have hmessage := message_send aes key (show ascii "EXIT" ≠ [] by decide)
                (by decide) nonces.head
              have hsession : sessionAfter aes (some key)
                  (.deliver (some (sendEncyptedData aes key nonces.head (ascii "EXIT")))) = none := by
                simp only [sessionAfter, hmessage]
                exact if_pos rfl
              rw [script_of_exit aes key input nonces hcommand, messagesOf_of_exit input hcommand,
                List.singleton_append, messages, hmessage, hsession]
              rfl
          | unknown =>
              rw [script_of_unknown aes key input nonces hcommand,
                messagesOf_of_unknown input hcommand, ih]

end ShardedLedger.Deployment
