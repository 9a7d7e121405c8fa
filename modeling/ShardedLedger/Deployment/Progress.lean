import ShardedLedger.Deployment.Network
set_option autoImplicit false

/-!
# Deployment: every schedule comes to an end, and none gets stuck

Whatever stands behind the server sockets, as long as each command to it returns: a
schedule has no more actions than `Network.measure` says, and as long as some client
has not been served to its end, some party can act.  That the commands return, and
that no send ends a process, is the subject of `Sends`.  A party that could act, and
does not, holds up the others
(`Network.silent_client_blocks`): the router serves one client at a time.
-/

namespace ShardedLedger.Deployment

open CString Channel Router

variable (aes : AesGcm)

/-! ## What the router does with what it receives -/

section Router

variable {σ : Type} (serverSessionKeys : Fin numServers → SessionKey) (exchange : Exchange σ)

/-- On what it receives the router sends one record, or ends the session. -/
theorem step_deliver_cases (state : RouterState σ) (pending : Option Bytes) :
    let after := Router.step aes serverSessionKeys exchange state (.deliver pending)
    (after.session = none ∧ after.answers = state.answers) ∨
      (after.session = state.session ∧ ∃ a, after.answers = state.answers ++ [a]) := by
  intro after
  cases hmessage : message aes state.session (.deliver pending) with
  | none =>
      have hafter : after = _ := step_of_no_message aes serverSessionKeys exchange hmessage
      rw [hafter]
      refine .inl ⟨?_, rfl⟩
      simp only [sessionAfter, hmessage]
  | some m =>
      obtain ⟨key, hsession, hstep⟩ := step_of_message aes serverSessionKeys exchange hmessage
      have hafter : after = _ := hstep
      rw [hafter]
      by_cases hexit : cstr m = ascii "EXIT"
      · rw [handleRequest_exit aes serverSessionKeys exchange key hexit]
        exact .inl ⟨rfl, rfl⟩
      · by_cases hretrieve : cstr m = ascii "RETRIEVE"
        · obtain ⟨hsame, -, hanswers⟩ := retrieveLoop_frame aes serverSessionKeys exchange (m ++ [0])
            state (List.finRange numServers) []
          rw [handleRequest_retrieve aes serverSessionKeys exchange key hretrieve]
          exact .inr ⟨hsame, _, congrArg (· ++ [_]) hanswers⟩
        · rw [handleRequest_store aes serverSessionKeys exchange key ⟨hexit, hretrieve⟩]
          exact .inr ⟨rfl, _, rfl⟩

/-- At the end of the stream the session ends. -/
theorem step_deliver_eof (state : RouterState σ) :
    (Router.step aes serverSessionKeys exchange state (.deliver (some []))).session = none := by
  have hmessage : message aes state.session (.deliver (some [])) = none := by
    cases state.session with
    | none => rfl
    | some key => rfl
  rw [step_of_no_message aes serverSessionKeys exchange hmessage]
  simp only [sessionAfter, hmessage]

end Router

/-! ## What a client does -/

section Client

variable {aes} {process process' : Process} {key : SessionKey}

/-- The four things a client can do at its prompt. -/
theorem Process.type_cases (h : process.type aes key = some process') :
    process.phase = .prompting ∧
      ((process.input = [] ∧ process' = { process with phase := .done, clientClosed := true }) ∨
      ∃ line input, process.input = line :: input ∧
        ((∃ m, line.request = some m ∧ process' =
          { Process.send aes key { process with input := input } m with phase := .waiting }) ∨
        (commandOf line.text = .exit ∧ process' =
          { Process.send aes key { process with input := input } (ascii "EXIT") with
            phase := .done
            clientClosed := true }) ∨
        (commandOf line.text = .unknown ∧ process' = { process with input := input }))) := by
  unfold Process.type at h
  split at h
  · cases h
  · rename_i hphase
    refine ⟨not_not.mp hphase, ?_⟩
    split at h
    · rename_i hinput
      exact .inl ⟨hinput, (Option.some.inj h).symm⟩
    · rename_i line input hinput
      refine .inr ⟨line, input, hinput, ?_⟩
      dsimp only at h
      split at h
      · rename_i hcommand
        exact .inl ⟨_, by rw [Line.request, hcommand], (Option.some.inj h).symm⟩
      · rename_i hcommand
        exact .inl ⟨_, by rw [Line.request, hcommand], (Option.some.inj h).symm⟩
      · rename_i hcommand
        exact .inr (.inl ⟨hcommand, (Option.some.inj h).symm⟩)
      · rename_i hcommand
        exact .inr (.inr ⟨hcommand, (Option.some.inj h).symm⟩)

/-- At its prompt a client can always go on. -/
theorem Process.exists_type (aes : AesGcm) (key : SessionKey) (h : process.phase = .prompting) :
    ∃ process', process.type aes key = some process' := by
  unfold Process.type
  rw [if_neg (not_not.mpr h)]
  split
  · exact ⟨_, rfl⟩
  · dsimp only
    split
    · exact ⟨_, rfl⟩
    · exact ⟨_, rfl⟩
    · exact ⟨_, rfl⟩
    · exact ⟨_, rfl⟩

/-- A client that takes a reply is at its prompt afterwards. -/
theorem Process.takeReply_cases (h : process.takeReply aes key = some process') :
    process.phase = .waiting ∧ ∃ pending replies,
      process' = { process.receive aes key pending with replies := replies } := by
  unfold Process.takeReply at h
  split at h
  · cases h
  · rename_i hphase
    refine ⟨not_not.mp hphase, ?_⟩
    split at h
    · exact ⟨none, process.replies, (Option.some.inj h).symm⟩
    · split at h
      · exact ⟨_, _, (Option.some.inj h).symm⟩
      · split at h
        · exact ⟨some [], process.replies, (Option.some.inj h).symm⟩
        · cases h

theorem Process.exists_takeReply (aes : AesGcm) (key : SessionKey)
    (h : process.phase = .waiting) (hpending : process.clientClosed = true ∨
      process.routerClosed = true ∨ process.replies ≠ []) :
    ∃ process', process.takeReply aes key = some process' := by
  unfold Process.takeReply
  rw [if_neg (not_not.mpr h)]
  split
  · exact ⟨_, rfl⟩
  · rename_i hopen
    split
    · exact ⟨_, rfl⟩
    · rename_i hempty
      rw [if_pos]
      · exact ⟨_, rfl⟩
      · rcases hpending with hclosed | hclosed | hreplies
        · exact absurd hclosed hopen
        · exact hclosed
        · exact absurd hempty hreplies

end Client

/-! ## The invariant -/

/-- How the phase of a client goes together with its connection, whether it waits
to be accepted (`queued`), and whether the router is serving it. -/
def Process.Consistent (process : Process) (queued served : Prop) : Prop :=
  match process.phase with
  | .idle => ¬queued ∧ ¬served ∧ process.routerClosed = false
  | .connecting => queued ∧ ¬served ∧ process.routerClosed = false
  | .prompting => ¬queued ∧ (served ↔ process.routerClosed = false)
  | .waiting => ¬queued ∧ (served ↔ process.routerClosed = false) ∧
      (process.clientClosed = true ∨ process.routerClosed = true ∨ process.requests ≠ [] ∨
        process.replies ≠ [])
  | .done => ¬queued ∧ (served ↔ process.routerClosed = false) ∧ process.clientClosed = true

/-- A client that is being served is on an open connection. -/
theorem Process.Consistent.open_of_served {process : Process} {queued served : Prop}
    (h : process.Consistent queued served) (hserved : served) : process.routerClosed = false := by
  unfold Process.Consistent at h
  split at h
  · exact h.2.2
  · exact h.2.2
  · exact h.2.mp hserved
  · exact h.2.1.mp hserved
  · exact h.2.1.mp hserved

/-- A client in the backlog waits to be accepted. -/
theorem Process.Consistent.connecting_of_queued {process : Process} {queued served : Prop}
    (h : process.Consistent queued served) (hqueued : queued) : process.phase = .connecting := by
  unfold Process.Consistent at h
  split at h
  · exact absurd hqueued h.1
  · assumption
  · exact absurd hqueued h.1
  · exact absurd hqueued h.1
  · exact absurd hqueued h.1

/-- What the phase counts for in what is left to do. -/
def Phase.weight : Phase → Nat
  | .idle => 3
  | .connecting => 2
  | .prompting => 1
  | .waiting => 2
  | .done => 0

/-- What is left of a client to do, as a number: every line costs a request, its
handling and a reply. -/
def Process.measure (process : Process) : Nat :=
  4 * process.input.length + 2 * process.requests.length + process.phase.weight +
    (!process.routerClosed).toNat

section Client

variable {aes} {process process' : Process} {key : SessionKey} {queued served : Prop}

/-- A `send` puts one segment on the way at the most. -/
theorem Process.send_requests_length_le (process : Process) (m : Bytes) :
    (process.send aes key m).requests.length ≤ process.requests.length + 1 := by
  unfold Process.send
  split
  · exact Nat.le_succ _
  · rw [List.length_append, List.length_singleton]

/-- A client at its prompt goes on to a consistent state, with less to do. -/
theorem Process.type_consistent (h : process.Consistent queued served)
    (htype : process.type aes key = some process') :
    process'.Consistent queued served ∧ process'.measure < process.measure := by
  obtain ⟨hphase, hcases⟩ := Process.type_cases htype
  unfold Process.Consistent at h
  rw [hphase] at h
  obtain ⟨hqueued, hserved⟩ := h
  rcases hcases with ⟨hinput, rfl⟩ | ⟨line, input, hinput, ⟨m, -, rfl⟩ | ⟨-, rfl⟩ | ⟨-, rfl⟩⟩
  · refine ⟨⟨hqueued, hserved, rfl⟩, ?_⟩
    simp only [Process.measure, hphase, Phase.weight]
    omega
  · refine ⟨⟨hqueued, hserved, ?_⟩, ?_⟩
    · by_cases hclosed : process.clientClosed = true
      · exact .inl hclosed
      · refine .inr (.inr (.inl ?_))
        simp only [Process.send, if_neg hclosed]
        exact List.concat_ne_nil _ _
    · have hsent : (Process.send aes key { process with input := input } m).requests.length ≤
          process.requests.length + 1 := Process.send_requests_length_le _ m
      simp only [Process.measure, hphase, hinput, List.length_cons, Phase.weight]
      simp only [Process.send] at hsent ⊢
      omega
  · have hsent : (Process.send aes key { process with input := input } (ascii "EXIT")).requests.length ≤
        process.requests.length + 1 := Process.send_requests_length_le _ _
    refine ⟨⟨hqueued, hserved, rfl⟩, ?_⟩
    simp only [Process.measure, hphase, hinput, List.length_cons, Phase.weight]
    simp only [Process.send] at hsent ⊢
    omega
  · refine ⟨?_, ?_⟩
    · unfold Process.Consistent
      simp only [hphase]
      exact ⟨hqueued, hserved⟩
    · simp only [Process.measure, hphase, hinput, List.length_cons]
      omega

/-- So does a client that takes a reply. -/
theorem Process.takeReply_consistent (h : process.Consistent queued served)
    (htake : process.takeReply aes key = some process') :
    process'.Consistent queued served ∧ process'.measure < process.measure := by
  obtain ⟨hphase, pending, replies, rfl⟩ := Process.takeReply_cases htake
  unfold Process.Consistent at h
  rw [hphase] at h
  refine ⟨⟨h.1, h.2.1⟩, ?_⟩
  simp only [Process.measure, Process.receive, hphase, Phase.weight]
  omega

end Client

section Network

variable {ι : Type} [DecidableEq ι] {σ : Type}

/-- **Invariant.** -/
structure Network.Consistent (network : Network ι σ) : Prop where
  clients : ∀ c, (network.clients c).Consistent (c ∈ network.backlog) (network.serving = some c)
  nodup : network.backlog.Nodup

omit [DecidableEq ι] in
theorem Network.start_consistent (input : ι → List Line) (nonces : ι → Stream' Nonce)
    (router : RouterState σ) : (Network.start input nonces router).Consistent where
  clients c := ⟨List.not_mem_nil, Option.some_ne_none c ∘ Eq.symm, rfl⟩
  nodup := List.nodup_nil

/-- One client has moved, and has less to do; the others are as they were. -/
def Network.Moved (before after : Network ι σ) : Prop :=
  ∃ c, (after.clients c).measure < (before.clients c).measure ∧
    ∀ d, d ≠ c → after.clients d = before.clients d

/-- A client that moves by itself. -/
theorem Network.Consistent.update {network : Network ι σ} (h : network.Consistent) {c : ι}
    {process : Process}
    (hprocess : process.Consistent (c ∈ network.backlog) (network.serving = some c) ∧
      process.measure < (network.clients c).measure) :
    (network.update c process).Consistent ∧ network.Moved (network.update c process) := by
  refine ⟨⟨fun d => ?_, h.nodup⟩, c, ?_, fun d hd => Function.update_of_ne hd _ _⟩
  · by_cases hd : d = c
    · subst hd
      simp only [Network.update, Function.update_self]
      exact hprocess.1
    · simp only [Network.update, Function.update_of_ne hd]
      exact h.clients d
  · simp only [Network.update, Function.update_self]
    exact hprocess.2

variable (serverSessionKeys : Fin numServers → SessionKey) (exchange : Exchange σ)

/-- The router handles what the client it serves has sent, or the end of the
stream. -/
theorem Network.Consistent.handle {network : Network ι σ} (h : network.Consistent) {c : ι}
    (hserving : network.serving = some c) {requests : List Bytes} {pending : Option Bytes}
    (hless : requests.length < (network.clients c).requests.length ∨
      requests = (network.clients c).requests ∧ pending = some []) :
    let after := network.handle aes serverSessionKeys exchange c
      { network.clients c with requests := requests } pending
    after.Consistent ∧ network.Moved after := by
  intro after
  let router := Router.step aes serverSessionKeys exchange network.router (.deliver pending)
  let process : Process := { network.clients c with
    requests := requests
    replies := (network.clients c).replies ++
      (router.answers.drop network.router.answers.length).map Answer.record
    routerClosed := router.session.isNone }
  have hserved : after.serving = some c ↔ router.session.isNone = false := by
    change (if router.session.isNone then none else some c) = some c ↔ _
    cases router.session.isNone with
    | false => exact iff_of_true rfl rfl
    | true => exact iff_of_false (Option.some_ne_none c ∘ Eq.symm) Bool.noConfusion
  have hother : ∀ d, d ≠ c → (after.serving = some d ↔ network.serving = some d) := by
    intro d hd
    rw [hserving, Option.some.injEq]
    refine iff_of_false ?_ (Ne.symm hd)
    change (if router.session.isNone then none else some c) ≠ some d
    split
    · exact Option.some_ne_none d ∘ Eq.symm
    · exact fun heq => hd (Option.some.inj heq).symm
  -- where the session goes on, a record was sent
  have hsent : router.session.isNone = true ∨
      (router.answers.drop network.router.answers.length).map Answer.record ≠ [] := by
    rcases step_deliver_cases aes serverSessionKeys exchange network.router pending with
      ⟨hnone, -⟩ | ⟨-, a, hanswers⟩
    · exact .inl (Option.isNone_iff_eq_none.mpr hnone)
    · refine .inr ?_
      rw [hanswers, List.drop_left]
      exact List.cons_ne_nil _ _
  have hclient := h.clients c
  have hopen := hclient.open_of_served hserving
  refine ⟨⟨fun d => ?_, h.nodup⟩, c, ?_, fun d hd => Function.update_of_ne hd _ _⟩
  · by_cases hd : d = c
    · subst hd
      have hafter : after.clients d = process := Function.update_self _ _ _
      rw [hafter]
      unfold Process.Consistent at hclient ⊢
      simp only [process]
      cases hphase : (network.clients d).phase with
      | idle =>
          rw [hphase] at hclient
          exact absurd hserving hclient.2.1
      | connecting =>
          rw [hphase] at hclient
          exact absurd hserving hclient.2.1
      | prompting =>
          rw [hphase] at hclient
          exact ⟨hclient.1, hserved⟩
      | waiting =>
          rw [hphase] at hclient
          refine ⟨hclient.1, hserved, ?_⟩
          rcases hsent with hnone | hrecord
          · exact .inr (.inl hnone)
          · exact .inr (.inr (.inr (List.append_ne_nil_of_right_ne_nil _ hrecord)))
      | done =>
          rw [hphase] at hclient
          exact ⟨hclient.1, hserved, hclient.2.2⟩
    · have hsame : (after.clients d).Consistent (d ∈ after.backlog) (after.serving = some d) ↔
          (network.clients d).Consistent (d ∈ network.backlog) (network.serving = some d) := by
        rw [show after.clients d = network.clients d from Function.update_of_ne hd _ _,
          propext (hother d hd)]
        rfl
      exact hsame.mpr (h.clients d)
  · have hafter : after.clients c = process := Function.update_self _ _ _
    rw [hafter]
    simp only [Process.measure, process, hopen, Bool.not_false, Bool.toNat_true]
    rcases hless with hshorter | ⟨rfl, rfl⟩
    · have hle := Bool.toNat_le (!router.session.isNone)
      omega
    · have hnone : router.session.isNone = true := Option.isNone_iff_eq_none.mpr
        (step_deliver_eof aes serverSessionKeys exchange network.router)
      rw [hnone, Bool.not_true, Bool.toNat_false]
      omega

variable (keys : ι → SessionKey) {aes serverSessionKeys exchange keys}

/-- **One action** keeps the invariant and leaves less to do. -/
theorem Network.Consistent.step {network network' : Network ι σ} {action : Action ι}
    (h : network.Consistent)
    (hstep : network.step aes keys serverSessionKeys exchange action = some network') :
    network'.Consistent ∧ network.Moved network' := by
  cases action with
  | connect c =>
      obtain ⟨hphase, rfl⟩ := Network.step_connect hstep
      have hidle := h.clients c
      unfold Process.Consistent at hidle
      rw [hphase] at hidle
      refine ⟨⟨fun d => ?_, ?_⟩, c, ?_, fun d hd => Function.update_of_ne hd _ _⟩
      · by_cases hd : d = c
        · subst hd
          simp only [Network.update, Function.update_self]
          exact ⟨List.mem_append_right _ (List.mem_singleton_self d), hidle.2.1, hidle.2.2⟩
        · have hqueued : d ∈ network.backlog ++ [c] ↔ d ∈ network.backlog := by
            rw [List.mem_append, List.mem_singleton, or_iff_left hd]
          simp only [Network.update, Function.update_of_ne hd, hqueued]
          exact h.clients d
      · refine h.nodup.append (List.nodup_singleton c) ?_
        rw [List.disjoint_singleton]
        exact hidle.1
      · simp only [Network.update, Function.update_self, Process.measure, hphase,
          Phase.weight]
        omega
  | accept =>
      obtain ⟨c, backlog, hserving, hbacklog, rfl⟩ := Network.step_accept hstep
      have hnodup := h.nodup
      rw [hbacklog, List.nodup_cons] at hnodup
      have hqueued : c ∈ network.backlog := by
        rw [hbacklog]
        exact List.mem_cons_self
      have hphase := (h.clients c).connecting_of_queued hqueued
      have hwaiting := h.clients c
      unfold Process.Consistent at hwaiting
      rw [hphase] at hwaiting
      refine ⟨⟨fun d => ?_, hnodup.2⟩, c, ?_, fun d hd => Function.update_of_ne hd _ _⟩
      · by_cases hd : d = c
        · subst hd
          simp only [Network.update, Function.update_self]
          exact ⟨hnodup.1, iff_of_true trivial hwaiting.2.2⟩
        · have hstill : d ∈ network.backlog ↔ d ∈ backlog := by
            rw [hbacklog, List.mem_cons, or_iff_right hd]
          have hserved : network.serving = some d ↔ (some c : Option ι) = some d := by
            rw [hserving]
            exact iff_of_false (Option.some_ne_none d ∘ Eq.symm)
              (fun heq => hd (Option.some.inj heq).symm)
          simp only [Network.update, Function.update_of_ne hd, ← hstill, ← hserved]
          exact h.clients d
      · simp only [Network.update, Function.update_self, Process.measure, hphase, Phase.weight]
        omega
  | type c =>
      obtain ⟨process, htype, rfl⟩ := Option.map_eq_some_iff.mp hstep
      exact h.update (Process.type_consistent (h.clients c) htype)
  | serve =>
      obtain ⟨c, hserving, ⟨segment, requests, hrequests, rfl⟩ | ⟨-, -, rfl⟩⟩ :=
        Network.step_serve hstep
      · refine h.handle aes serverSessionKeys exchange hserving (.inl ?_)
        rw [hrequests]
        exact Nat.lt_succ_self _
      · exact h.handle aes serverSessionKeys exchange hserving (.inr ⟨rfl, rfl⟩)
  | takeReply c =>
      obtain ⟨process, htake, rfl⟩ := Option.map_eq_some_iff.mp hstep
      exact h.update (Process.takeReply_consistent (h.clients c) htake)

/-! ## No deadlock -/

/-- The router has served the client to the end. -/
def Process.Finished (process : Process) : Prop :=
  process.phase = .done ∧ process.routerClosed = true

/-- **No deadlock.**  Where no party can act, every client is served to its end. -/
theorem Network.Consistent.finished_of_stuck {network : Network ι σ} (h : network.Consistent)
    (hstuck : Schedules.Stuck (Network.step aes keys serverSessionKeys exchange) network) (c : ι) :
    (network.clients c).Finished := by
  have htype : ∀ d, (network.clients d).phase ≠ .prompting := by
    intro d hphase
    obtain ⟨process, hprocess⟩ := Process.exists_type aes (keys d) hphase
    exact Option.some_ne_none _ ((congrArg (Option.map (network.update d)) hprocess).symm.trans
      (hstuck (.type d)))
  have htake : ∀ d, (network.clients d).phase = .waiting →
      ¬((network.clients d).clientClosed = true ∨ (network.clients d).routerClosed = true ∨
        (network.clients d).replies ≠ []) := by
    intro d hphase hpending
    obtain ⟨process, hprocess⟩ := Process.exists_takeReply aes (keys d) hphase hpending
    exact Option.some_ne_none _ ((congrArg (Option.map (network.update d)) hprocess).symm.trans
      (hstuck (.takeReply d)))
  -- the router waits for nobody
  have hidle : network.serving = none := by
    cases hserving : network.serving with
    | none => rfl
    | some d =>
        have hserve := hstuck .serve
        simp only [Network.step, hserving] at hserve
        have hclient := h.clients d
        unfold Process.Consistent at hclient
        cases hphase : (network.clients d).phase with
        | idle =>
            rw [hphase] at hclient
            exact absurd hserving hclient.2.1
        | connecting =>
            rw [hphase] at hclient
            exact absurd hserving hclient.2.1
        | prompting => exact absurd hphase (htype d)
        | waiting =>
            rw [hphase] at hclient
            obtain ⟨-, -, hclosed | hclosed | hrequests | hreplies⟩ := hclient
            · exact absurd (.inl hclosed) (htake d hphase)
            · exact absurd (.inr (.inl hclosed)) (htake d hphase)
            · split at hserve
              · cases hserve
              · rename_i hempty
                exact absurd hempty hrequests
            · exact absurd (.inr (.inr hreplies)) (htake d hphase)
        | done =>
            rw [hphase] at hclient
            split at hserve
            · cases hserve
            · rw [if_pos hclient.2.2] at hserve
              cases hserve
  have hclient := h.clients c
  unfold Process.Consistent at hclient
  cases hphase : (network.clients c).phase with
  | idle =>
      have hconnect := hstuck (.connect c)
      simp only [Network.step, hphase, ne_eq, not_true_eq_false, if_false] at hconnect
      cases hconnect
  | connecting =>
      rw [hphase] at hclient
      have haccept := hstuck .accept
      obtain ⟨first, backlog, hbacklog⟩ := List.exists_cons_of_ne_nil (List.ne_nil_of_mem hclient.1)
      simp only [Network.step, hidle, hbacklog] at haccept
      cases haccept
  | prompting => exact absurd hphase (htype c)
  | waiting =>
      rw [hphase, hidle] at hclient
      refine absurd (.inr (.inl ?_)) (htake c hphase)
      exact Bool.eq_true_of_not_eq_false fun hopen =>
        Option.some_ne_none c (hclient.2.1.mpr hopen).symm
  | done =>
      rw [hphase, hidle] at hclient
      refine ⟨hphase, ?_⟩
      exact Bool.eq_true_of_not_eq_false fun hopen =>
        Option.some_ne_none c (hclient.2.1.mpr hopen).symm

/-- What is left of all clients to do. -/
def Network.measure [Fintype ι] (network : Network ι σ) : Nat :=
  ∑ c, (network.clients c).measure

omit [DecidableEq ι] in
theorem Network.Moved.measure_lt [Fintype ι] {before after : Network ι σ}
    (h : before.Moved after) : after.measure < before.measure := by
  obtain ⟨c, hless, hother⟩ := h
  refine Finset.sum_lt_sum (fun d _ => ?_) ⟨c, Finset.mem_univ c, hless⟩
  by_cases hd : d = c
  · rw [hd]
    exact Nat.le_of_lt hless
  · rw [hother d hd]

/-- **Every schedule completes.**  However the clients and the router take turns, there
are at most four actions to a line that is typed, and four more to a client; and
after whatever has been done so far the parties can go on until the router has
served every client to its end.  Where no party can act, that is done. -/
theorem Network.every_schedule_completes [Fintype ι] (input : ι → List Line)
    (nonces : ι → Stream' Nonce) (router : RouterState σ) {schedule : List (Action ι)}
    {network : Network ι σ}
    (hrun : (Network.start input nonces router).run aes keys serverSessionKeys exchange schedule =
      some network) :
    schedule.length ≤ ∑ c, (4 * (input c).length + 4) ∧
      (Schedules.Stuck (Network.step aes keys serverSessionKeys exchange) network →
        ∀ c, (network.clients c).Finished) ∧
      ∃ more network', network.run aes keys serverSessionKeys exchange more = some network' ∧
        ∀ c, (network'.clients c).Finished := by
  have hstep : ∀ {before after : Network ι σ} {action}, before.Consistent →
      before.step aes keys serverSessionKeys exchange action = some after →
        after.Consistent ∧ after.measure < before.measure := by
    intro before after action hinv haction
    obtain ⟨hafter, hmoved⟩ := hinv.step haction
    exact ⟨hafter, hmoved.measure_lt⟩
  have hstart := Network.start_consistent input nonces router
  have hconsistent : network.Consistent :=
    Schedules.run_invariant (fun hinv haction => (hinv.step haction).1) hstart hrun
  refine ⟨?_, fun hstuck => hconsistent.finished_of_stuck hstuck, ?_⟩
  · have hlength := Schedules.run_length_le hstep hstart hrun
    have hmeasure : (Network.start input nonces router).measure =
        ∑ c, (4 * (input c).length + 4) := rfl
    omega
  · obtain ⟨more, network', hmore, hinv, hstuck⟩ :=
      Schedules.exists_stuck_extension hstep hconsistent
    exact ⟨more, network', hmore, hinv.finished_of_stuck hstuck⟩

/-- A router with nothing behind its server sockets: every `recv` on them fails. -/
def unansweredRouter : RouterState Unit :=
  ⟨none, 0, Stream'.const (List.Vector.replicate _ 1), (), []⟩

/-- Two clients, each of which will store once and end its input, with one session
key and one nonce. -/
def twoClients : Network Bool Unit :=
  .start (fun _ => [⟨ascii "store\n", 5⟩]) (fun _ => Stream'.const (List.Vector.replicate _ 1))
    unansweredRouter

/-- The two clients after a schedule. -/
abbrev runTwoClients (network : Network Bool Unit) (schedule : List (Action Bool)) :
    Option (Network Bool Unit) :=
  network.run clearAes (fun _ => List.Vector.replicate _ 7) (fun _ => List.Vector.replicate _ 7)
    (fun _ _ servers => (none, servers)) schedule

/-! ## A silent client -/

/-- The client is being served and has neither sent anything that is not handled nor
closed the connection. -/
def Network.WaitsFor (network : Network ι σ) (c : ι) : Prop :=
  network.serving = some c ∧ (network.clients c).phase = .prompting ∧
    (network.clients c).requests = [] ∧ (network.clients c).clientClosed = false

/-- Moves of other clients leave the router waiting. -/
theorem Network.WaitsFor.update {network : Network ι σ} {c d : ι} (h : network.WaitsFor c)
    (hd : d ≠ c) (process : Process) : (network.update d process).WaitsFor c := by
  have hsame : (network.update d process).clients c = network.clients c :=
    Function.update_of_ne (Ne.symm hd) _ _
  unfold Network.WaitsFor
  rw [hsame]
  exact h

/-- **A silent client blocks the others.**  While the client that is being served
types nothing, the router does nothing, whatever the others do: nobody is
accepted, and no request of anybody is handled. -/
theorem Network.silent_client_blocks {network network' : Network ι σ} {c : ι}
    {schedule : List (Action ι)} (hwaits : network.WaitsFor c)
    (hsilent : ∀ action ∈ schedule, action ≠ .type c)
    (hrun : network.run aes keys serverSessionKeys exchange schedule = some network') :
    network'.router = network.router ∧ network'.accepted = network.accepted ∧
      network'.events = network.events ∧ network'.WaitsFor c := by
  let Waiting (after : Network ι σ) : Prop :=
    after.router = network.router ∧ after.accepted = network.accepted ∧
      after.events = network.events ∧ after.WaitsFor c
  have hwaiting : Waiting network := ⟨rfl, rfl, rfl, hwaits⟩
  suffices hkept : Waiting network' from hkept
  refine Schedules.run_invariant_of_allowed ?_ hwaiting hsilent hrun
  rintro before after action ⟨hrouter, haccepted, hevents, hbefore⟩ haction hstep
  obtain ⟨hserving, hphase, hrequests, hopen⟩ := hbefore
  cases action with
  | connect d =>
      obtain ⟨hidle, rfl⟩ := Network.step_connect hstep
      have hd : d ≠ c := by
        rintro rfl
        rw [hphase] at hidle
        cases hidle
      exact ⟨hrouter, haccepted, hevents,
        Network.WaitsFor.update ⟨hserving, hphase, hrequests, hopen⟩ hd _⟩
  | accept =>
      obtain ⟨d, -, hnone, -⟩ := Network.step_accept hstep
      rw [hserving] at hnone
      cases hnone
  | type d =>
      obtain ⟨process, -, rfl⟩ := Option.map_eq_some_iff.mp hstep
      have hd : d ≠ c := by
        rintro rfl
        exact haction rfl
      exact ⟨hrouter, haccepted, hevents,
        Network.WaitsFor.update ⟨hserving, hphase, hrequests, hopen⟩ hd _⟩
  | serve =>
      simp only [Network.step, hserving, hrequests, hopen, Bool.false_eq_true, if_false] at hstep
      cases hstep
  | takeReply d =>
      obtain ⟨process, htake, rfl⟩ := Option.map_eq_some_iff.mp hstep
      have hd : d ≠ c := by
        rintro rfl
        have hwaiting := (Process.takeReply_cases htake).1
        rw [hphase] at hwaiting
        cases hwaiting
      exact ⟨hrouter, haccepted, hevents,
        Network.WaitsFor.update ⟨hserving, hphase, hrequests, hopen⟩ hd _⟩

/-- The theorem where the second client connects while the first is being served. -/
theorem Network.silent_client_blocks_second_client :
    ∃ network network', runTwoClients twoClients [.connect false, .accept] = some network ∧
      runTwoClients network [.connect true] = some network' ∧
      network'.router = network.router ∧ network'.accepted = network.accepted ∧
      network'.events = network.events ∧ network'.WaitsFor false := by
  have hsilent : ∀ action ∈ [Action.connect true], action ≠ .type false :=
    List.forall_mem_singleton.mpr (fun h => nomatch h)
  exact ⟨_, _, rfl, rfl, silent_client_blocks ⟨rfl, rfl, rfl, rfl⟩ hsilent
    (show runTwoClients _ [.connect true] = some _ from rfl)⟩

end Network

end ShardedLedger.Deployment
