import ShardedLedger.Deployment.Serial
import ShardedLedger.Router.Service
set_option autoImplicit false

/-!
# Deployment: no send ends a process

A send to an end that is closed would end the process that makes it, sooner or
later.  With the client of this program that does not come about: it waits for each
reply, and what it sends makes no shard leave its loop (`Serial.sendsArrive`).  So
the schedules of `Progress` are those of real processes.
-/

namespace ShardedLedger.Deployment

open CString Channel Router Server Sha256 RoundRobin

/-- The sends of an action go to ends that are open: those of the router to the shards
and to the client it is serving, and those of the clients to the router. -/
structure SendsArrive {ι : Type} (before after : Network ι Shards) : Prop where
  commands : InService before.router.servers ∧ InService after.router.servers
  replies : after.router.answers ≠ before.router.answers →
    ∀ c, before.serving = some c → (before.clients c).clientClosed = false
  requests : ∀ c, (before.clients c).requests.length < (after.clients c).requests.length →
    (before.clients c).routerClosed = false

section Network

variable {ι : Type} [DecidableEq ι] {sha256 : Bytes → Digest} {aes : AesGcm}
  {keys : ι → SessionKey} {input : ι → List Line} {clientNonces : ι → Stream' Nonce}
  {serverSessionKeys : Fin numServers → SessionKey} {allocates : Prop}
  {network network' : Network ι Shards}

/-- Where a client is replaced that has sent nothing, nobody has. -/
theorem not_sent_of_update {clients : ι → Process} {c : ι} {process : Process}
    (h : process.requests.length ≤ (clients c).requests.length) (d : ι) :
    ¬ (clients d).requests.length < (Function.update clients c process d).requests.length := by
  refine Nat.not_lt_of_le ?_
  by_cases hd : d = c
  · subst hd
    rwa [Function.update_self]
  · rw [Function.update_of_ne hd]

omit [DecidableEq ι] in
/-- The router has not closed the connection it is serving. -/
theorem Serving.routerClosed {key : SessionKey} {S : List Bytes} {process : Process}
    {todo : List Event} {expect : List Bytes}
    (h : Serving sha256 aes key S process todo expect) : process.routerClosed = false := by
  cases h with
  | prompting => rfl
  | asked => rfl
  | answered => rfl
  | leaving => rfl
  | ended => rfl

/-- The router replies when it handles a request, and then its client waits. -/
theorem Serial.reply_arrives
    (h : Serial sha256 aes keys input clientNonces serverSessionKeys allocates network)
    {action : Action ι}
    (hstep : network.step aes keys serverSessionKeys (shardExchange sha256 aes) action =
      some network')
    (hreplied : network'.router.answers ≠ network.router.answers) {d : ι}
    (hserving : network.serving = some d) : (network.clients d).clientClosed = false := by
  cases action with
  | connect c =>
      obtain ⟨-, rfl⟩ := Network.step_connect hstep
      exact absurd rfl hreplied
  | accept =>
      obtain ⟨c, backlog, hidle, -, -⟩ := Network.step_accept hstep
      rw [hidle] at hserving
      cases hserving
  | type c =>
      obtain ⟨process, -, rfl⟩ := Option.map_eq_some_iff.mp hstep
      exact absurd rfl hreplied
  | takeReply c =>
      obtain ⟨process, -, rfl⟩ := Option.map_eq_some_iff.mp hstep
      exact absurd rfl hreplied
  | serve =>
      obtain ⟨_, _, _, -, hstage, -⟩ := h.serving d hserving
      have hsession : network.router.session = some (keys d) := by
        rw [h.session_eq, hserving]
        rfl
      simp only [Network.step, hserving] at hstep
      generalize network.clients d = process at hstage hstep ⊢
      cases hstage with
      | prompting => rfl
      | asked => rfl
      | answered => rfl
      | leaving nonce rest nonces responses =>
          simp only [Option.some.injEq] at hstep
          rw [← hstep, Network.handle_of_end serverSessionKeys (step_leaving hsession nonce)]
            at hreplied
          exact absurd rfl hreplied
      | ended nonces responses =>
          simp only [if_true, Option.some.injEq] at hstep
          rw [← hstep, Network.handle_of_end serverSessionKeys (step_ended hsession)] at hreplied
          exact absurd rfl hreplied

/-- A client sends at its prompt, and then the router has not closed. -/
theorem Serial.request_arrives
    (h : Serial sha256 aes keys input clientNonces serverSessionKeys allocates network)
    {action : Action ι}
    (hstep : network.step aes keys serverSessionKeys (shardExchange sha256 aes) action =
      some network') {d : ι}
    (hsent : (network.clients d).requests.length < (network'.clients d).requests.length) :
    (network.clients d).routerClosed = false := by
  cases action with
  | connect c =>
      obtain ⟨-, rfl⟩ := Network.step_connect hstep
      refine absurd hsent (not_sent_of_update (c := c) ?_ d)
      exact Nat.le_refl _
  | accept =>
      obtain ⟨c, backlog, -, -, rfl⟩ := Network.step_accept hstep
      refine absurd hsent (not_sent_of_update (c := c) ?_ d)
      exact Nat.le_refl _
  | serve =>
      obtain ⟨c, -, ⟨segment, requests, hrequests, rfl⟩ | ⟨-, -, rfl⟩⟩ := Network.step_serve hstep
      · refine absurd hsent (not_sent_of_update (c := c) ?_ d)
        rw [hrequests]
        exact Nat.le_succ _
      · refine absurd hsent (not_sent_of_update (c := c) ?_ d)
        exact Nat.le_refl _
  | takeReply c =>
      obtain ⟨process, htake, rfl⟩ := Option.map_eq_some_iff.mp hstep
      obtain ⟨-, pending, replies, rfl⟩ := Process.takeReply_cases htake
      refine absurd hsent (not_sent_of_update (c := c) ?_ d)
      exact Nat.le_refl _
  | type c =>
      obtain ⟨process, htype, rfl⟩ := Option.map_eq_some_iff.mp hstep
      by_cases hd : d = c
      · subst hd
        have hserving := h.serving_of_phase (.inl (Process.type_cases htype).1)
        obtain ⟨_, _, _, -, hstage, -⟩ := h.serving d hserving
        exact hstage.routerClosed
      · rw [show (network.update c process).clients d = network.clients d from
          Function.update_of_ne hd _ _] at hsent
        exact absurd hsent (Nat.lt_irrefl _)

/-- **One action** of a schedule in order sends nothing to an end that is closed. -/
theorem Serial.sendsArrive
    (h : Serial sha256 aes keys input clientNonces serverSessionKeys allocates network)
    (h' : Serial sha256 aes keys input clientNonces serverSessionKeys allocates network')
    {action : Action ι}
    (hstep : network.step aes keys serverSessionKeys (shardExchange sha256 aes) action =
      some network') : SendsArrive network network' where
  commands := ⟨h.lockstep.inService, h'.lockstep.inService⟩
  replies hreplied _ hserving := h.reply_arrives hstep hreplied hserving
  requests _ hsent := h.request_arrives hstep hsent

/-! ## Schedules -/

variable (sha256 aes keys input clientNonces serverSessionKeys) (nonces : Stream' Nonce)
  (serverNonces : Fin numServers → Stream' Nonce)
  (mallocs : Fin numServers → Stream' (Option RawBlock))

/-- The router of a schedule is that of a run of the system, and nothing hashed is
forgotten. -/
theorem hashed_of_run {before after : Network ι Shards} {schedule : List (Action ι)}
    (hbefore : ∃ events, before.router =
      system sha256 aes serverSessionKeys nonces serverNonces mallocs events)
    (hrun : before.run aes keys serverSessionKeys (shardExchange sha256 aes) schedule =
      some after) :
    (∃ events, after.router =
        system sha256 aes serverSessionKeys nonces serverNonces mallocs events) ∧
      hashedStrings before.router.servers ⊆ hashedStrings after.router.servers := by
  let Inv (network : Network ι Shards) : Prop :=
    (∃ events, network.router =
      system sha256 aes serverSessionKeys nonces serverNonces mallocs events) ∧
      hashedStrings before.router.servers ⊆ hashedStrings network.router.servers
  have hinitial : Inv before := ⟨hbefore, fun _ hs => hs⟩
  suffices hinv : Inv after from hinv
  refine Schedules.run_invariant ?_ hinitial hrun
  rintro here there action ⟨⟨events, hrouter⟩, hsubset⟩ hstep
  rcases Network.router_of_step hstep with ⟨hsame, -⟩ | ⟨event, hnext, -⟩
  · exact ⟨⟨events, hsame.trans hrouter⟩, hsame ▸ hsubset⟩
  · have hsystem : there.router =
        system sha256 aes serverSessionKeys nonces serverNonces mallocs (events ++ [event]) := by
      rw [hnext, hrouter]
      exact (system_concat sha256 aes serverSessionKeys nonces serverNonces mallocs _ _).symm
    refine ⟨⟨_, hsystem⟩, List.Subset.trans hsubset ?_⟩
    rw [hsystem, hrouter]
    exact hashedStrings_subset sha256
      (system_grows sha256 aes serverSessionKeys nonces serverNonces mallocs _ _)

/-- **Every schedule completes, and no send ends a process.**  However the clients and
the router take turns, there are at most four actions to a line that is typed, and
four more to a client; the parties can always go on until the router has served every
client to its end, and where no party can act, that is done; and at every action the
sends that it makes go to ends that are open. -/
theorem Network.every_schedule_completes_unharmed [Fintype ι]
    (hmallocs : ∀ i n, ((mallocs i).get n).isSome) {schedule : List (Action ι)}
    (hrun : (deployment input clientNonces serverSessionKeys nonces serverNonces mallocs).run aes
      keys serverSessionKeys (shardExchange sha256 aes) schedule = some network)
    (hfree : CollisionFreeOn sha256 (hashedStrings network.router.servers)) :
    schedule.length ≤ ∑ c, (4 * (input c).length + 4) ∧
      (Schedules.Stuck (Network.step aes keys serverSessionKeys (shardExchange sha256 aes))
        network → ∀ c, (network.clients c).Finished) ∧
      (∃ more network', network.run aes keys serverSessionKeys (shardExchange sha256 aes) more =
        some network' ∧ ∀ c, (network'.clients c).Finished) ∧
      ∀ done action rest, schedule = done ++ action :: rest → ∃ before after,
        (deployment input clientNonces serverSessionKeys nonces serverNonces mallocs).run aes
          keys serverSessionKeys (shardExchange sha256 aes) done = some before ∧
        before.step aes keys serverSessionKeys (shardExchange sha256 aes) action = some after ∧
        SendsArrive before after := by
  obtain ⟨hlength, hstuck, hmore⟩ := Network.every_schedule_completes input clientNonces _ hrun
  refine ⟨hlength, hstuck, hmore, ?_⟩
  rintro done action rest rfl
  obtain ⟨before, after, hdone, hstep, hrest⟩ := Schedules.run_split hrun
  have hdone' : (deployment input clientNonces serverSessionKeys nonces serverNonces mallocs).run
      aes keys serverSessionKeys (shardExchange sha256 aes) (done ++ [action]) = some after := by
    change Schedules.run _ _ _ = _
    rw [Schedules.run_append, hdone]
    exact Schedules.run_cons_eq_some_iff.mpr ⟨after, hstep, rfl⟩
  have hstart : ∃ events,
      (deployment input clientNonces serverSessionKeys nonces serverNonces mallocs).router =
        system sha256 aes serverSessionKeys nonces serverNonces mallocs events := ⟨[], rfl⟩
  have hbefore := (hashed_of_run sha256 aes keys serverSessionKeys nonces serverNonces mallocs
    hstart hdone).1
  have hafter := (hashed_of_run sha256 aes keys serverSessionKeys nonces serverNonces mallocs
    hstart hdone').1
  have hone : before.run aes keys serverSessionKeys (shardExchange sha256 aes) [action] =
      some after := Schedules.run_cons_eq_some_iff.mpr ⟨after, hstep, rfl⟩
  have hfreeAfter := hfree.mono (hashed_of_run sha256 aes keys serverSessionKeys nonces
    serverNonces mallocs hafter hrest).2
  have hfreeBefore := hfreeAfter.mono (hashed_of_run sha256 aes keys serverSessionKeys nonces
    serverNonces mallocs hbefore hone).2
  exact ⟨before, after, hdone, hstep, Serial.sendsArrive
    (deployment_run sha256 aes keys input clientNonces serverSessionKeys nonces serverNonces
      mallocs hmallocs hdone hfreeBefore)
    (deployment_run sha256 aes keys input clientNonces serverSessionKeys nonces serverNonces
      mallocs hmallocs hdone' hfreeAfter) hstep⟩

/-- The theorem where one client stores and the other one retrieves. -/
theorem Network.every_schedule_completes_unharmed_two_clients :
    ∃ network, storeThenRetrieveRun = some network ∧
      storeThenRetrieveSchedule.length ≤ ∑ c, (4 * (storeThenRetrieve c).length + 4) ∧
      (Schedules.Stuck (Network.step clearAes (fun _ => exampleKey) (fun _ => exampleKey)
        (shardExchange Sha256.sha256 clearAes)) network → ∀ c, (network.clients c).Finished) ∧
      (∃ more network', network.run clearAes (fun _ => exampleKey) (fun _ => exampleKey)
        (shardExchange Sha256.sha256 clearAes) more = some network' ∧
          ∀ c, (network'.clients c).Finished) ∧
      ∀ done action rest, storeThenRetrieveSchedule = done ++ action :: rest → ∃ before after,
        storeThenRetrieveDeployment.run clearAes (fun _ => exampleKey) (fun _ => exampleKey)
          (shardExchange Sha256.sha256 clearAes) done = some before ∧
        before.step clearAes (fun _ => exampleKey) (fun _ => exampleKey)
          (shardExchange Sha256.sha256 clearAes) action = some after ∧
        SendsArrive before after := by
  have hhashed : storeThenRetrieveRun.map (fun network => hashedStrings network.router.servers) =
      some (List.replicate 3 (ascii "RandomData_5")) := by decide +kernel
  obtain ⟨network, hrun, hstrings⟩ := Option.map_eq_some_iff.mp hhashed
  have hfree : CollisionFreeOn Sha256.sha256 (hashedStrings network.router.servers) := by
    rw [hstrings]
    intro x hx y hy _
    rw [List.eq_of_mem_replicate hx, List.eq_of_mem_replicate hy]
  exact ⟨network, hrun, every_schedule_completes_unharmed Sha256.sha256 clearAes
    (fun _ => exampleKey) storeThenRetrieve (fun _ => Stream'.const exampleNonce)
    (fun _ => exampleKey) (Stream'.const exampleNonce) (fun _ => Stream'.const exampleNonce)
    (fun _ => Stream'.const (some zeroBlock)) (fun _ _ => rfl) hrun hfree⟩

end Network

end ShardedLedger.Deployment
