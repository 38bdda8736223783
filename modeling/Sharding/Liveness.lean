import Sharding.Delivery
import Sharding.Finality
import Sharding.System

/-! # The whole system gets there

A run of the whole system is a run of the cluster; here the system goes on for ever.
What it does is an execution of the cluster, in which the additions and dispatches are
those of the receiver, and nothing happens while threads and receiver are busy with
each other. `system_finalised`: a round the receiver dispatched has its block in the end.
-/

namespace Sharding

open ParallelFor

/-! ## What the shards see -/

/-- The run of the cluster in a step of the system: its own step, or no announcement. -/
def Segment (label : System.Label) (labels : List Cluster.Label) : Prop :=
  match label.back with
  | some l => labels = [l]
  | none => ∀ l ∈ labels, l.silent = true

/-- There is no follower 0. -/
theorem stutter (crypto : Crypto) (numShards : Nat) (s : Cluster) :
    s.step crypto numShards (.follower 0 Schedule.sequential) = .ok s := by
  have hnone : ¬ (1 ≤ 0 ∧ 0 < numShards) := by omega
  rw [Cluster.step, if_neg hnone]

section Steps

variable {cfg : Config} {crypto : Crypto} {s s' : System}

/-- A silent run, with a step that does nothing at its end. -/
theorem segment_silent {label : System.Label} (hback : label.back = none) {c c' : Cluster}
    {labels : List Cluster.Label} (hsilent : ∀ l ∈ labels, l.silent = true)
    (hrun : Run.run (Cluster.step crypto cfg.numShards) c labels = .ok c') :
    ∃ seg, seg ≠ [] ∧ Segment label seg ∧
      Run.run (Cluster.step crypto cfg.numShards) c seg = .ok c' := by
  refine ⟨labels ++ [.follower 0 Schedule.sequential], by simp, ?_, ?_⟩
  · rw [Segment, hback]
    show ∀ l ∈ labels ++ [_], l.silent = true
    rw [List.forall_mem_append]
    exact ⟨hsilent, List.forall_mem_singleton.mpr rfl⟩
  · rw [Run.run_append, hrun, Run.ok_bind, Run.run, stutter]
    rfl

/-- What a step of threads and receiver is for the pool and the assigner. -/
theorem Stepped.silent (hinv : SystemInv cfg crypto s) (hshards : cfg.numShards ≤ maxShards)
    (hout : s.cluster.outbox = []) {l : Submission.Label} {submission : Submission}
    (h : Stepped cfg crypto s.submission l submission) :
    ∃ labels, (∀ l ∈ labels, l.silent = true) ∧
      Run.run (Cluster.step crypto cfg.numShards) s.cluster labels =
        .ok (s.cluster.take submission.receiver.core) := by
  have htake : ∀ {a : Arrival} {receiver : Receiver} {reply : Reply},
      receive cfg crypto s.submission.receiver a = .ok (receiver, reply) →
      ∃ labels, (∀ l ∈ labels, l.silent = true) ∧
        Run.run (Cluster.step crypto cfg.numShards) s.cluster labels =
          .ok (s.cluster.take receiver.core) := by
    intro a receiver reply hreceive
    exact take_run (handled_of_receive (hinv.receiver hshards) hreceive) hinv.shared hout
  have hsame : ∃ labels, (∀ l ∈ labels, l.silent = true) ∧
      Run.run (Cluster.step crypto cfg.numShards) s.cluster labels =
        .ok (s.cluster.take s.submission.receiver.core) := by
    refine ⟨[], List.forall_mem_nil _, ?_⟩
    rw [take_self hinv.shared]
    rfl
  cases h with
  | send t batch hcurrent => exact hsame
  | serve t unpacks roundStartMs durationMs req receiver reply hsock hreceive => exact htake hreceive
  | reply t req old resp hcurrent hsock => exact hsame
  | timeout t req hcurrent => exact hsame
  | other a receiver reply hreceive => exact htake hreceive
  | idle => exact hsame

/-- A step of the system is a run of the cluster. -/
theorem Moved.back_run (hinv : SystemInv cfg crypto s) (hshards : cfg.numShards ≤ maxShards)
    {label : System.Label} (h : Moved cfg crypto s label s') :
    ∃ seg, seg ≠ [] ∧ Segment label seg ∧
      Run.run (Cluster.step crypto cfg.numShards) s.cluster seg = .ok s'.cluster := by
  cases h with
  | front l hfront hback submission hstep =>
      exact segment_silent hback (List.forall_mem_nil _) rfl
  | takes l hfront hback hout submission hstep replies =>
      have hstepped := (stepped hshards hinv.submission hstep).2
      rcases hstepped.silent hinv hshards hout with ⟨labels, hsilent, hrun⟩
      exact segment_silent hback hsilent hrun
  | back l hfront hback cluster hstep =>
      refine ⟨[l], List.cons_ne_nil _ _, ?_, ?_⟩
      · rw [Segment, hback]
      · rw [Run.run, hstep]
        rfl
  | waits hback => exact segment_silent hback (List.forall_mem_nil _) rfl

end Steps

/-! ## Executions -/

/-- The steps of the system in which a party takes its turn. -/
def Party.turn {numShards : Nat} : Party numShards → System → System.Label → Prop
  | .assigner, _, label => label = .push
  | .leader, s, label => ∃ drop source schedule, label = .leader drop source schedule ∧
      ((∃ j, s.cluster.results j ≠ []) → s.cluster.results source ≠ [])
  | .follower i _, _, label => ∃ schedule, label = .follower i schedule

theorem Party.turn_back {numShards : Nat} {c : Party numShards} {s : System} {label : System.Label}
    (h : c.turn s label) : ∃ l, label.back = some l ∧ c.moves s.cluster l := by
  cases c with
  | assigner =>
      obtain rfl : label = .push := h
      exact ⟨_, rfl, rfl⟩
  | leader =>
      rcases h with ⟨drop, source, schedule, rfl, hchoice⟩
      exact ⟨_, rfl, drop, source, schedule, rfl, hchoice⟩
  | follower i hi =>
      rcases h with ⟨schedule, rfl⟩
      exact ⟨_, rfl, schedule, rfl⟩

/-- Only a step of the leader announces. -/
theorem Segment.leader {label : System.Label} {labels : List Cluster.Label} (h : Segment label labels)
    {drop : Nat → Bool} {source : Nat} {schedule : (k : Nat) → Schedule k}
    (hmem : .leader drop source schedule ∈ labels) : label = .leader drop source schedule := by
  unfold Segment at h
  cases hback : label.back with
  | none =>
      rw [hback] at h
      cases h _ hmem
  | some l =>
      rw [hback] at h
      obtain rfl : labels = [l] := h
      rw [← List.mem_singleton.mp hmem] at hback
      cases label with
      | leader drop' source' schedule' =>
          obtain ⟨rfl, rfl, rfl⟩ := Cluster.Label.leader.inj (Option.some.inj hback)
          rfl
      | send => cases hback
      | reply => cases hback
      | timeout => cases hback
      | serve => cases hback
      | other => cases hback
      | push => cases hback
      | follower => cases hback

section Executions

variable {cfg : Config} {crypto : Crypto} {rand : Rand} {e : Run.Execution (System.step cfg crypto)}

theorem execution_system (hshards : cfg.numShards ≤ maxShards)
    (hstart : ∃ r, receiverInit cfg rand = .ok r ∧ e.state 0 = System.start cfg r) (n : Nat) :
    SystemInv cfg crypto (e.state n) := by
  have hzero : SystemInv cfg crypto (e.state 0) := by
    rcases hstart with ⟨r, hr, hzero⟩
    rcases start_system crypto hshards rand with ⟨r', hr', hinv⟩
    obtain rfl : r = r' := Except.ok.inj (hr.symm.trans hr')
    rw [hzero]
    exact hinv
  refine e.inv_from (SystemInv cfg crypto) ?_ hzero n (Nat.zero_le n)
  intro m _ h
  rcases systemStep_inv hshards (e.state m) (e.input m) h with ⟨t, ht, hinv, -⟩
  obtain rfl := Except.ok.inj (ht.symm.trans (e.next m))
  exact hinv

/-- Where everybody takes turns and no announcement gets lost, a round that was
dispatched has its block at some later time. -/
theorem execution_assembled (hshards : cfg.numShards ≤ maxShards)
    (hstart : ∃ r, receiverInit cfg rand = .ok r ∧ e.state 0 = System.start cfg r)
    (hfair : e.Fair (fun c : Party cfg.numShards => c.turn))
    (hlossless : ∀ n drop source schedule, e.input n = .leader drop source schedule →
      ∀ i, 1 ≤ i ∧ i < cfg.numShards → drop i = false)
    (n k : Nat) (hk : k < (e.state n).cluster.dispatcher.rounds.length) :
    ∃ m, n ≤ m ∧ k < (e.state m).cluster.blocks.length := by
  have hinit : (e.state 0).cluster = Cluster.create mempoolMaxSize cfg.numShards := by
    rcases hstart with ⟨r, -, hzero⟩
    rw [hzero]
    rfl
  -- the execution of the cluster
  choose seg hne hseg hrun using fun m =>
    (moved (e.next m)).back_run (execution_system hshards hstart m) hshards
  rcases Run.Execution.expand hrun hne with ⟨f, hfirst, hinput, hplace⟩
  have hfair' : f.Fair (fun c : Party cfg.numShards => c.moves) := by
    intro c m
    rcases hfair c m with ⟨m', hm', hturn⟩
    rcases Party.turn_back hturn with ⟨l, hback, hmoves⟩
    have hone := hseg m'
    rw [Segment, hback] at hone
    rcases hplace m' with ⟨j, hj, hstate, hlabel⟩
    refine ⟨j, Nat.le_trans hm' hj, ?_⟩
    rw [hstate, hlabel l hone]
    exact hmoves
  have hlossless' : ∀ j, Lossless cfg.numShards (f.input j) := by
    intro j drop source schedule hlabel
    rcases hinput j with ⟨m, hmem⟩
    rw [hlabel] at hmem
    exact hlossless m drop source schedule ((hseg m).leader hmem)
  rcases hplace n with ⟨j, -, hstate, -⟩
  rw [← hstate] at hk
  rcases block_assembled cfg.numShards_pos hshards (hfirst.trans hinit) hfair' hlossless' j k hk with
    ⟨m, -, hblock⟩
  -- the system gets to where the cluster is, or beyond
  rcases hplace (max m n) with ⟨j', hj', hstate', -⟩
  have hmono := (execution_mono (e := f) cfg.numShards_pos hshards (hfirst.trans hinit)
    (Nat.le_trans (Nat.le_max_left m n) hj')).1
  rw [hstate'] at hmono
  exact ⟨max m n, Nat.le_max_right m n, Nat.lt_of_lt_of_le hblock hmono⟩

end Executions

/-- The system goes on for ever, assigner, leader and followers taking turns between
whatever clients and receiver do, and no announcement gets lost: then every round the
receiver dispatched has its block at some later time, one that agrees with it. -/
theorem system_finalised (cfg : Config) (hshards : cfg.numShards ≤ maxShards) (crypto : Crypto)
    (rand : Rand) (e : Run.Execution (System.step cfg crypto))
    (hstart : ∃ r, receiverInit cfg rand = .ok r ∧ e.state 0 = System.start cfg r)
    (hfair : e.Fair (fun c : Party cfg.numShards => c.turn))
    (hlossless : ∀ n drop source schedule, e.input n = .leader drop source schedule →
      ∀ i, 1 ≤ i ∧ i < cfg.numShards → drop i = false)
    (n k : Nat) (hk : k < (e.state n).cluster.dispatcher.rounds.length) :
    ∃ m, n ≤ m ∧ ∃ header round b,
      (headersOf (e.state m).cluster.dispatcher.pushes)[k]? = some header ∧
      (e.state m).cluster.dispatcher.rounds[k]? = some round ∧
      (e.state m).cluster.blocks[k]? = some b ∧
      Agrees crypto cfg.numShards header round b := by
  rcases execution_assembled hshards hstart hfair hlossless n k hk with ⟨m, hm, hblock⟩
  rcases (execution_system hshards hstart m).cluster.agrees cfg.numShards_pos hblock with
    ⟨header, round, hheader, hround, hagrees⟩
  exact ⟨m, hm, header, round, _, hheader, hround, List.getElem?_eq_getElem hblock, hagrees⟩

/-- One client, one shard: a batch, the receiver, a send, and the leader, in turn. -/
def soloTurns (n : Nat) : System.Label :=
  if n % 4 = 0 then .send 0 oneTx
  else if n % 4 = 1 then .serve 0 true 0 0
  else if n % 4 = 2 then .push
  else .leader (fun _ => false) 0 Schedule.sequential

/-- These turns make an execution as it is asked for. -/
theorem soloTurns_execution : ∃ e : Run.Execution (System.step soloConfig Crypto.rejecting),
    e.input = soloTurns ∧
      (∃ r, receiverInit soloConfig ⟨fun _ => 0, 0⟩ = .ok r ∧ e.state 0 = System.start soloConfig r) ∧
      e.Fair (fun c : Party soloConfig.numShards => c.turn) ∧
      ∀ n drop source schedule, e.input n = .leader drop source schedule →
        ∀ i, 1 ≤ i ∧ i < soloConfig.numShards → drop i = false := by
  have hshards : soloConfig.numShards ≤ maxShards := by decide
  have hstep : ∀ s label, SystemInv soloConfig Crypto.rejecting s →
      ∃ s', s.step soloConfig Crypto.rejecting label = .ok s' ∧
        SystemInv soloConfig Crypto.rejecting s' := by
    intro s label hs
    rcases systemStep_inv hshards s label hs with ⟨s', hok, hs', -⟩
    exact ⟨s', hok, hs'⟩
  rcases start_system Crypto.rejecting hshards ⟨fun _ => 0, 0⟩ with ⟨r, hinit, hstart⟩
  rcases Run.Execution.exists_of_inv _ hstep _ hstart soloTurns with ⟨e, hzero, hinput, hinv⟩
  refine ⟨e, hinput, ⟨r, hinit, hzero⟩, ?_, ?_⟩
  · intro c n
    rw [hinput]
    cases c with
    | assigner =>
        refine ⟨4 * n + 2, by omega, ?_⟩
        simp [Party.turn, soloTurns, Nat.add_mod]
    | leader =>
        refine ⟨4 * n + 3, by omega, fun _ => false, 0, Schedule.sequential, ?_, ?_⟩
        · simp [soloTurns, Nat.add_mod]
        · -- nobody reports
          rintro ⟨j, hj⟩
          have hnobody : ¬ (1 ≤ j ∧ j < soloConfig.numShards) := by
            show ¬ (1 ≤ j ∧ j < 1)
            omega
          exact absurd ((hinv _).cluster.strangers j hnobody) hj
    | follower i hi => exact absurd (show i < 1 from hi.2) (by omega)
  · intro n drop source schedule _ i hi
    exact absurd (show i < 1 from hi.2) (by omega)

/-- After two of them there is a round, and a transaction was admitted. -/
theorem soloTurns_round {e : Run.Execution (System.step soloConfig Crypto.rejecting)}
    (hinput : e.input = soloTurns)
    (hstart : ∃ r, receiverInit soloConfig ⟨fun _ => 0, 0⟩ = .ok r ∧
      e.state 0 = System.start soloConfig r) :
    (e.state 2).cluster.dispatcher.rounds.length = 1 ∧
      (e.state 2).cluster.dispatcher.admitted.length = 1 := by
  rcases hstart with ⟨r, hinit, hzero⟩
  have hrun := e.run_input 2
  rw [hzero, hinput] at hrun
  have hcount : (receiverInit soloConfig ⟨fun _ => 0, 0⟩).toOption.bind (fun r =>
      (Run.run (System.step soloConfig Crypto.rejecting) (System.start soloConfig r)
        ((List.range 2).map soloTurns)).toOption.map
          fun s => (s.cluster.dispatcher.rounds.length, s.cluster.dispatcher.admitted.length)) =
      some (1, 1) := by decide +kernel
  rw [hinit] at hcount
  simp only [Except.toOption, Option.bind_some, hrun, Option.map_some] at hcount
  exact Prod.mk.inj (Option.some.inj hcount)

theorem system_finalised_solo :
    ∃ e : Run.Execution (System.step soloConfig Crypto.rejecting), e.input = soloTurns ∧
      ∃ m, 2 ≤ m ∧ ∃ header round b,
        (headersOf (e.state m).cluster.dispatcher.pushes)[0]? = some header ∧
        (e.state m).cluster.dispatcher.rounds[0]? = some round ∧
        (e.state m).cluster.blocks[0]? = some b ∧
        Agrees Crypto.rejecting soloConfig.numShards header round b := by
  rcases soloTurns_execution with ⟨e, hinput, hstart, hfair, hlossless⟩
  have hfirst : 0 < (e.state 2).cluster.dispatcher.rounds.length := by
    rw [(soloTurns_round hinput hstart).1]
    exact Nat.zero_lt_one
  exact ⟨e, hinput, system_finalised soloConfig (by decide) Crypto.rejecting ⟨fun _ => 0, 0⟩ e
    hstart hfair hlossless 2 0 hfirst⟩

end Sharding
