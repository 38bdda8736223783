import Sharding.Liveness

/-! # What becomes of an admitted transaction

A transaction the receiver has told a client it accepted is in the pool. There it stays
for as long as no further round is dispatched. The next dispatch either sends it to its
shard, and then a block counts it in the end, or leaves it in an array that nobody reads
any more. `admitted_fate`: exactly one of the three, in every fair execution.
-/

namespace Sharding

/-! ## Pool, rounds, or neither -/

/-- `x` was admitted, but is neither in the pool nor in a round. -/
structure LeftBehind (d : Dispatcher) (x : Entry) : Prop where
  admitted : x ∈ d.admitted
  not_held : x ∉ d.pool.held
  not_sent : x ∉ d.sent

/-- How pool and rounds go on from `d` to `d'`. -/
structure Onward (d d' : Dispatcher) : Prop where
  admitted : d.admitted ⊆ d'.admitted
  rounds : d.rounds <+: d'.rounds
  held : ∀ x ∈ d.pool.held,
    (x ∈ d'.pool.held ∧ d'.rounds = d.rounds) ∨ x ∈ d'.sent ∨ LeftBehind d' x
  left : ∀ x, LeftBehind d x → LeftBehind d' x

theorem Onward.sent {d d' : Dispatcher} (h : Onward d d') {x : Entry} (hx : x ∈ d.sent) :
    x ∈ d'.sent := by
  rcases List.mem_flatMap.mp hx with ⟨round, hround, hdrained⟩
  exact List.mem_flatMap.mpr ⟨round, h.rounds.subset hround, hdrained⟩

theorem Onward.refl (d : Dispatcher) : Onward d d :=
  ⟨List.Subset.refl _, List.prefix_refl _, fun _ hx => Or.inl ⟨hx, rfl⟩, fun _ hx => hx⟩

theorem Onward.trans {d d' d'' : Dispatcher} (h : Onward d d') (h' : Onward d' d'') :
    Onward d d'' := by
  refine ⟨List.Subset.trans h.admitted h'.admitted, h.rounds.trans h'.rounds, ?_,
    fun x hx => h'.left x (h.left x hx)⟩
  intro x hx
  rcases h.held x hx with ⟨hheld, hrounds⟩ | hsent | hleft
  · rcases h'.held x hheld with ⟨hheld', hrounds'⟩ | hrest
    · exact Or.inl ⟨hheld', hrounds'.trans hrounds⟩
    · exact Or.inr hrest
  · exact Or.inr (Or.inl (h'.sent hsent))
  · exact Or.inr (Or.inr (h'.left x hleft))

theorem add_onward {numShards : Nat} {d : Dispatcher} (hinv : DispatcherInv numShards d)
    (tx : Transaction) (pubkey : Option PublicKey) : Onward d (d.add tx pubkey).2 := by
  rcases Nat.lt_or_ge d.pool.count d.pool.capacity with hroom | hfull
  · rcases add_room tx pubkey hroom with ⟨pool, hadd, hheld, -⟩
    rw [hadd]
    refine ⟨List.subset_append_left _ _, List.prefix_refl _, ?_, ?_⟩
    · intro x hx
      refine Or.inl ⟨?_, rfl⟩
      show x ∈ pool.held
      rw [hheld]
      exact List.mem_append_left _ hx
    · rintro x ⟨hadmitted, hnot, hsent⟩
      refine ⟨List.mem_append_left _ hadmitted, ?_, hsent⟩
      show x ∉ pool.held
      rw [hheld]
      intro hx
      rcases mem_snoc hx with hold | rfl
      · exact hnot hold
      · -- what comes in is not what was admitted before
        exact absurd (hinv.fresh _ hadmitted) (Nat.lt_irrefl _)
  · rw [add_full tx pubkey hfull]
    exact ⟨List.Subset.refl _, List.prefix_refl _, fun _ hx => Or.inl ⟨hx, rfl⟩,
      fun _ hx => ⟨hx.admitted, hx.not_held, hx.not_sent⟩⟩

theorem dispatch_onward {numShards : Nat} {d d' : Dispatcher} (hinv : DispatcherInv numShards d)
    {roundStartMs : UInt64} {blockSize : Nat} {durationMs : UInt64}
    (hok : d.dispatch roundStartMs blockSize durationMs = .ok d') : Onward d d' := by
  rcases dispatch_ok hinv roundStartMs blockSize durationMs with
    ⟨d₁, round, hok₁, hrounds, hdrained, -, hpool, -, hadmitted, -⟩
  obtain rfl : d₁ = d' := Except.ok.inj (hok₁.symm.trans hok)
  have hempty : d₁.pool.held = [] := by
    rw [hpool]
    rfl
  have hsent : d₁.sent = d.sent ++ round.drained := by
    rw [Dispatcher.sent, Dispatcher.sent, hrounds, List.flatMap_append, List.flatMap_singleton]
  refine ⟨by rw [hadmitted]; exact List.Subset.refl _, by rw [hrounds]; exact List.prefix_append _ _,
    ?_, ?_⟩
  · intro x hx
    right
    by_cases hround : x ∈ round.drained
    · left
      rw [hsent]
      exact List.mem_append_right _ hround
    · right
      refine ⟨?_, by rw [hempty]; exact List.not_mem_nil, ?_⟩
      · rw [hadmitted]
        exact hinv.accounted.subset (List.mem_append_right _ hx)
      · rw [hsent]
        intro hmem
        rcases List.mem_append.mp hmem with hbefore | hnow
        · exact (List.nodup_append.mp (accounted_nodup hinv)).2.2 x hbefore x hx rfl
        · exact hround hnow
  · rintro x ⟨hin, hnot, hout⟩
    refine ⟨by rwa [hadmitted], by rw [hempty]; exact List.not_mem_nil, ?_⟩
    rw [hsent]
    intro hmem
    rcases List.mem_append.mp hmem with hbefore | hnow
    · exact hout hbefore
    · rw [hdrained] at hnow
      exact hnot (List.mem_of_mem_take hnow)

/-! ## Along an execution -/

theorem step_onward {crypto : Crypto} {numShards : Nat} {s s' : Cluster}
    (hinv : ClusterInv crypto numShards s) {label : Cluster.Label}
    (hok : s.step crypto numShards label = .ok s') : Onward s.dispatcher s'.dispatcher := by
  cases label with
  | add tx pubkey =>
      obtain rfl := Except.ok.inj hok
      exact add_onward hinv.core tx pubkey
  | dispatch roundStartMs blockSize durationMs =>
      simp only [Cluster.step, Cluster.dispatch] at hok
      cases hout : s.outbox with
      | cons o out =>
          simp only [hout, Except.ok.injEq] at hok
          subst hok
          exact Onward.refl _
      | nil =>
          rcases dispatch_ok hinv.core roundStartMs blockSize durationMs with
            ⟨d', round, hd, -, -, -, -, -, -, -⟩
          simp only [hout, hd, Except.ok.injEq] at hok
          subst hok
          exact dispatch_onward hinv.core hd
  | send =>
      obtain rfl := Except.ok.inj hok
      rw [(send_frame s).1]
      exact Onward.refl _
  | leader drop source schedule =>
      rw [leaderStep_dispatcher drop source schedule hok]
      exact Onward.refl _
  | follower i schedule =>
      rw [followerStep_dispatcher i schedule hok]
      exact Onward.refl _

section Executions

variable {cfg : Config} {crypto : Crypto} {rand : Rand}

theorem Moved.onward (hshards : cfg.numShards ≤ maxShards) {s s' : System} {label : System.Label}
    (h : Moved cfg crypto s label s') (hinv : SystemInv cfg crypto s) :
    Onward s.cluster.dispatcher s'.cluster.dispatcher := by
  have hstep : ∀ (t : Cluster) (l : Cluster.Label), ClusterInv crypto cfg.numShards t →
      ∃ t', t.step crypto cfg.numShards l = .ok t' ∧ ClusterInv crypto cfg.numShards t' ∧
        Onward t.dispatcher t'.dispatcher := by
    intro t l ht
    rcases clusterStep_inv cfg.numShards_pos hshards t l ht with ⟨t', hok, ht'⟩
    exact ⟨t', hok, ht', step_onward ht hok⟩
  rcases h.back_run hinv hshards with ⟨seg, -, -, hrun⟩
  rcases Run.run_steps (ClusterInv crypto cfg.numShards)
    (fun t t' : Cluster => Onward t.dispatcher t'.dispatcher) (fun t => Onward.refl _)
    (fun _ _ _ => Onward.trans) hstep seg s.cluster hinv.cluster with ⟨t, hrun', -, honward⟩
  obtain rfl := Except.ok.inj (hrun.symm.trans hrun')
  exact honward

theorem execution_onward {e : Run.Execution (System.step cfg crypto)}
    (hshards : cfg.numShards ≤ maxShards)
    (hstart : ∃ r, receiverInit cfg rand = .ok r ∧ e.state 0 = System.start cfg r) {n m : Nat}
    (hnm : n ≤ m) : Onward (e.state n).cluster.dispatcher (e.state m).cluster.dispatcher := by
  refine e.inv_from (fun s => Onward (e.state n).cluster.dispatcher s.cluster.dispatcher) ?_
    (Onward.refl _) m hnm
  intro m _ h
  exact h.trans ((moved (e.next m)).onward hshards (execution_system hshards hstart m))

end Executions

/-! ## The three fates -/

section Fates

variable {cfg : Config} {crypto : Crypto} (e : Run.Execution (System.step cfg crypto)) (n : Nat)
  (x : Entry)

/-- From `n` on `x` stays in the pool, and no further round is dispatched. -/
def Waits : Prop :=
  ∀ m, n ≤ m → x ∈ (e.state m).cluster.dispatcher.pool.held ∧
    (e.state m).cluster.dispatcher.rounds = (e.state n).cluster.dispatcher.rounds

/-- `x` was sent to its shard in a round that has its block. -/
def Finalised : Prop :=
  ∃ m, n ≤ m ∧ ∃ (k : Nat) (header : DispatchHeader) (round : Dispatch) (b : Assembled),
    (headersOf (e.state m).cluster.dispatcher.pushes)[k]? = some header ∧
    (e.state m).cluster.dispatcher.rounds[k]? = some round ∧
    (e.state m).cluster.blocks[k]? = some b ∧
    ⟨shardOf cfg.numShards x, .tx x⟩ ∈ round.pushes ∧
    Agrees crypto cfg.numShards header round b

/-- At some time `x` is gone for good. -/
def Gone : Prop := ∃ m, n ≤ m ∧ ∀ m', m ≤ m' → LeftBehind (e.state m').cluster.dispatcher x

end Fates

/-- What is in a round is what it drained. -/
theorem mem_sent_iff {numShards : Nat} {d : Dispatcher} (h : DispatcherInv numShards d) {x : Entry} :
    x ∈ d.sent ↔ ∃ (k : Nat) (round : Dispatch), d.rounds[k]? = some round ∧
      ⟨shardOf numShards x, .tx x⟩ ∈ round.pushes := by
  have hpushed : ∀ (k : Nat) (round : Dispatch), d.rounds[k]? = some round →
      (⟨shardOf numShards x, .tx x⟩ ∈ round.pushes ↔ x ∈ round.drained) := by
    intro k round hround
    rcases List.getElem?_eq_some_iff.mp hround with ⟨hk, rfl⟩
    rcases h.rounds k hk with ⟨roundStartMs, hpushes⟩
    rw [hpushes, tx_mem_pushesOf]
    exact and_iff_left rfl
  constructor
  · intro hx
    rcases List.mem_flatMap.mp hx with ⟨round, hround, hdrained⟩
    rcases List.getElem?_of_mem hround with ⟨k, hk⟩
    exact ⟨k, round, hk, (hpushed k round hk).mpr hdrained⟩
  · rintro ⟨k, round, hk, hpush⟩
    exact List.mem_flatMap.mpr ⟨round, List.mem_of_getElem? hk, (hpushed k round hk).mp hpush⟩

section Fates

variable {cfg : Config} {crypto : Crypto} {rand : Rand}
  {e : Run.Execution (System.step cfg crypto)} {n : Nat} {x : Entry}

theorem finalised_of_sent (hshards : cfg.numShards ≤ maxShards)
    (hstart : ∃ r, receiverInit cfg rand = .ok r ∧ e.state 0 = System.start cfg r)
    (hfair : e.Fair (fun c : Party cfg.numShards => c.turn))
    (hlossless : ∀ n drop source schedule, e.input n = .leader drop source schedule →
      ∀ i, 1 ≤ i ∧ i < cfg.numShards → drop i = false)
    (hx : x ∈ (e.state n).cluster.dispatcher.sent) : Finalised e n x := by
  rcases (mem_sent_iff (execution_system hshards hstart n).cluster.core).mp hx with
    ⟨k, round, hround, hpush⟩
  rcases List.getElem?_eq_some_iff.mp hround with ⟨hk, -⟩
  rcases execution_assembled hshards hstart hfair hlossless n k hk with ⟨m, hm, hblock⟩
  rcases (execution_system hshards hstart m).cluster.agrees cfg.numShards_pos hblock with
    ⟨header, round', hheader, hround', hagrees⟩
  -- the round is still the same
  have hsame : round' = round := by
    rcases (execution_onward hshards hstart hm).rounds with ⟨later, hlater⟩
    rw [← hlater, List.getElem?_append_left hk, hround] at hround'
    exact (Option.some.inj hround').symm
  rw [hsame] at hround' hagrees
  exact ⟨m, hm, k, header, round, _, hheader, hround', List.getElem?_eq_getElem hblock, hpush,
    hagrees⟩

theorem Finalised.sent (h : Finalised e n x) (hshards : cfg.numShards ≤ maxShards)
    (hstart : ∃ r, receiverInit cfg rand = .ok r ∧ e.state 0 = System.start cfg r) :
    ∃ m, n ≤ m ∧ ∀ m', m ≤ m' → x ∈ (e.state m').cluster.dispatcher.sent := by
  rcases h with ⟨m, hm, k, header, round, b, -, hround, -, hpush, -⟩
  refine ⟨m, hm, ?_⟩
  intro m' hm'
  apply (execution_onward hshards hstart hm').sent
  exact (mem_sent_iff (execution_system hshards hstart m).cluster.core).mpr ⟨k, round, hround, hpush⟩

end Fates

/-- The system goes on for ever, assigner, leader and followers taking turns between
whatever clients and receiver do, and no announcement gets lost: then of an admitted
transaction exactly one of three things becomes. It waits in the pool for ever, no round
being dispatched any more; it gets into a block; or it is left behind by a dispatch. -/
theorem admitted_fate (cfg : Config) (hshards : cfg.numShards ≤ maxShards) (crypto : Crypto)
    (rand : Rand) (e : Run.Execution (System.step cfg crypto))
    (hstart : ∃ r, receiverInit cfg rand = .ok r ∧ e.state 0 = System.start cfg r)
    (hfair : e.Fair (fun c : Party cfg.numShards => c.turn))
    (hlossless : ∀ n drop source schedule, e.input n = .leader drop source schedule →
      ∀ i, 1 ≤ i ∧ i < cfg.numShards → drop i = false)
    (n : Nat) (x : Entry) (hx : x ∈ (e.state n).cluster.dispatcher.admitted) :
    (Waits e n x ∨ Finalised e n x ∨ Gone e n x) ∧ ¬ (Waits e n x ∧ Finalised e n x) ∧
      ¬ (Waits e n x ∧ Gone e n x) ∧ ¬ (Finalised e n x ∧ Gone e n x) := by
  have honward : ∀ {m m'}, m ≤ m' →
      Onward (e.state m).cluster.dispatcher (e.state m').cluster.dispatcher :=
    fun h => execution_onward hshards hstart h
  refine ⟨?_, ?_, ?_, ?_⟩
  · by_cases hleft : ∃ m, n ≤ m ∧ LeftBehind (e.state m).cluster.dispatcher x
    · rcases hleft with ⟨m, hm, hleft⟩
      exact Or.inr (Or.inr ⟨m, hm, fun m' hm' => (honward hm').left x hleft⟩)
    by_cases hsent : ∃ m, n ≤ m ∧ x ∈ (e.state m).cluster.dispatcher.sent
    · rcases hsent with ⟨m, hm, hsent⟩
      rcases finalised_of_sent hshards hstart hfair hlossless hsent with ⟨m', hm', hfinal⟩
      exact Or.inr (Or.inl ⟨m', Nat.le_trans hm hm', hfinal⟩)
    · -- neither at any time: so it is in the pool now, and nothing is drained later
      left
      have hheld : x ∈ (e.state n).cluster.dispatcher.pool.held := by
        by_contra hnot
        exact hleft ⟨n, Nat.le_refl n, hx, hnot, fun h => hsent ⟨n, Nat.le_refl n, h⟩⟩
      intro m hm
      rcases (honward hm).held x hheld with hstill | hnow | hnow
      · exact hstill
      · exact absurd ⟨m, hm, hnow⟩ hsent
      · exact absurd ⟨m, hm, hnow⟩ hleft
  · rintro ⟨hwaits, hfinal⟩
    rcases hfinal.sent hshards hstart with ⟨m, hm, hsent⟩
    have hcore := (execution_system hshards hstart m).cluster.core
    exact (List.nodup_append.mp (accounted_nodup hcore)).2.2 x (hsent m (Nat.le_refl m)) x
      (hwaits m hm).1 rfl
  · rintro ⟨hwaits, m, hm, hgone⟩
    exact (hgone m (Nat.le_refl m)).not_held (hwaits m hm).1
  · rintro ⟨hfinal, m, hm, hgone⟩
    rcases hfinal.sent hshards hstart with ⟨m', -, hsent⟩
    exact (hgone (max m m') (Nat.le_max_left m m')).not_sent (hsent _ (Nat.le_max_right m m'))

/-- The one transaction of the batch. -/
theorem admitted_fate_solo :
    ∃ e : Run.Execution (System.step soloConfig Crypto.rejecting), e.input = soloTurns ∧
      ∃ x ∈ (e.state 2).cluster.dispatcher.admitted,
        (Waits e 2 x ∨ Finalised e 2 x ∨ Gone e 2 x) ∧ ¬ (Waits e 2 x ∧ Finalised e 2 x) ∧
          ¬ (Waits e 2 x ∧ Gone e 2 x) ∧ ¬ (Finalised e 2 x ∧ Gone e 2 x) := by
  rcases soloTurns_execution with ⟨e, hinput, hstart, hfair, hlossless⟩
  have hone := (soloTurns_round hinput hstart).2
  have hmem := List.getElem_mem (l := (e.state 2).cluster.dispatcher.admitted) (n := 0) (by omega)
  exact ⟨e, hinput, _, hmem, admitted_fate soloConfig (by decide) Crypto.rejecting ⟨fun _ => 0, 0⟩ e
    hstart hfair hlossless 2 _ hmem⟩

end Sharding
