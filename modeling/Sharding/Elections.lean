import Sharding.Custody
import Sharding.Lib.Refine
import Sharding.Winners

/-! # The elections of a run

Every round is preceded by an election among the nodes of the receiver. It seats the
nodes: behind it every shard has one node and every node one shard, whatever `rand()`
gives and however many elections there were before. But nothing reads the seats: the
replies and everything that is sent are the same for all results of `rand()`.
-/

namespace Sharding

/-! ## Stakes -/

/-- The stakes that `setup_nodes` deals out. -/
def Staked (nodes : List Node) : Prop :=
  ∀ n < nodes.length, 100 ≤ stakeOf nodes n ∧ stakeOf nodes n ≤ 999

/-- With these stakes every node can be drawn. -/
theorem Staked.eligible {nodes : List Node} (h : Staked nodes) :
    (eligible nodes).length = nodes.length := by
  have hall : ∀ n ∈ List.range nodes.length, (n == 0 || stakeOf nodes n != 0) = true := by
    intro n hn
    have hstake := (h n (List.mem_range.mp hn)).1
    have hne : stakeOf nodes n ≠ 0 := by
      intro hzero
      rw [hzero] at hstake
      exact absurd hstake (by decide)
    simp [hne]
  rw [Sharding.eligible, List.filter_eq_self.mpr hall, List.length_range]

theorem Staked.congr {nodes nodes' : List Node} (h : Staked nodes)
    (hlen : nodes'.length = nodes.length) (hstake : ∀ n, stakeOf nodes' n = stakeOf nodes n) :
    Staked nodes' := by
  intro n hn
  rw [hstake n]
  exact h n (hlen ▸ hn)

/-- A new node, before its first election. -/
structure Idle (node : Node) : Prop where
  shardId : node.shardId = -1
  role : node.role = .validator
  state : node.state = .idle
  stake : 100 ≤ node.stake ∧ node.stake ≤ 999

theorem setupNodes_idle {numShards : Nat} {rand rand' : Rand} {nodes : List Node}
    (h : setupNodes numShards rand = .ok (nodes, rand')) : ∀ node ∈ nodes, Idle node := by
  have hstep : ∀ (s : List Node × Rand) (i : Nat) (s' : List Node × Rand),
      (∀ node ∈ s.1, Idle node) → setupNode s i = .ok s' → ∀ node ∈ s'.1, Idle node := by
    intro s i s' hs hok node hnode
    unfold setupNode at hok
    simp only at hok
    split at hok
    · obtain rfl := Except.ok.inj hok
      rcases List.mem_append.mp hnode with hold | hnew
      · exact hs node hold
      · rw [List.mem_singleton.mp hnew]
        have hmod : (s.2.next.1 % 900).toNat < 900 := by
          rw [UInt64.toNat_mod]
          exact Nat.mod_lt _ (by decide)
        constructor
        · rfl
        · rfl
        · rfl
        · rw [nodeCreate, UInt64.le_iff_toNat_le, UInt64.le_iff_toNat_le, UInt64.toNat_add]
          show 100 ≤ (100 + (s.2.next.1 % 900).toNat) % 2 ^ 64 ∧
            (100 + (s.2.next.1 % 900).toNat) % 2 ^ 64 ≤ 999
          omega
    · cases hok
  exact Run.run_preserves (fun s : List Node × Rand => ∀ node ∈ s.1, Idle node) hstep
    (List.range numShards) ([], rand) (nodes, rand') (by simp) h

theorem staked_of_idle {nodes : List Node} (h : ∀ node ∈ nodes, Idle node) : Staked nodes := by
  intro n hn
  rw [stakeOf_lt hn]
  exact (h _ (List.getElem_mem hn)).stake

/-! ## One election -/

/-- Every shard has one node, and every node one shard. -/
structure Seated (numShards : Nat) (nodes : List Node) : Prop where
  shards : (nodes.map Node.shardId).Perm ((List.range numShards).map Int.ofNat)
  roles : ∀ node ∈ nodes, node.role = .winner

/-- As many winners as nodes: everybody gets a seat. -/
theorem Drawn.seated {nodes : List Node} {el : Election} (h : Drawn nodes nodes.length el)
    (hstaked : Staked nodes) (hsmall : nodes.length ≤ 2 ^ 31) : Seated nodes.length el.nodes := by
  have hdistinct : el.winners.Nodup := h.distinct (Nat.le_of_eq hstaked.eligible.symm)
  have hwinners : el.winners.Perm (List.range nodes.length) := by
    have hsub : el.winners ⊆ List.range nodes.length := by
      intro n hn
      exact List.mem_range.mpr (mem_eligible.mp (h.winners_eligible n hn)).1
    apply (hdistinct.subperm hsub).perm_of_length_le
    rw [List.length_range, h.count]
  -- the seat of the winner of shard `s`
  have hseat : ∀ (s : Nat) (hs : s < el.winners.length), ∃ node,
      el.nodes[el.winners[s]]? = some node ∧ node.shardId = s ∧ node.role = .winner := by
    intro s hs
    rcases h.assigned hdistinct s _ (List.getElem?_eq_getElem hs) with ⟨node, hnode, hshard, hrole⟩
    have hfits : CInt.wrap 32 (s : Int) = s := by
      have hcount := h.count
      exact CInt.wrap_eq_iff.mpr (CInt.fits_int.mpr (by omega))
    exact ⟨node, hnode, hshard.trans hfits, hrole⟩
  constructor
  · have hwon : el.winners.map (fun n => (el.nodes[n]?.map Node.shardId).getD 0) =
        (List.range nodes.length).map Int.ofNat := by
      apply List.ext_getElem
      · rw [List.length_map, List.length_map, List.length_range, h.count]
      · intro s hs _
        rw [List.length_map] at hs
        rcases hseat s hs with ⟨node, hnode, hshard, -⟩
        rw [List.getElem_map, List.getElem_map, List.getElem_range, hnode]
        exact hshard
    have hall : (List.range nodes.length).map (fun n => (el.nodes[n]?.map Node.shardId).getD 0) =
        el.nodes.map Node.shardId := by
      apply List.ext_getElem
      · rw [List.length_map, List.length_map, List.length_range, h.nodes_length]
      · intro n hn hn'
        rw [List.length_map] at hn'
        rw [List.getElem_map, List.getElem_map, List.getElem_range, List.getElem?_eq_getElem hn']
        rfl
    rw [← hwon, ← hall]
    exact (hwinners.map _).symm
  · intro node hnode
    rcases List.getElem_of_mem hnode with ⟨n, hn, rfl⟩
    have hmem : n ∈ el.winners := hwinners.symm.subset (List.mem_range.mpr (h.nodes_length ▸ hn))
    rcases List.getElem_of_mem hmem with ⟨s, hs, hsn⟩
    rcases hseat s hs with ⟨node, hnode', -, hrole⟩
    rw [hsn, List.getElem?_eq_getElem hn] at hnode'
    rwa [Option.some.inj hnode']

theorem resetNodes_stakes {numShards : Nat} {nodes nodes' : List Node}
    (h : resetNodes numShards nodes = .ok nodes') :
    nodes'.length = nodes.length ∧ ∀ n, stakeOf nodes' n = stakeOf nodes n := by
  have hstep : ∀ (ns : List Node) (i : Nat) (ns' : List Node),
      (ns.length = nodes.length ∧ ∀ n, stakeOf ns n = stakeOf nodes n) →
      updateAt ns i resetNode = .ok ns' →
      ns'.length = nodes.length ∧ ∀ n, stakeOf ns' n = stakeOf nodes n := by
    rintro ns i ns' ⟨hlen, hstake⟩ hok
    unfold updateAt at hok
    split at hok
    · obtain rfl := Except.ok.inj hok
      refine ⟨by rw [List.length_modify, hlen], ?_⟩
      intro n
      rw [← hstake n, stakeOf, stakeOf, List.getElem?_modify]
      by_cases hin : i = n
      · cases ns[n]? <;> simp [hin, resetNode]
      · simp [hin]
    · cases hok
  exact Run.run_preserves _ hstep (List.range numShards) nodes nodes' ⟨rfl, fun _ => rfl⟩ h

/-- An election and a dispatch: all nodes are seated anew. -/
theorem runElectionAndDispatch_seats {cfg : Config} {r r' : Receiver}
    (hcore : DispatcherInv cfg.numShards r.core) (hlen : r.nodes.length = cfg.numShards)
    (hstaked : Staked r.nodes) {roundStartMs durationMs : UInt64}
    (hok : runElectionAndDispatch cfg r roundStartMs durationMs = .ok r') :
    Staked r'.nodes ∧ Seated cfg.numShards r'.nodes ∧ r'.core.rounds ≠ [] := by
  unfold runElectionAndDispatch at hok
  rcases Run.bind_eq_ok hok with ⟨nodes, hreset, hok⟩
  rcases resetNodes_stakes hreset with ⟨hnodes, hstakes⟩
  have hstaked' : Staked nodes := hstaked.congr hnodes hstakes
  rw [hlen] at hnodes
  rcases electWinners_drawn cfg.numShards_pos (Nat.le_of_eq hnodes.symm) r.rand with
    ⟨el, helect, hdrawn⟩
  rw [hnodes] at helect
  rcases Run.bind_eq_ok hok with ⟨winners, hwinners, hok⟩
  obtain rfl : some el = winners := Except.ok.inj (helect.symm.trans hwinners)
  rcases Run.bind_eq_ok hok with ⟨core, hdispatch, hok⟩
  obtain rfl := Except.ok.inj hok
  have hsmall : nodes.length ≤ 2 ^ 31 := by
    have hle := cfg.numShards_le
    have hmax : maxNodes ≤ 2 ^ 31 := by decide
    omega
  refine ⟨hstaked'.congr hdrawn.nodes_length hdrawn.stakes, ?_, ?_⟩
  · rw [← hnodes] at hdrawn ⊢
    exact hdrawn.seated hstaked' hsmall
  · rcases dispatch_ok hcore roundStartMs cfg.blockSize durationMs with
      ⟨core', round, hdispatch', hrounds, -⟩
    obtain rfl : core = core' := Except.ok.inj (hdispatch.symm.trans hdispatch')
    show core.rounds ≠ []
    rw [hrounds]
    exact List.append_ne_nil_of_right_ne_nil _ (List.cons_ne_nil _ _)

/-! ## Whole runs -/

/-- The nodes between two messages: new before the first round, then seated. -/
structure NodesInv (cfg : Config) (r : Receiver) : Prop where
  inv : ReceiverInv cfg r
  staked : Staked r.nodes
  before : r.core.rounds = [] → ∀ node ∈ r.nodes, Idle node
  behind : r.core.rounds ≠ [] → Seated cfg.numShards r.nodes

theorem receive_nodes {cfg : Config} {r : Receiver} (h : NodesInv cfg r) (crypto : Crypto)
    (a : Arrival) : ∃ r', receiverStep cfg crypto r a = .ok r' ∧ NodesInv cfg r' := by
  rcases receive_ok h.inv crypto a with ⟨r', reply, hreceive, hinv', -⟩
  refine ⟨r', ?_, ?_⟩
  · rw [receiverStep, hreceive]
    rfl
  have hok := hreceive
  unfold receive at hok
  cases hin : a.incoming with
  | unknown =>
      rw [hin] at hok
      rcases Prod.mk.inj (Except.ok.inj hok) with ⟨rfl, -⟩
      exact h
  | batch batch =>
      rw [hin] at hok
      have hrounds := admitBatch_rounds crypto cfg.verify r.core batch
      simp only at hok
      split at hok
      · rcases Run.bind_eq_ok hok with ⟨r₁, hrun, hok⟩
        rcases Prod.mk.inj (Except.ok.inj hok) with ⟨rfl, -⟩
        rcases runElectionAndDispatch_seats (r := ⟨_, r.nodes, r.rand, _⟩)
          (admitBatch_inv h.inv.core crypto batch) h.inv.nodes h.staked hrun with
          ⟨hstaked, hseated, hsome⟩
        exact ⟨hinv', hstaked, fun hnone => absurd hnone hsome, fun _ => hseated⟩
      · -- no election: the nodes stay as they are
        rcases Prod.mk.inj (Except.ok.inj hok) with ⟨rfl, -⟩
        refine ⟨hinv', h.staked, ?_, ?_⟩
        · intro hnone
          exact h.before (hrounds.symm.trans hnone)
        · intro hsome
          exact h.behind (hrounds ▸ hsome)

/-- In every run, behind every round: the nodes and the shards are matched one to one. -/
theorem every_round_seated (cfg : Config) (hshards : cfg.numShards ≤ maxShards) (crypto : Crypto)
    (rand : Rand) (arrivals : List Arrival) :
    ∃ r₀ r, receiverInit cfg rand = .ok r₀ ∧
      Run.run (receiverStep cfg crypto) r₀ arrivals = .ok r ∧
      (r.core.rounds = [] → ∀ node ∈ r.nodes, Idle node) ∧
      (r.core.rounds ≠ [] → Seated cfg.numShards r.nodes) := by
  rcases receiverInit_inv cfg hshards rand with ⟨r₀, hinit, hcore, hinv, -⟩
  have hidle : ∀ node ∈ r₀.nodes, Idle node := by
    rcases Run.bind_eq_ok hinit with ⟨⟨nodes, rand'⟩, hsetup, hstart⟩
    obtain rfl := Except.ok.inj hstart
    exact setupNodes_idle hsetup
  have hstart : NodesInv cfg r₀ := by
    refine ⟨hinv, staked_of_idle hidle, fun _ => hidle, ?_⟩
    intro hsome
    rw [hcore] at hsome
    exact absurd rfl hsome
  rcases Run.run_inv (NodesInv cfg) (fun _ a h => receive_nodes h crypto a) arrivals r₀ hstart with
    ⟨r, hrun, h⟩
  exact ⟨r₀, r, hinit, hrun, h.before, h.behind⟩

theorem every_round_seated_default :
    ∃ r₀ r, receiverInit defaultConfig ⟨fun _ => 7, 0⟩ = .ok r₀ ∧
      Run.run (receiverStep defaultConfig Crypto.rejecting) r₀ [unsignedBatch, fullBatch] = .ok r ∧
      (r.core.rounds = [] → ∀ node ∈ r.nodes, Idle node) ∧
      (r.core.rounds ≠ [] → Seated defaultConfig.numShards r.nodes) :=
  every_round_seated defaultConfig (by decide) Crypto.rejecting ⟨fun _ => 7, 0⟩
    [unsignedBatch, fullBatch]

/-! ## What the elections decide -/

/-- Pool, assigner and reply behind a message depend on the pool and the assigner alone. -/
theorem Handled.core_eq {cfg : Config} {crypto : Crypto} {r r' s s' : Receiver} {a : Arrival}
    {reply reply' : Reply} (hr : Handled cfg crypto r a r' reply)
    (hs : Handled cfg crypto s a s' reply') (h : r.core = s.core) :
    r'.core = s'.core ∧ reply = reply' := by
  cases hr with
  | unknown hin =>
      cases hs with
      | unknown _ => exact ⟨h, rfl⟩
      | waits batch hin' _ _ _ => exact Incoming.noConfusion (hin.symm.trans hin')
      | dispatches batch hin' _ _ _ => exact Incoming.noConfusion (hin.symm.trans hin')
  | waits batch hin _ hcore hcount =>
      cases hs with
      | unknown hin' => exact Incoming.noConfusion (hin.symm.trans hin')
      | waits batch' hin' _ hcore' _ =>
          obtain rfl := Incoming.batch.inj (hin.symm.trans hin')
          rw [hcore, hcore', h]
          exact ⟨rfl, rfl⟩
      | dispatches batch' hin' _ hdue _ =>
          obtain rfl := Incoming.batch.inj (hin.symm.trans hin')
          rw [hcore, h] at hcount
          exact absurd hdue (Nat.not_le.mpr hcount)
  | dispatches batch hin _ hdue hdispatch =>
      cases hs with
      | unknown hin' => exact Incoming.noConfusion (hin.symm.trans hin')
      | waits batch' hin' _ hcore' hcount =>
          obtain rfl := Incoming.batch.inj (hin.symm.trans hin')
          rw [hcore', ← h] at hcount
          exact absurd hdue (Nat.not_le.mpr hcount)
      | dispatches batch' hin' _ _ hdispatch' =>
          obtain rfl := Incoming.batch.inj (hin.symm.trans hin')
          rw [← h] at hdispatch'
          exact ⟨Except.ok.inj (hdispatch.symm.trans hdispatch'), by rw [h]⟩

/-- Whatever `rand()` gives in two runs over the same messages: the same replies, and the
same is pooled and sent. -/
theorem rand_unobserved (cfg : Config) (hshards : cfg.numShards ≤ maxShards) (crypto : Crypto)
    (rand₁ rand₂ : Rand) (arrivals : List Arrival) :
    ∃ r₁ r₂ s₁ s₂ replies, receiverInit cfg rand₁ = .ok r₁ ∧ receiverInit cfg rand₂ = .ok r₂ ∧
      Run.run (Run.answering (receive cfg crypto)) (r₁, []) arrivals = .ok (s₁, replies) ∧
      Run.run (Run.answering (receive cfg crypto)) (r₂, []) arrivals = .ok (s₂, replies) ∧
      s₁.core = s₂.core := by
  rcases receiverInit_inv cfg hshards rand₁ with ⟨r₁, hinit₁, hcore₁, hinv₁, -⟩
  rcases receiverInit_inv cfg hshards rand₂ with ⟨r₂, hinit₂, hcore₂, hinv₂, -⟩
  have hstep : ∀ (s t : Receiver × List Reply) (a : Arrival),
      ReceiverInv cfg s.1 ∧ ReceiverInv cfg t.1 ∧ s.1.core = t.1.core ∧ s.2 = t.2 →
      ∃ s' t', Run.answering (receive cfg crypto) s a = .ok s' ∧
        Run.answering (receive cfg crypto) t a = .ok t' ∧
        ReceiverInv cfg s'.1 ∧ ReceiverInv cfg t'.1 ∧ s'.1.core = t'.1.core ∧ s'.2 = t'.2 := by
    rintro ⟨s, replies⟩ ⟨t, _⟩ a ⟨hs, ht, hcore, rfl⟩
    rcases receive_ok hs crypto a with ⟨s', reply, hs', hsinv, hshandled⟩
    rcases receive_ok ht crypto a with ⟨t', reply', ht', htinv, hthandled⟩
    rcases hshandled.core_eq hthandled hcore with ⟨hcore', rfl⟩
    refine ⟨(s', replies ++ [reply]), (t', replies ++ [reply]), ?_, ?_, hsinv, htinv, hcore', rfl⟩
    · rw [Run.answering, hs']
      rfl
    · rw [Run.answering, ht']
      rfl
  rcases Run.run_lockstep _ hstep arrivals (r₁, []) (r₂, [])
    ⟨hinv₁, hinv₂, hcore₁.trans hcore₂.symm, rfl⟩ with
    ⟨⟨s₁, replies⟩, ⟨s₂, replies'⟩, hrun₁, hrun₂, -, -, hcore, heq⟩
  obtain rfl : replies = replies' := heq
  exact ⟨r₁, r₂, s₁, s₂, replies, hinit₁, hinit₂, hrun₁, hrun₂, hcore⟩

theorem rand_unobserved_default :
    ∃ r₁ r₂ s₁ s₂ replies, receiverInit defaultConfig ⟨fun _ => 0, 0⟩ = .ok r₁ ∧
      receiverInit defaultConfig ⟨fun i => UInt64.ofNat i, 0⟩ = .ok r₂ ∧
      Run.run (Run.answering (receive defaultConfig Crypto.rejecting)) (r₁, [])
        [unsignedBatch, fullBatch] = .ok (s₁, replies) ∧
      Run.run (Run.answering (receive defaultConfig Crypto.rejecting)) (r₂, [])
        [unsignedBatch, fullBatch] = .ok (s₂, replies) ∧
      s₁.core = s₂.core :=
  rand_unobserved defaultConfig (by decide) Crypto.rejecting ⟨fun _ => 0, 0⟩
    ⟨fun i => UInt64.ofNat i, 0⟩ [unsignedBatch, fullBatch]

end Sharding
