import Sharding.Agreement

/-! # What a block commits to

A block carries one root, over the roots of the shards in the order in which the
results came in, and no count per shard. All the same equal roots mean equal
rounds, shard by shard and in the order of dispatch, since the nonce of a
transaction tells its shard. What can go wrong is in the hash functions alone: a
collision among the inputs of the two blocks, or an input that hashes to the 32
zero bytes every fold starts from.
-/

namespace Sharding

open ParallelFor

/-- The hash functions fail the inputs `folded` of `sha256`, or the inputs `hashed`
of the truncated BLAKE3. -/
inductive Broken (crypto : Crypto) (folded hashed : List Bytes) : Prop where
  | sha256 (h : HashChain.Collision crypto.sha256 folded)
  | start (h : ∃ x ∈ folded, crypto.sha256 x = zeros 32)
  | blake3 (h : HashChain.Collision (fun buf => crypto.blake3HashTruncated buf 28) hashed)

theorem Broken.mono {crypto : Crypto} {folded hashed folded' hashed' : List Bytes}
    (h : Broken crypto folded hashed) (hfolded : folded ⊆ folded') (hhashed : hashed ⊆ hashed') :
    Broken crypto folded' hashed' := by
  cases h with
  | sha256 h => exact .sha256 (h.mono hfolded)
  | start h =>
      rcases h with ⟨x, hx, hzero⟩
      exact .start ⟨x, hfolded hx, hzero⟩
  | blake3 h => exact .blake3 (h.mono hhashed)

/-- Equal contents, transaction by transaction. -/
def SameTxs (ms ns : List TxWithPubkey) : Prop :=
  List.Forall₂ (fun m n : TxWithPubkey => SameContent m.tx n.tx) ms ns

/-- Two shards with the same root, whatever they count. -/
theorem merkleFold_commits (crypto : Crypto) (ms ns : List TxWithPubkey)
    (hroot : merkleFold crypto (ms.map fun m => transactionComputeHash crypto m.tx) =
      merkleFold crypto (ns.map fun m => transactionComputeHash crypto m.tx)) :
    SameTxs ms ns ∨ Broken crypto (foldInputs crypto ms ++ foldInputs crypto ns)
      (hashInputs ms ++ hashInputs ns) := by
  have hfold := HashChain.chain_binding_start crypto.sha256 combined_inj (zeros 32)
    (ms.map fun m : TxWithPubkey => transactionComputeHash crypto m.tx)
    (ns.map fun m : TxWithPubkey => transactionComputeHash crypto m.tx) hroot
  rcases hfold with hhashes | hcol | hstart
  · rcases HashChain.map_binding (fun buf => crypto.blake3HashTruncated buf 28)
      (fun m : TxWithPubkey => hashBuffer m.tx) ms ns hhashes with hbufs | hcol
    · exact Or.inl (sameContent_of_hashInputs ms ns hbufs)
    · exact Or.inr (.blake3 hcol)
  · exact Or.inr (.sha256 hcol)
  · exact Or.inr (.start hstart)

/-! ## The shards of a round -/

/-- A shard is only sent transactions whose nonce is its own. -/
theorem sentTo_shard {numShards k i : Nat} {round : Dispatch} (hround : RoundOk numShards k round)
    (hi : i < numShards) {m : TxWithPubkey} (hm : m ∈ sentTo i round.pushes) :
    m.tx.nonce.toNat % numShards = i := by
  rcases hround with ⟨roundStartMs, hpushes⟩
  rw [hpushes, sentTo_pushesOf hi, List.mem_map] at hm
  rcases hm with ⟨e, he, rfl⟩
  have hshard := (List.mem_filter.mp he).2
  exact beq_iff_eq.mp hshard

/-- Shards that were sent the same are one shard, or were sent nothing. -/
theorem same_shard {numShards k₁ k₂ i j : Nat} {round₁ round₂ : Dispatch}
    (hround₁ : RoundOk numShards k₁ round₁) (hround₂ : RoundOk numShards k₂ round₂)
    (hi : i < numShards) (hj : j < numShards)
    (h : SameTxs (sentTo i round₁.pushes) (sentTo j round₂.pushes)) :
    i = j ∨ (sentTo i round₁.pushes = [] ∧ sentTo j round₂.pushes = []) := by
  unfold SameTxs at h
  generalize hms : sentTo i round₁.pushes = ms at h
  generalize hns : sentTo j round₂.pushes = ns at h
  cases h with
  | nil => exact Or.inr ⟨rfl, rfl⟩
  | @cons m n ms ns hhead htail =>
      left
      have hm := sentTo_shard hround₁ hi (m := m) (by rw [hms]; exact List.mem_cons_self)
      have hn := sentTo_shard hround₂ hj (m := n) (by rw [hns]; exact List.mem_cons_self)
      rw [← hm, ← hn, hhead.nonce]

/-- Two rounds sent every shard the same. -/
def SameRound (numShards : Nat) (round₁ round₂ : Dispatch) : Prop :=
  ∀ i, i < numShards → SameTxs (sentTo i round₁.pushes) (sentTo i round₂.pushes)

/-- The shards need not be matched with themselves. -/
theorem sameRound_of_matching {numShards k₁ k₂ : Nat} {round₁ round₂ : Dispatch}
    (hround₁ : RoundOk numShards k₁ round₁) (hround₂ : RoundOk numShards k₂ round₂)
    {ids₁ ids₂ : List Nat} (hids₁ : ids₁.Perm (List.range numShards))
    (hids₂ : ids₂.Perm (List.range numShards))
    (h : ∀ q ∈ ids₁.zip ids₂, SameTxs (sentTo q.1 round₁.pushes) (sentTo q.2 round₂.pushes)) :
    SameRound numShards round₁ round₂ := by
  have hlen : ids₁.length = ids₂.length := hids₁.length_eq.trans hids₂.length_eq.symm
  have hlt₁ : ∀ i ∈ ids₁, i < numShards := fun i hi => List.mem_range.mp (hids₁.mem_iff.mp hi)
  have hlt₂ : ∀ i ∈ ids₂, i < numShards := fun i hi => List.mem_range.mp (hids₂.mem_iff.mp hi)
  intro i hi
  have hi₁ : i ∈ (ids₁.zip ids₂).map Prod.fst := by
    rw [List.map_fst_zip (Nat.le_of_eq hlen)]
    exact hids₁.mem_iff.mpr (List.mem_range.mpr hi)
  have hi₂ : i ∈ (ids₁.zip ids₂).map Prod.snd := by
    rw [List.map_snd_zip (Nat.le_of_eq hlen.symm)]
    exact hids₂.mem_iff.mpr (List.mem_range.mpr hi)
  rcases List.mem_map.mp hi₁ with ⟨q, hq, hqi⟩
  rcases List.mem_map.mp hi₂ with ⟨p, hp, hpi⟩
  have hsame₁ := h q hq
  have hsame₂ := h p hp
  rw [hqi] at hsame₁
  rw [hpi] at hsame₂
  -- the shard is matched with itself, or has nothing on both sides
  rcases same_shard hround₁ hround₂ hi (hlt₂ q.2 (List.of_mem_zip hq).2) hsame₁ with
    heq | ⟨hnone₁, -⟩
  · rwa [← heq] at hsame₁
  · rcases same_shard hround₁ hround₂ (hlt₁ p.1 (List.of_mem_zip hp).1) hi hsame₂ with
      heq | ⟨-, hnone₂⟩
    · rwa [heq] at hsame₂
    · rw [hnone₁, hnone₂]
      exact List.Forall₂.nil

/-! ## What a block gave to the hash functions -/

/-- What the workers gave to `sha256` in a round. -/
def roundFolds (crypto : Crypto) (numShards : Nat) (round : Dispatch) : List Bytes :=
  (List.range numShards).flatMap fun i => foldInputs crypto (sentTo i round.pushes)

/-- And to the truncated BLAKE3. -/
def roundHashes (numShards : Nat) (round : Dispatch) : List Bytes :=
  (List.range numShards).flatMap fun i => hashInputs (sentTo i round.pushes)

/-- The roots in the order in which the leader has them. -/
def rootsOf (numShards : Nat) (b : Assembled) : Bytes :=
  ((b.summaries.read numShards).getD []).flatMap fun s => s.merkleRoot.toList

/-- What the workers and the leader gave to `sha256` on the way to the block `b`. -/
def blockInputs (crypto : Crypto) (numShards : Nat) (round : Dispatch) (b : Assembled) :
    List Bytes :=
  rootsOf numShards b :: roundFolds crypto numShards round

theorem foldInputs_subset (crypto : Crypto) {numShards i : Nat} (hi : i < numShards)
    (round : Dispatch) (b : Assembled) :
    foldInputs crypto (sentTo i round.pushes) ⊆ blockInputs crypto numShards round b := by
  intro x hx
  apply List.mem_cons_of_mem
  exact List.mem_flatMap.mpr ⟨i, List.mem_range.mpr hi, hx⟩

theorem hashInputs_subset {numShards i : Nat} (hi : i < numShards) (round : Dispatch) :
    hashInputs (sentTo i round.pushes) ⊆ roundHashes numShards round := by
  intro x hx
  exact List.mem_flatMap.mpr ⟨i, List.mem_range.mpr hi, hx⟩

theorem append_subset_append {xs xs' ys ys' : List Bytes} (hx : xs ⊆ xs') (hy : ys ⊆ ys') :
    xs ++ ys ⊆ xs' ++ ys' := by
  apply List.append_subset.mpr
  constructor
  · exact List.subset_append_of_subset_left _ hx
  · exact List.subset_append_of_subset_right _ hy

/-- The summaries of a block belong to the shards in some order. -/
theorem BlockOk.arrivals {crypto : Crypto} {numShards r : Nat} {d : Dispatcher} {b : Assembled}
    (h : BlockOk crypto numShards d.rounds r b) (hinv : DispatcherInv numShards d)
    (hr : r < d.rounds.length) :
    ∃ ids : List Nat, ids.Perm (List.range numShards) ∧
      b.summaries.read numShards = some (ids.map fun i =>
        summarise crypto (UInt32.ofNat i) (sentTo i d.rounds[r].pushes)) ∧
      b.block.merkleRoot = crypto.sha256 (rootsOf numShards b) := by
  rcases h.built with ⟨l, hholds, hperm, hblock⟩
  rcases hinv.rounds r hr with ⟨roundStartMs, hpushes⟩
  have hlen : l.length = numShards := by
    rw [hperm.length_eq, List.length_map, List.length_range]
  have hread : b.summaries.read numShards = some l := by
    rw [← hlen]
    exact hholds.read
  rcases (congrFun (congrFun (List.eq_map_comp_perm _) l) _).mpr hperm with ⟨ids, rfl, hids⟩
  refine ⟨ids, hids, ?_, ?_⟩
  · rw [hread, Option.some.injEq]
    apply List.map_congr_left
    intro i hi
    have hlt : i < numShards := List.mem_range.mp (hids.mem_iff.mp hi)
    rw [hpushes, sentTo_pushesOf hlt, summaryAt, shareAt_eq hr]
  · rw [hblock, rootsOf, hread]
    rfl

/-- Two blocks with the same root, of rounds of as many shards. -/
theorem BlockOk.commits {crypto : Crypto} {numShards r₁ r₂ : Nat} {d₁ d₂ : Dispatcher}
    {b₁ b₂ : Assembled} (h₁ : BlockOk crypto numShards d₁.rounds r₁ b₁)
    (h₂ : BlockOk crypto numShards d₂.rounds r₂ b₂) (hinv₁ : DispatcherInv numShards d₁)
    (hinv₂ : DispatcherInv numShards d₂) (hr₁ : r₁ < d₁.rounds.length)
    (hr₂ : r₂ < d₂.rounds.length) (hroot : b₁.block.merkleRoot = b₂.block.merkleRoot) :
    SameRound numShards d₁.rounds[r₁] d₂.rounds[r₂] ∨
      Broken crypto
        (blockInputs crypto numShards d₁.rounds[r₁] b₁ ++
          blockInputs crypto numShards d₂.rounds[r₂] b₂)
        (roundHashes numShards d₁.rounds[r₁] ++ roundHashes numShards d₂.rounds[r₂]) := by
  rcases h₁.arrivals hinv₁ hr₁ with ⟨ids₁, hids₁, hread₁, hroot₁⟩
  rcases h₂.arrivals hinv₂ hr₂ with ⟨ids₂, hids₂, hread₂, hroot₂⟩
  have hlen : ids₁.length = ids₂.length := hids₁.length_eq.trans hids₂.length_eq.symm
  rw [hroot₁, hroot₂] at hroot
  by_cases hconcat : rootsOf numShards b₁ = rootsOf numShards b₂
  · -- the leader hashed the same: so the roots agree in the order of arrival
    unfold rootsOf at hconcat
    rw [hread₁, hread₂] at hconcat
    have hroots := roots_inj (by rw [Option.getD_some, Option.getD_some, List.length_map,
      List.length_map, hlen]) hconcat
    rw [Option.getD_some, Option.getD_some, List.map_map, List.map_map] at hroots
    by_cases hbroken : Broken crypto
        (blockInputs crypto numShards d₁.rounds[r₁] b₁ ++
          blockInputs crypto numShards d₂.rounds[r₂] b₂)
        (roundHashes numShards d₁.rounds[r₁] ++ roundHashes numShards d₂.rounds[r₂])
    · exact Or.inr hbroken
    · left
      apply sameRound_of_matching (hinv₁.rounds r₁ hr₁) (hinv₂.rounds r₂ hr₂) hids₁ hids₂
      intro q hq
      have hroot' := (List.forall₂_iff_zip.mp (List.forall₂_map_left_iff.mp
        (List.forall₂_map_right_iff.mp (List.forall₂_eq_eq_eq ▸ hroots)))).2 hq
      rcases merkleFold_commits crypto _ _ hroot' with hsame | hbad
      · exact hsame
      · exfalso
        apply hbroken
        have hq₁ := List.mem_range.mp (hids₁.subset (List.of_mem_zip hq).1)
        have hq₂ := List.mem_range.mp (hids₂.subset (List.of_mem_zip hq).2)
        apply hbad.mono
        · exact append_subset_append (foldInputs_subset crypto hq₁ _ b₁)
            (foldInputs_subset crypto hq₂ _ b₂)
        · exact append_subset_append (hashInputs_subset hq₁ _) (hashInputs_subset hq₂ _)
  · right
    refine .sha256 ⟨rootsOf numShards b₁, ?_, rootsOf numShards b₂, ?_, hconcat, hroot⟩
    · exact List.mem_append_left _ List.mem_cons_self
    · exact List.mem_append_right _ List.mem_cons_self

/-- In any two runs of clusters of as many shards: blocks with the same root come
from rounds that sent every shard transactions with the same contents in the same
order, whatever order the results came in, or a hash function failed one of their
inputs. -/
theorem block_commits (crypto : Crypto) (capacity₁ capacity₂ numShards : Nat) (hpos : 0 < numShards)
    (hle : numShards ≤ maxShards) (labels₁ labels₂ : List Cluster.Label) :
    ∃ s₁ s₂,
      Run.run (Cluster.step crypto numShards) (Cluster.create capacity₁ numShards) labels₁ =
        .ok s₁ ∧
      Run.run (Cluster.step crypto numShards) (Cluster.create capacity₂ numShards) labels₂ =
        .ok s₂ ∧
      ∀ r₁ (h₁ : r₁ < s₁.blocks.length) r₂ (h₂ : r₂ < s₂.blocks.length),
        s₁.blocks[r₁].block.merkleRoot = s₂.blocks[r₂].block.merkleRoot →
        ∃ round₁ round₂, s₁.dispatcher.rounds[r₁]? = some round₁ ∧
          s₂.dispatcher.rounds[r₂]? = some round₂ ∧
          (SameRound numShards round₁ round₂ ∨
            Broken crypto
              (blockInputs crypto numShards round₁ s₁.blocks[r₁] ++
                blockInputs crypto numShards round₂ s₂.blocks[r₂])
              (roundHashes numShards round₁ ++ roundHashes numShards round₂)) := by
  have hstep : ∀ (s : Cluster) (label : Cluster.Label), ClusterInv crypto numShards s →
      ∃ s', s.step crypto numShards label = .ok s' ∧ ClusterInv crypto numShards s' :=
    clusterStep_inv hpos hle
  rcases Run.run_inv (ClusterInv crypto numShards) hstep labels₁ _
    (clusterCreate_inv crypto capacity₁ hpos hle) with ⟨s₁, hrun₁, hinv₁⟩
  rcases Run.run_inv (ClusterInv crypto numShards) hstep labels₂ _
    (clusterCreate_inv crypto capacity₂ hpos hle) with ⟨s₂, hrun₂, hinv₂⟩
  refine ⟨s₁, s₂, hrun₁, hrun₂, ?_⟩
  intro r₁ h₁ r₂ h₂ hroot
  have hblock₁ := hinv₁.blocks r₁ h₁
  have hblock₂ := hinv₂.blocks r₂ h₂
  refine ⟨_, _, List.getElem?_eq_getElem hblock₁.lt, List.getElem?_eq_getElem hblock₂.lt, ?_⟩
  exact hblock₁.commits hblock₂ hinv₁.core hinv₂.core hblock₁.lt hblock₂.lt hroot

/-- The two transactions in the other order, and the follower before the leader. -/
def twoShardRoundSwapped : List Cluster.Label :=
  [.add ⟨1, 0, zeros 20, zeros 20, 5, 9, zeros 64⟩ none,
    .add ⟨0, 0, zeros 20, zeros 20, 5, 9, zeros 64⟩ none, .dispatch 7 2 1] ++
    List.replicate 6 .send ++
    List.replicate 3 (.leader (fun _ => false) 1 Schedule.sequential) ++
    List.replicate 4 (.follower 1 Schedule.sequential) ++
    List.replicate 6 (.leader (fun _ => false) 1 Schedule.sequential)

theorem block_commits_swapped :
    ∃ s₁ s₂,
      Run.run (Cluster.step Crypto.rejecting 2) (Cluster.create 4 2) twoShardRound = .ok s₁ ∧
      Run.run (Cluster.step Crypto.rejecting 2) (Cluster.create 8 2) twoShardRoundSwapped =
        .ok s₂ ∧
      ∀ r₁ (h₁ : r₁ < s₁.blocks.length) r₂ (h₂ : r₂ < s₂.blocks.length),
        s₁.blocks[r₁].block.merkleRoot = s₂.blocks[r₂].block.merkleRoot →
        ∃ round₁ round₂, s₁.dispatcher.rounds[r₁]? = some round₁ ∧
          s₂.dispatcher.rounds[r₂]? = some round₂ ∧
          (SameRound 2 round₁ round₂ ∨
            Broken Crypto.rejecting
              (blockInputs Crypto.rejecting 2 round₁ s₁.blocks[r₁] ++
                blockInputs Crypto.rejecting 2 round₂ s₂.blocks[r₂])
              (roundHashes 2 round₁ ++ roundHashes 2 round₂)) :=
  block_commits Crypto.rejecting 4 8 2 (by decide) (by decide) twoShardRound twoShardRoundSwapped

example : (Run.run (Cluster.step Crypto.rejecting 2) (Cluster.create 8 2)
    twoShardRoundSwapped).toOption.map (fun s => s.blocks.map fun b => b.block.merkleRoot) =
    some [Crypto.rejecting.sha256 []] := by decide +kernel

end Sharding
