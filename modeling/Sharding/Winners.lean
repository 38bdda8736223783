import Sharding.Election
import Sharding.Lib.Lottery

/-! # Who wins an election

The scan of `elect_winners` is a draw by weight: over the stakes of the unused
nodes it cuts the numbers below their total into intervals, and the draw lands in
one of them (`scanStakes_eq`). A draw without any unused stake selects nobody and
leaves the winner at node 0, whether node 0 is used or not. An election therefore
has distinct winners as long as its shards do not outnumber the nodes that can be
drawn: those with a stake, and node 0.
-/

namespace Sharding

/-- The stake of node `n`. -/
def stakeOf (nodes : List Node) (n : Nat) : UInt64 :=
  match nodes[n]? with
  | some node => node.stake
  | none => 0

def isUnused (used : List Bool) (n : Nat) : Bool := used[n]? == some false

/-- The unused nodes, in the order of the array. -/
def unusedNodes (used : List Bool) (numNodes : Nat) : List Nat :=
  (List.range numNodes).filter (isUnused used)

/-- The exact total of the unused stakes. -/
def unusedStake (nodes : List Node) (used : List Bool) : Nat :=
  Lottery.total (fun n => (stakeOf nodes n).toNat) (unusedNodes used nodes.length)

/-- The nodes that a draw can end at: those with a stake, and node 0. -/
def eligible (nodes : List Node) : List Nat :=
  (List.range nodes.length).filter fun n => n == 0 || stakeOf nodes n != 0

/-! ## The two loops of a draw -/

theorem stakeOf_lt {nodes : List Node} {n : Nat} (h : n < nodes.length) :
    stakeOf nodes n = nodes[n].stake := by
  rw [stakeOf, List.getElem?_eq_getElem h]

theorem isUnused_lt {used : List Bool} {n : Nat} (h : n < used.length) :
    isUnused used n = !used[n] := by
  rw [isUnused, List.getElem?_eq_getElem h]
  cases used[n] <;> rfl

section loops

variable {nodes : List Node} {used : List Bool}

/-- One round of `sumStakes`. -/
theorem sumStakes_cons (hlen : used.length = nodes.length) {n : Nat} (hn : n < nodes.length)
    (ns : List Nat) (totalStake : UInt64) :
    sumStakes nodes used (n :: ns) totalStake =
      if isUnused used n then sumStakes nodes used ns (totalStake + stakeOf nodes n)
      else sumStakes nodes used ns totalStake := by
  have hu : n < used.length := by omega
  rw [sumStakes, loadAt_ok hu, loadAt_ok hn, isUnused_lt hu, stakeOf_lt hn]
  cases used[n] <;> rfl

/-- One round of `scanStakes`. -/
theorem scanStakes_cons (hlen : used.length = nodes.length) {n : Nat} (hn : n < nodes.length)
    (pick : UInt64) (ns : List Nat) (cumulative : UInt64) :
    scanStakes nodes used pick (n :: ns) cumulative =
      if isUnused used n then
        if cumulative + stakeOf nodes n > pick then .ok n
        else scanStakes nodes used pick ns (cumulative + stakeOf nodes n)
      else scanStakes nodes used pick ns cumulative := by
  have hu : n < used.length := by omega
  rw [scanStakes, loadAt_ok hu, loadAt_ok hn, isUnused_lt hu, stakeOf_lt hn]
  cases used[n] <;> rfl

/-- The scan hits an unused node with a stake; or it falls through to 0, the total
is not beyond `pick`, and if `pick` is 0 no unused node has a stake. -/
theorem scanStakes_cases (hlen : used.length = nodes.length) (pick : UInt64) (ns : List Nat)
    (hns : ∀ n ∈ ns, n < nodes.length) (cumulative : UInt64) (hle : cumulative ≤ pick) :
    (∃ i ∈ ns, scanStakes nodes used pick ns cumulative = .ok i ∧ isUnused used i ∧
      stakeOf nodes i ≠ 0) ∨
    (scanStakes nodes used pick ns cumulative = .ok 0 ∧
      (∃ t, sumStakes nodes used ns cumulative = .ok t ∧ t ≤ pick) ∧
      (pick = 0 → ∀ n ∈ ns, isUnused used n → stakeOf nodes n = 0)) := by
  induction ns generalizing cumulative with
  | nil => exact Or.inr ⟨rfl, ⟨cumulative, rfl, hle⟩, fun _ n hn => absurd hn List.not_mem_nil⟩
  | cons n ns ih =>
      have hn : n < nodes.length := hns n List.mem_cons_self
      have hrest : ∀ m ∈ ns, m < nodes.length := fun m hm => hns m (List.mem_cons_of_mem n hm)
      rw [scanStakes_cons hlen hn, sumStakes_cons hlen hn]
      by_cases hu : isUnused used n
      · rw [if_pos hu, if_pos hu]
        by_cases hhit : cumulative + stakeOf nodes n > pick
        · rw [if_pos hhit]
          refine Or.inl ⟨n, List.mem_cons_self, rfl, hu, ?_⟩
          -- without a stake the sum would not have moved beyond `pick`
          intro hzero
          rw [hzero, UInt64.add_zero] at hhit
          exact absurd hhit (UInt64.not_lt.mpr hle)
        · rw [if_neg hhit]
          rcases ih hrest _ (UInt64.not_lt.mp hhit) with ⟨i, hi, hscan⟩ | ⟨hscan, hsum, hnone⟩
          · exact Or.inl ⟨i, List.mem_cons_of_mem n hi, hscan⟩
          · refine Or.inr ⟨hscan, hsum, ?_⟩
            intro hpick m hm hum
            rcases List.mem_cons.mp hm with rfl | hm
            · subst hpick
              have hcum : cumulative = 0 := UInt64.le_zero_iff.mp hle
              rw [hcum, UInt64.zero_add] at hhit
              exact UInt64.le_zero_iff.mp (UInt64.not_lt.mp hhit)
            · exact hnone hpick m hm hum
      · rw [if_neg hu, if_neg hu]
        rcases ih hrest cumulative hle with ⟨i, hi, hscan⟩ | ⟨hscan, hsum, hnone⟩
        · exact Or.inl ⟨i, List.mem_cons_of_mem n hi, hscan⟩
        · refine Or.inr ⟨hscan, hsum, ?_⟩
          intro hpick m hm hum
          rcases List.mem_cons.mp hm with rfl | hm
          · exact absurd hum hu
          · exact hnone hpick m hm hum

/-- The sum is the exact total, taken modulo 2⁶⁴. -/
theorem sumStakes_eq (hlen : used.length = nodes.length) (ns : List Nat)
    (hns : ∀ n ∈ ns, n < nodes.length) (totalStake : UInt64) :
    sumStakes nodes used ns totalStake = .ok (totalStake + UInt64.ofNat
      (Lottery.total (fun n => (stakeOf nodes n).toNat) (ns.filter (isUnused used)))) := by
  induction ns generalizing totalStake with
  | nil => simp [sumStakes]
  | cons n ns ih =>
      have hn : n < nodes.length := hns n List.mem_cons_self
      have hrest : ∀ m ∈ ns, m < nodes.length := fun m hm => hns m (List.mem_cons_of_mem n hm)
      rw [sumStakes_cons hlen hn, List.filter_cons]
      by_cases hu : isUnused used n
      · rw [if_pos hu, if_pos hu, ih hrest, Lottery.total_cons, UInt64.ofNat_add,
          UInt64.ofNat_toNat, UInt64.add_assoc]
      · rw [if_neg hu, if_neg hu, ih hrest]

/-- Without overflow the scan is the draw by weight among the unused nodes. -/
theorem scanStakes_eq (hlen : used.length = nodes.length) (pick : UInt64) (ns : List Nat)
    (hns : ∀ n ∈ ns, n < nodes.length) (cumulative : UInt64) (hle : cumulative ≤ pick)
    (hfit : cumulative.toNat + Lottery.total (fun n => (stakeOf nodes n).toNat)
      (ns.filter (isUnused used)) < 2 ^ 64) :
    scanStakes nodes used pick ns cumulative =
      .ok ((Lottery.select (fun n => (stakeOf nodes n).toNat) (ns.filter (isUnused used))
        (pick.toNat - cumulative.toNat)).getD 0) := by
  induction ns generalizing cumulative with
  | nil => rfl
  | cons n ns ih =>
      have hn : n < nodes.length := hns n List.mem_cons_self
      have hrest : ∀ m ∈ ns, m < nodes.length := fun m hm => hns m (List.mem_cons_of_mem n hm)
      rw [scanStakes_cons hlen hn]
      rw [List.filter_cons] at hfit ⊢
      by_cases hu : isUnused used n
      · rw [if_pos hu, Lottery.total_cons] at hfit
        rw [if_pos hu, if_pos hu, Lottery.select]
        have hsum : (cumulative + stakeOf nodes n).toNat =
            cumulative.toNat + (stakeOf nodes n).toNat := by
          rw [UInt64.toNat_add, Nat.mod_eq_of_lt (by omega)]
        have hle' : cumulative.toNat ≤ pick.toNat := UInt64.le_iff_toNat_le.mp hle
        by_cases hhit : cumulative + stakeOf nodes n > pick
        · -- the draw falls into the interval of `n`
          have hin : pick.toNat - cumulative.toNat < (stakeOf nodes n).toNat := by
            have := UInt64.lt_iff_toNat_lt.mp hhit
            omega
          rw [if_pos hhit, if_pos hin, Option.getD_some]
        · have hout := UInt64.le_iff_toNat_le.mp (UInt64.not_lt.mp hhit)
          rw [if_neg hhit, if_neg (by omega), ih hrest _ (UInt64.not_lt.mp hhit) (by omega), hsum,
            Nat.sub_add_eq]
      · -- a used node has no interval
        rw [if_neg hu] at hfit
        rw [if_neg hu, if_neg hu, ih hrest cumulative hle hfit]

end loops

/-! ## A draw is weighted by stake -/

/-- The scan of a draw selects node `n`. -/
def selects (nodes : List Node) (used : List Bool) (n pick : Nat) : Bool :=
  match scanStakes nodes used (UInt64.ofNat pick) (List.range nodes.length) 0 with
  | .ok i => i == n
  | .error _ => false

section draw

variable {nodes : List Node} {used : List Bool}

theorem lt_of_mem_range {α : Type} (a : List α) : ∀ n ∈ List.range a.length, n < a.length :=
  fun _ hn => List.mem_range.mp hn

theorem mem_unusedNodes {numNodes n : Nat} :
    n ∈ unusedNodes used numNodes ↔ n < numNodes ∧ isUnused used n := by
  rw [unusedNodes, List.mem_filter, List.mem_range]

theorem selects_eq (hlen : used.length = nodes.length) (hfit : unusedStake nodes used < 2 ^ 64)
    {pick : Nat} (hpick : pick < unusedStake nodes used) (n : Nat) :
    selects nodes used n pick =
      (Lottery.select (fun n => (stakeOf nodes n).toNat) (unusedNodes used nodes.length) pick ==
        some n) := by
  have hnat : (UInt64.ofNat pick).toNat = pick := by
    rw [UInt64.toNat_ofNat', Nat.mod_eq_of_lt (by omega)]
  rcases Lottery.select_total hpick with ⟨i, hi⟩
  have hscan := scanStakes_eq hlen (UInt64.ofNat pick) (List.range nodes.length)
    (lt_of_mem_range nodes) 0 UInt64.zero_le (by simpa [unusedStake, unusedNodes] using hfit)
  rw [hnat, UInt64.toNat_zero, Nat.sub_zero, ← unusedNodes, hi, Option.getD_some] at hscan
  rw [selects, hscan, hi]
  rfl

/-- Over the numbers below the total of the unused stakes, an unused node is selected
by exactly as many as its stake, other nodes and nodes without a stake by none, and
each number selects a node. -/
theorem draw_stake_weighted (nodes : List Node) (used : List Bool)
    (hlen : used.length = nodes.length) (hfit : unusedStake nodes used < 2 ^ 64) :
    sumStakes nodes used (List.range nodes.length) 0 =
      .ok (UInt64.ofNat (unusedStake nodes used)) ∧
    (∀ n < nodes.length, isUnused used n →
      (List.range (unusedStake nodes used)).countP (selects nodes used n) =
        (stakeOf nodes n).toNat) ∧
    (∀ n, ¬ isUnused used n ∨ stakeOf nodes n = 0 →
      ∀ pick < unusedStake nodes used, ¬ selects nodes used n pick) ∧
    (∀ pick < unusedStake nodes used, ∃ n < nodes.length, selects nodes used n pick) := by
  refine ⟨?_, ?_, ?_, ?_⟩
  · rw [sumStakes_eq hlen _ (lt_of_mem_range nodes), UInt64.zero_add]
    rfl
  · intro n hn hu
    have hcongr : (List.range (unusedStake nodes used)).countP (selects nodes used n) =
        (List.range (unusedStake nodes used)).countP (fun pick =>
          Lottery.select (fun n => (stakeOf nodes n).toNat) (unusedNodes used nodes.length) pick ==
            some n) := by
      apply List.countP_congr
      intro pick hpick
      rw [selects_eq hlen hfit (List.mem_range.mp hpick)]
    rw [hcongr]
    exact Lottery.select_count (List.nodup_range.filter _) (mem_unusedNodes.mpr ⟨hn, hu⟩)
  · intro n hn pick hpick hsel
    rw [selects_eq hlen hfit hpick, beq_iff_eq] at hsel
    rcases Lottery.select_some hsel with ⟨hmem, hstake⟩
    rcases hn with hused | hzero
    · exact hused (mem_unusedNodes.mp hmem).2
    · simp [hzero] at hstake
  · intro pick hpick
    rcases Lottery.select_total hpick with ⟨n, hn⟩
    refine ⟨n, (mem_unusedNodes.mp (Lottery.select_some hn).1).1, ?_⟩
    rw [selects_eq hlen hfit hpick, beq_iff_eq]
    exact hn

end draw

/-- Of the numbers 0 to 8, three select node 1, with stake 3; node 0 is used. -/
theorem draw_stake_weighted_three :
    (List.range 9).countP (selects [nodeCreate 0 4, nodeCreate 1 3, nodeCreate 2 6]
      [true, false, false] 1) = 3 :=
  (draw_stake_weighted [nodeCreate 0 4, nodeCreate 1 3, nodeCreate 2 6] [true, false, false]
    rfl (by decide)).2.1 1 (by decide) (by decide)

/-! ## Distinct winners -/

/-- What an election should end with: a node for each shard, all different, marked
with the shard and the role, and the other nodes as they were. -/
structure Elected (nodes : List Node) (numShards : Nat) (el : Election) : Prop where
  count : el.winners.length = numShards
  distinct : el.winners.Nodup
  winner : ∀ s n : Nat, el.winners[s]? = some n →
    ∃ node, el.nodes[n]? = some node ∧ node.shardId = s ∧ node.role = .winner
  other : ∀ n, n ∉ el.winners → el.nodes[n]?.map (fun node => (node.shardId, node.role)) =
    nodes[n]?.map (fun node => (node.shardId, node.role))

/-- The loop invariant of `elect_winners` before shard `s`. -/
structure Drawn (nodes : List Node) (s : Nat) (el : Election) : Prop where
  nodes_length : el.nodes.length = nodes.length
  used_length : el.used.length = nodes.length
  count : el.winners.length = s
  unused_iff : ∀ n < nodes.length, isUnused el.used n ↔ n ∉ el.winners
  stakes : ∀ n, stakeOf el.nodes n = stakeOf nodes n
  other : ∀ n, n ∉ el.winners → el.nodes[n]? = nodes[n]?
  winners_eligible : ∀ n ∈ el.winners, n ∈ eligible nodes
  assigned : el.winners.Nodup → ∀ t n : Nat, el.winners[t]? = some n →
    ∃ node, el.nodes[n]? = some node ∧ node.shardId = CInt.wrap 32 t ∧ node.role = .winner
  distinct : s ≤ (eligible nodes).length → el.winners.Nodup

theorem mem_eligible {nodes : List Node} {n : Nat} :
    n ∈ eligible nodes ↔ n < nodes.length ∧ (n = 0 ∨ stakeOf nodes n ≠ 0) := by
  simp [eligible]

theorem drawn_start (nodes : List Node) (rand : Rand) :
    Drawn nodes 0 ⟨nodes, List.replicate nodes.length false, [], rand⟩ where
  nodes_length := rfl
  used_length := List.length_replicate
  count := rfl
  unused_iff := by
    intro n hn
    simp [isUnused, hn]
  stakes := fun _ => rfl
  other := fun _ _ => rfl
  winners_eligible := fun _ hn => absurd hn List.not_mem_nil
  assigned := fun _ t n hn => by cases hn
  distinct := fun _ => List.nodup_nil

/-- A draw ends at an unused node with a stake, or at node 0 when no unused node has
a stake. -/
theorem electShard_draws {numNodes : Nat} {el : Election} (hpos : 0 < numNodes)
    (hnodes : el.nodes.length = numNodes) (hused : el.used.length = numNodes) (s : Nat) :
    ∃ i rand, electShard numNodes el s =
      .ok ⟨el.nodes.modify i fun node => nodeAssignShard node (CInt.wrap 32 s),
        el.used.modify i fun _ => true, el.winners ++ [i], rand⟩ ∧
      i < numNodes ∧
      ((isUnused el.used i ∧ stakeOf el.nodes i ≠ 0) ∨
        (i = 0 ∧ ∀ n < numNodes, isUnused el.used n → stakeOf el.nodes n = 0)) := by
  subst hnodes
  rcases sumStakes_ok hused (List.range el.nodes.length) (lt_of_mem_range _) 0 with
    ⟨total, htotal⟩
  let draw := if total > 0 then (el.rand.next.1 % total, el.rand.next.2) else (0, el.rand)
  have hdraw : ∀ i < el.nodes.length,
      scanStakes el.nodes el.used draw.1 (List.range el.nodes.length) 0 = .ok i →
      electShard el.nodes.length el s =
        .ok ⟨el.nodes.modify i fun node => nodeAssignShard node (CInt.wrap 32 s),
          el.used.modify i fun _ => true, el.winners ++ [i], draw.2⟩ := by
    intro i hi hscan
    rw [electShard, htotal]
    simp only [Run.ok_bind]
    rw [hscan]
    simp only [Run.ok_bind, updateAt_ok _ hi, updateAt_ok _ (hused ▸ hi)]
    rfl
  rcases scanStakes_cases hused draw.1 (List.range el.nodes.length) (lt_of_mem_range _) 0
    UInt64.zero_le with ⟨i, hi, hscan, hunused, hstake⟩ | ⟨hscan, ⟨t, ht, hle⟩, hnone⟩
  · have hlt := List.mem_range.mp hi
    exact ⟨i, draw.2, hdraw i hlt hscan, hlt, Or.inl ⟨hunused, hstake⟩⟩
  · refine ⟨0, draw.2, hdraw 0 hpos hscan, hpos, Or.inr ⟨rfl, ?_⟩⟩
    obtain rfl : total = t := Except.ok.inj (htotal.symm.trans ht)
    -- `pick` is below a positive total, so the total is 0 here and so is `pick`
    have hpick : draw.1 = 0 := by
      by_cases hzero : total > 0
      · have hlt : draw.1 < total := by
          simp only [draw, if_pos hzero]
          exact UInt64.mod_lt _ hzero
        exact absurd hlt (UInt64.not_lt.mpr hle)
      · simp only [draw, if_neg hzero]
    intro n hn
    exact hnone hpick n (List.mem_range.mpr hn)

/-- While nodes can still be drawn, the draw ends at a node that is no winner yet. -/
theorem Drawn.fresh {nodes : List Node} {s i : Nat} {el : Election} (h : Drawn nodes s el)
    (hi : i < nodes.length)
    (hcase : (isUnused el.used i ∧ stakeOf el.nodes i ≠ 0) ∨
      (i = 0 ∧ ∀ n < nodes.length, isUnused el.used n → stakeOf el.nodes n = 0))
    (hroom : s + 1 ≤ (eligible nodes).length) : i ∉ el.winners := by
  rcases hcase with ⟨hunused, -⟩ | ⟨rfl, hnone⟩
  · exact (h.unused_iff i hi).mp hunused
  · -- some node that can be drawn is no winner; without a stake it must be node 0
    have hdistinct := h.distinct (by omega)
    by_contra hzero
    have hsub : ∀ n ∈ eligible nodes, n ∈ el.winners := by
      intro n hn
      rcases mem_eligible.mp hn with ⟨hlt, rfl | hstake⟩
      · exact hzero
      · by_contra hfree
        have := hnone n hlt ((h.unused_iff n hlt).mpr hfree)
        rw [h.stakes n] at this
        exact hstake this
    have hle := ((List.nodup_range.filter _).subperm hsub).length_le
    have hcount := h.count
    have : (eligible nodes).length ≤ s := hcount ▸ hle
    omega

/-- One draw keeps the invariant. -/
theorem Drawn.step {nodes : List Node} {s : Nat} {el : Election} (h : Drawn nodes s el)
    (hpos : 0 < nodes.length) :
    ∃ el', electShard nodes.length el s = .ok el' ∧ Drawn nodes (s + 1) el' := by
  rcases electShard_draws hpos h.nodes_length h.used_length s with ⟨i, rand, hok, hi, hcase⟩
  have hmem : ∀ n, n ∉ el.winners ++ [i] ↔ n ∉ el.winners ∧ n ≠ i := by
    intro n
    simp
  refine ⟨_, hok, ?_⟩
  constructor
  · simpa using h.nodes_length
  · simpa using h.used_length
  · simp [h.count]
  · -- used are the winners
    intro n hn
    rw [hmem, ← h.unused_iff n hn, isUnused, isUnused, List.getElem?_modify]
    by_cases hni : i = n
    · simp [hni]
    · simp [hni, Ne.symm hni]
  · -- an assignment leaves the stakes alone
    intro n
    rw [← h.stakes n, stakeOf, stakeOf, List.getElem?_modify]
    by_cases hni : i = n
    · cases el.nodes[n]? <;> simp [hni, nodeAssignShard]
    · simp [hni]
  · intro n hn
    rcases (hmem n).mp hn with ⟨hold, hne⟩
    rw [List.getElem?_modify_ne _ _ (Ne.symm hne)]
    exact h.other n hold
  · intro n hn
    rcases List.mem_append.mp hn with hold | hnew
    · exact h.winners_eligible n hold
    · obtain rfl := List.mem_singleton.mp hnew
      refine mem_eligible.mpr ⟨hi, ?_⟩
      rcases hcase with ⟨-, hstake⟩ | ⟨hzero, -⟩
      · exact Or.inr (h.stakes n ▸ hstake)
      · exact Or.inl hzero
  · intro hnodup t n ht
    rcases List.nodup_append.mp hnodup with ⟨hold, -, hdisj⟩
    rcases Nat.lt_or_ge t el.winners.length with hlt | hge
    · -- an earlier winner is not the new one, so its node stays
      rw [List.getElem?_append_left hlt] at ht
      have hne : i ≠ n := (hdisj n (List.mem_of_getElem? ht) i List.mem_cons_self).symm
      rw [List.getElem?_modify_ne _ _ hne]
      exact h.assigned hold t n ht
    · -- the new winner has just been assigned
      rw [List.getElem?_append_right hge] at ht
      rcases List.getElem?_eq_some_iff.mp ht with ⟨hidx, hni⟩
      have ht' : t = s := by
        have := h.count
        simp at hidx
        omega
      have hlen : i < el.nodes.length := by rw [h.nodes_length]; exact hi
      simp at hni
      subst hni ht'
      refine ⟨nodeAssignShard el.nodes[i] (CInt.wrap 32 t), ?_, nodeAssignShard_shardId _ _, rfl⟩
      rw [List.getElem?_modify_eq, List.getElem?_eq_getElem hlen]
      rfl
  · intro hroom
    have hfresh := h.fresh hi hcase hroom
    refine List.nodup_append.mpr ⟨h.distinct (by omega), List.nodup_singleton i, ?_⟩
    intro n hn m hm
    obtain rfl := List.mem_singleton.mp hm
    exact fun heq => hfresh (heq ▸ hn)

/-- An election that is held runs to its end. -/
theorem electWinners_drawn {nodes : List Node} {numShards : Nat} (hpos : 1 ≤ numShards)
    (hle : numShards ≤ nodes.length) (rand : Rand) :
    ∃ el, electWinners nodes nodes.length numShards rand = .ok (some el) ∧
      Drawn nodes numShards el := by
  have hheld : ¬ (nodes.length = 0 ∨ numShards = 0 ∨ numShards > nodes.length) := by omega
  rcases Run.run_range_inv (Drawn nodes) (fun _ _ h => h.step (by omega)) numShards _
    (drawn_start nodes rand) with ⟨el, hrun, hdrawn⟩
  refine ⟨el, ?_, hdrawn⟩
  rw [electWinners, if_neg hheld, hrun, Run.ok_bind]

/-- An election ends with a distinct winner for each shard exactly if the shards do
not outnumber the nodes that can be drawn, and their numbers fit the `int` of a node. -/
theorem elected_iff {nodes : List Node} {numShards : Nat} (hpos : 1 ≤ numShards)
    (hle : numShards ≤ nodes.length) (rand : Rand) :
    (∃ el, electWinners nodes nodes.length numShards rand = .ok (some el) ∧
      Elected nodes numShards el) ↔
    numShards ≤ (eligible nodes).length ∧ numShards ≤ 2 ^ 31 := by
  rcases electWinners_drawn hpos hle rand with ⟨el, hok, hdrawn⟩
  constructor
  · rintro ⟨el', hok', helected⟩
    obtain rfl : el = el' := Option.some.inj (Except.ok.inj (hok.symm.trans hok'))
    constructor
    · have hsub := helected.distinct.subperm hdrawn.winners_eligible
      exact hdrawn.count ▸ hsub.length_le
    · -- the last shard's number is its winner's
      have hlast : numShards - 1 < el.winners.length := by
        have := hdrawn.count
        omega
      have hwin : el.winners[numShards - 1]? = some el.winners[numShards - 1] :=
        List.getElem?_eq_getElem hlast
      rcases helected.winner _ _ hwin with ⟨node, hnode, hshard, -⟩
      rcases hdrawn.assigned helected.distinct _ _ hwin with ⟨node', hnode', hshard', -⟩
      obtain rfl : node = node' := Option.some.inj (hnode.symm.trans hnode')
      have hfits := CInt.fits_int.mp (CInt.wrap_eq_iff.mp (hshard'.symm.trans hshard))
      omega
  · rintro ⟨hroom, hsmall⟩
    have hdistinct := hdrawn.distinct hroom
    refine ⟨el, hok, hdrawn.count, hdistinct, ?_, ?_⟩
    · intro s n hwin
      rcases hdrawn.assigned hdistinct s n hwin with ⟨node, hnode, hshard, hrole⟩
      have hs : s < numShards := by
        rcases List.getElem?_eq_some_iff.mp hwin with ⟨hlt, -⟩
        rw [hdrawn.count] at hlt
        exact hlt
      exact ⟨node, hnode, hshard.trans (CInt.wrap_eq_iff.mpr (CInt.fits_int.mpr (by omega))),
        hrole⟩
    · intro n hn
      rw [hdrawn.other n hn]

/-- Two nodes with a stake and node 0 without one fill three shards. -/
theorem elected_iff_three :
    ∃ el, electWinners [nodeCreate 0 0, nodeCreate 1 5, nodeCreate 2 7] 3 3 ⟨fun _ => 8, 0⟩ =
      .ok (some el) ∧
      Elected [nodeCreate 0 0, nodeCreate 1 5, nodeCreate 2 7] 3 el :=
  (elected_iff (by decide) (by decide) ⟨fun _ => 8, 0⟩).mpr ⟨by decide, by decide⟩

/-- Where node 0 holds all the stake, it is drawn for both shards. -/
theorem winner_drawn_twice :
    ¬ ∃ el, electWinners [nodeCreate 0 5, nodeCreate 1 0] 2 2 ⟨fun _ => 3, 0⟩ = .ok (some el) ∧
      Elected [nodeCreate 0 5, nodeCreate 1 0] 2 el := by
  rintro ⟨el, hok, helected⟩
  have hrun : (electWinners [nodeCreate 0 5, nodeCreate 1 0] 2 2 ⟨fun _ => 3, 0⟩).map
      (fun r => r.map Election.winners) = .ok (some [0, 0]) := rfl
  rw [hok] at hrun
  have hwinners : el.winners = [0, 0] := Option.some.inj (Except.ok.inj hrun)
  have hdistinct := helected.distinct
  rw [hwinners] at hdistinct
  exact absurd hdistinct (by decide)

end Sharding
