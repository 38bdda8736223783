import Sharding.Lib.CInt
import Sharding.Lib.Run
import Sharding.Assigner

/-! # Nodes and the election of winners

`node.c` and `election.c`. An election draws one winner per shard with
probability proportional to the stake, among the nodes not drawn yet. Sums are
`uint64_t` and wrap, `rand()` is a given sequence of results, and a scan that
selects nobody leaves the winner at index 0. Array accesses are checked.
-/

namespace Sharding

/-- `MAX_NODES` -/
def maxNodes : Nat := 256

/-- `NodeRole` -/
inductive NodeRole where
  | validator
  | winner
deriving DecidableEq

/-- `NodeState` -/
inductive NodeState where
  | idle
  | processing
deriving DecidableEq

/-- `Node`, without its address. -/
structure Node where
  id : UInt32
  stake : UInt64
  /-- −1 while not assigned. -/
  shardId : Int
  role : NodeRole
  state : NodeState
deriving DecidableEq

/-- `node_create` -/
def nodeCreate (id : UInt32) (stake : UInt64) : Node := ⟨id, stake, -1, .validator, .idle⟩

/-- `node_assign_shard` -/
def nodeAssignShard (node : Node) (shardId : Int) : Node :=
  { node with shardId := shardId, role := .winner }

@[simp] theorem nodeAssignShard_shardId (node : Node) (shardId : Int) :
    (nodeAssignShard node shardId).shardId = shardId := rfl

/-- The results of `rand()`, and how many have been drawn. -/
structure Rand where
  results : Nat → UInt64
  drawn : Nat

def Rand.next (rand : Rand) : UInt64 × Rand :=
  (rand.results rand.drawn, { rand with drawn := rand.drawn + 1 })

/-- `a[i]` of an array with the elements `a`. -/
def loadAt {α : Type} (a : List α) (i : Nat) : Except Fault α :=
  match a[i]? with
  | some x => .ok x
  | none => .error .nodeIndex

/-- Change `a[i]`. -/
def updateAt {α : Type} (a : List α) (i : Nat) (f : α → α) : Except Fault (List α) :=
  if i < a.length then .ok (a.modify i f) else .error .nodeIndex

/-! ## The election -/

/-- The loop that adds up the stakes of the unused nodes. -/
def sumStakes (nodes : List Node) (used : List Bool) : List Nat → UInt64 → Except Fault UInt64
  | [], totalStake => .ok totalStake
  | n :: ns, totalStake => do
      let u ← loadAt used n
      if u then sumStakes nodes used ns totalStake
      else do
        let node ← loadAt nodes n
        sumStakes nodes used ns (totalStake + node.stake)

/-- The loop that looks for the node whose interval contains `pick`. -/
def scanStakes (nodes : List Node) (used : List Bool) (pick : UInt64) :
    List Nat → UInt64 → Except Fault Nat
  -- no interval contains `pick`: `winner_idx` keeps its first value
  | [], _ => .ok 0
  | n :: ns, cumulative => do
      let u ← loadAt used n
      if u then scanStakes nodes used pick ns cumulative
      else do
        let node ← loadAt nodes n
        if cumulative + node.stake > pick then .ok n
        else scanStakes nodes used pick ns (cumulative + node.stake)

/-- The variables of `elect_winners`; winners are given by their index. -/
structure Election where
  nodes : List Node
  used : List Bool
  winners : List Nat
  rand : Rand

/-- The body of the loop over the shards. -/
def electShard (numNodes : Nat) (el : Election) (s : Nat) : Except Fault Election := do
  let totalStake ← sumStakes el.nodes el.used (List.range numNodes) 0
  let (pick, rand) :=
    if totalStake > 0 then (el.rand.next.1 % totalStake, el.rand.next.2) else (0, el.rand)
  let winnerIdx ← scanStakes el.nodes el.used pick (List.range numNodes) 0
  let used ← updateAt el.used winnerIdx fun _ => true
  let nodes ← updateAt el.nodes winnerIdx fun node => nodeAssignShard node (CInt.wrap 32 s)
  .ok ⟨nodes, used, el.winners ++ [winnerIdx], rand⟩

/-- `elect_winners`: `none` is the null pointer. -/
def electWinners (nodes : List Node) (numNodes numShards : Nat) (rand : Rand) :
    Except Fault (Option Election) :=
  if numNodes = 0 ∨ numShards = 0 ∨ numShards > numNodes then .ok none
  else do
    let el ← Run.run (electShard numNodes) ⟨nodes, List.replicate numNodes false, [], rand⟩
      (List.range numShards)
    .ok (some el)

/-! ## An election reads and writes inside its arrays -/

theorem loadAt_ok {α : Type} {a : List α} {i : Nat} (h : i < a.length) :
    loadAt a i = .ok a[i] := by
  rw [loadAt, List.getElem?_eq_getElem h]

theorem updateAt_ok {α : Type} {a : List α} {i : Nat} (f : α → α) (h : i < a.length) :
    updateAt a i f = .ok (a.modify i f) := by
  rw [updateAt, if_pos h]

theorem sumStakes_ok {nodes : List Node} {used : List Bool} (hlen : used.length = nodes.length)
    (ns : List Nat) (hns : ∀ n ∈ ns, n < nodes.length) (totalStake : UInt64) :
    ∃ t, sumStakes nodes used ns totalStake = .ok t := by
  induction ns generalizing totalStake with
  | nil => exact ⟨totalStake, rfl⟩
  | cons n ns ih =>
      have hn : n < nodes.length := hns n List.mem_cons_self
      have hu : n < used.length := by omega
      have hrest : ∀ m ∈ ns, m < nodes.length := fun m hm => hns m (List.mem_cons_of_mem n hm)
      rw [sumStakes, loadAt_ok hu, Run.ok_bind]
      cases used[n] with
      | true => exact ih hrest totalStake
      | false =>
          simp only [Bool.false_eq_true, if_false, loadAt_ok hn, Run.ok_bind]
          exact ih hrest _

/-- The scan selects a node of the array. -/
theorem scanStakes_ok {nodes : List Node} {used : List Bool} (hlen : used.length = nodes.length)
    (hpos : 0 < nodes.length) (pick : UInt64) (ns : List Nat)
    (hns : ∀ n ∈ ns, n < nodes.length) (cumulative : UInt64) :
    ∃ i, scanStakes nodes used pick ns cumulative = .ok i ∧ i < nodes.length := by
  induction ns generalizing cumulative with
  | nil => exact ⟨0, rfl, hpos⟩
  | cons n ns ih =>
      have hn : n < nodes.length := hns n List.mem_cons_self
      have hu : n < used.length := by omega
      have hrest : ∀ m ∈ ns, m < nodes.length := fun m hm => hns m (List.mem_cons_of_mem n hm)
      rw [scanStakes, loadAt_ok hu, Run.ok_bind]
      cases used[n] with
      | true => exact ih hrest cumulative
      | false =>
          simp only [Bool.false_eq_true, if_false, loadAt_ok hn, Run.ok_bind]
          by_cases hpick : cumulative + nodes[n].stake > pick
          · rw [if_pos hpick]
            exact ⟨n, rfl, hn⟩
          · rw [if_neg hpick]
            exact ih hrest _

/-- One winner is drawn, and the arrays keep their lengths. -/
theorem electShard_ok {numNodes : Nat} {el : Election} (hpos : 0 < numNodes)
    (hnodes : el.nodes.length = numNodes) (hused : el.used.length = numNodes) (s : Nat) :
    ∃ el', electShard numNodes el s = .ok el' ∧
      el'.nodes.length = numNodes ∧ el'.used.length = numNodes := by
  have hlen : el.used.length = el.nodes.length := by omega
  have hrange : ∀ n ∈ List.range numNodes, n < el.nodes.length := by
    intro n hn
    have := List.mem_range.mp hn
    omega
  rcases sumStakes_ok hlen (List.range numNodes) hrange 0 with ⟨total, htotal⟩
  rcases scanStakes_ok hlen (by omega)
    (if total > 0 then (el.rand.next.1 % total, el.rand.next.2) else (0, el.rand)).1
    (List.range numNodes) hrange 0 with ⟨i, hscan, hi⟩
  have hi' : i < el.used.length := by omega
  rw [electShard, htotal]
  simp only [Run.ok_bind, hscan, updateAt_ok _ hi, updateAt_ok _ hi']
  refine ⟨_, rfl, ?_, ?_⟩
  · rw [List.length_modify, hnodes]
  · rw [List.length_modify, hused]

/-- With a node per shard the election returns winners and keeps the nodes. -/
theorem electWinners_ok {nodes : List Node} (hpos : 0 < nodes.length) (rand : Rand) :
    ∃ el, electWinners nodes nodes.length nodes.length rand = .ok (some el) ∧
      el.nodes.length = nodes.length := by
  have hok : ¬ (nodes.length = 0 ∨ nodes.length = 0 ∨ nodes.length > nodes.length) := by omega
  rcases Run.run_inv
    (fun el : Election => el.nodes.length = nodes.length ∧ el.used.length = nodes.length)
    (fun el s h => electShard_ok hpos h.1 h.2 s) (List.range nodes.length)
    ⟨nodes, List.replicate nodes.length false, [], rand⟩ ⟨rfl, List.length_replicate⟩ with
    ⟨el, hrun, hlen, -⟩
  refine ⟨el, ?_, hlen⟩
  rw [electWinners, if_neg hok, hrun]
  rfl

end Sharding
