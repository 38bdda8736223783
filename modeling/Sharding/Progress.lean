import Mathlib.Algebra.Order.BigOperators.Group.Finset
import Mathlib.Order.Interval.Finset.Nat
import Sharding.Lib.Progress
import Sharding.Moves

/-! # Nobody waits for ever

A rank for the round that is open: what is not sent, received, reported and
collected of it. Later rounds do not enter it, as their messages queue up behind.
As long as nobody has missed the announcement, some party can move; its move
lowers the rank, and no other move raises it.
-/

namespace Sharding

/-! ## What is not sent yet -/

def Outgoing.isDone : Outgoing → Bool
  | .push _ => false
  | .done _ => true

/-- What the last dispatch sends. -/
def lastOutgoing (rounds : List Dispatch) : List Outgoing :=
  (rounds.drop (rounds.length - 1)).flatMap Cluster.outgoing

/-- How many rounds of `done` messages the leader has consumed, beyond those of its blocks. -/
def LeaderState.opened : LeaderState → Nat
  | .waiting => 0
  | .waitDone => 0
  | .announcing => 1
  | .processing _ => 1
  | .collecting _ => 1

/-- What the rounds after `k` bring to shard `i`. -/
def restAfter (i : Nat) (rounds : List Dispatch) (k : Nat) : Nat :=
  ((rounds.drop (k + 1)).flatMap (roundBytes i)).length

/-- The invariant of `ClusterInv`, and what makes every message come in the end. -/
structure LiveInv (crypto : Crypto) (numShards : Nat) (s : Cluster) : Prop where
  inv : ClusterInv crypto numShards s
  /-- What is not sent yet is the end of the last dispatch. -/
  unsent : s.outbox <:+ lastOutgoing s.dispatcher.rounds
  /-- Every round has its `done` message: not sent yet, on its way, or consumed. -/
  dones : s.outbox.countP Outgoing.isDone + s.done.length + (s.blocks.length + s.leader.opened) =
    s.dispatcher.rounds.length

theorem countP_outgoing (round : Dispatch) :
    (Cluster.outgoing round).countP Outgoing.isDone = 1 := by
  unfold Cluster.outgoing
  rw [List.countP_append, List.countP_map]
  simp [Outgoing.isDone, Function.comp_def]

theorem lastOutgoing_concat (rounds : List Dispatch) (x : Dispatch) :
    lastOutgoing (rounds ++ [x]) = Cluster.outgoing x := by
  simp [lastOutgoing]

/-- What is not sent yet holds at most one `done` message. -/
theorem countP_unsent_le {out : List Outgoing} {rounds : List Dispatch}
    (h : out <:+ lastOutgoing rounds) : out.countP Outgoing.isDone ≤ 1 := by
  rcases List.eq_nil_or_concat' rounds with rfl | ⟨rounds, x, rfl⟩
  · have hnil : out = [] := List.suffix_nil.mp h
    rw [hnil]
    exact Nat.zero_le 1
  · rw [lastOutgoing_concat] at h
    rw [← countP_outgoing x]
    exact h.sublist.countP_le

/-- What is not sent to shard `i` belongs to the last round. -/
theorem outTo_unsent_le {i k : Nat} {out : List Outgoing} {rounds : List Dispatch}
    (h : out <:+ lastOutgoing rounds) (hk : k + 1 < rounds.length) :
    (outTo i out).length ≤ restAfter i rounds k := by
  rcases List.eq_nil_or_concat' rounds with rfl | ⟨rounds, x, rfl⟩
  · exact absurd hk (Nat.not_lt_zero _)
  · rw [lastOutgoing_concat] at h
    rcases h with ⟨sent, hsent⟩
    have hlen : k + 1 ≤ rounds.length := by
      rw [List.length_append, List.length_singleton] at hk
      omega
    have hbytes : (outTo i out).length ≤ (roundBytes i x).length := by
      rw [← outTo_outgoing, ← hsent, outTo_append, List.length_append]
      exact Nat.le_add_left _ _
    unfold restAfter
    rw [List.drop_append_of_le_length hlen, List.flatMap_append,
      List.length_append, List.flatMap_singleton]
    exact Nat.le_trans hbytes (Nat.le_add_left _ _)

theorem restAfter_concat (i : Nat) {rounds : List Dispatch} {k : Nat} (hk : k < rounds.length)
    (x : Dispatch) :
    restAfter i (rounds ++ [x]) k = restAfter i rounds k + (roundBytes i x).length := by
  unfold restAfter
  rw [List.drop_append_of_le_length hk, List.flatMap_append, List.length_append,
    List.flatMap_singleton]

/-- A round brings something to every shard: its marker. -/
theorem roundBytes_pos {numShards i k : Nat} {round : Dispatch} (hi : i < numShards)
    (hround : RoundOk numShards k round) : 0 < (roundBytes i round).length := by
  rcases roundBytes_eq hi hround with ⟨roundStartMs, hbytes⟩
  have hlen := congrArg List.length hbytes
  simp only [shareFrames, List.length_map, List.length_append, List.length_singleton] at hlen
  omega

section Invariant

variable {crypto : Crypto} {numShards : Nat} {s s' : Cluster}

theorem create_live (crypto : Crypto) (capacity : Nat) {numShards : Nat}
    (hpos : 0 < numShards) (hle : numShards ≤ maxShards) :
    LiveInv crypto numShards (Cluster.create capacity numShards) :=
  ⟨clusterCreate_inv crypto capacity hpos hle, List.nil_suffix, rfl⟩

theorem send_live (h : LiveInv crypto numShards s) : LiveInv crypto numShards s.send := by
  have hinv := step_send_inv h.inv
  have hunsent := h.unsent
  have hdones := h.dones
  revert hinv
  unfold Cluster.send
  cases hout : s.outbox with
  | nil => exact fun _ => h
  | cons o out =>
      rw [hout] at hunsent hdones
      have hrest : out <:+ lastOutgoing s.dispatcher.rounds :=
        (List.suffix_cons o out).trans hunsent
      cases o with
      | push p =>
          intro hinv
          refine ⟨hinv, hrest, ?_⟩
          simpa [Outgoing.isDone] using hdones
      | done d =>
          intro hinv
          refine ⟨hinv, hrest, ?_⟩
          simp only [List.countP_cons, Outgoing.isDone, if_true] at hdones
          simp only [List.length_append, List.length_singleton]
          omega

theorem dispatch_live (h : LiveInv crypto numShards s) {roundStartMs : UInt64} {blockSize : Nat}
    {durationMs : UInt64} (hok : s.dispatch roundStartMs blockSize durationMs = .ok s') :
    LiveInv crypto numShards s' := by
  have hinv : ClusterInv crypto numShards s' := by
    rcases step_dispatch_inv h.inv roundStartMs blockSize durationMs with ⟨t, ht, hinv⟩
    obtain rfl := Except.ok.inj (ht.symm.trans hok)
    exact hinv
  unfold Cluster.dispatch at hok
  cases hout : s.outbox with
  | cons o out =>
      simp only [hout, Except.ok.injEq] at hok
      subst hok
      exact h
  | nil =>
      rcases dispatch_ok h.inv.core roundStartMs blockSize durationMs with
        ⟨d', x, hd, hrounds, -, -, -, -, -, -⟩
      simp only [hout, hd, Except.ok.injEq] at hok
      subst hok
      have hnew : (d'.rounds.drop s.dispatcher.rounds.length).flatMap Cluster.outgoing =
          Cluster.outgoing x := by
        rw [hrounds, List.drop_left, List.flatMap_singleton]
      have hdones := h.dones
      rw [hout, List.countP_nil] at hdones
      refine ⟨hinv, ?_, ?_⟩
      · show _ <:+ lastOutgoing d'.rounds
        rw [hnew, hrounds, lastOutgoing_concat]
      · simp only [hnew, countP_outgoing]
        rw [hrounds, List.length_append, List.length_singleton]
        omega

/-- What the leader does in one step keeps the account of the `done` messages. -/
theorem LeaderMove.live (h : LiveInv crypto numShards s) (hinv : ClusterInv crypto numShards s')
    {drop : Nat → Bool} {source : Nat} (hmove : LeaderMove numShards drop source s s') :
    LiveInv crypto numShards s' := by
  have hdones := h.dones
  cases hmove with
  | blocked hblocked => exact h
  | opens raw rest round legacy hl htx =>
      rw [hl] at hdones
      exact ⟨hinv, h.unsent, hdones⟩
  | dispatched raw rest hl hdone =>
      refine ⟨hinv, h.unsent, ?_⟩
      rw [hl, hdone, List.length_cons] at hdones
      simp only [LeaderState.opened] at hdones ⊢
      omega
  | announces hl =>
      rw [hl] at hdones
      exact ⟨hinv, h.unsent, hdones⟩
  | receives st st' raw rest hl hgo htx =>
      rw [hl] at hdones
      exact ⟨hinv, h.unsent, hdones⟩
  | completes st st' hl hdone =>
      rw [hl] at hdones
      exact ⟨hinv, h.unsent, hdones⟩
  | takes st st' raw rest hl hmore hres =>
      rw [hl] at hdones
      exact ⟨hinv, h.unsent, hdones⟩
  | assembles st block hl hall =>
      refine ⟨hinv, h.unsent, ?_⟩
      rw [hl] at hdones
      simp only [List.length_append, List.length_singleton, LeaderState.opened] at hdones ⊢
      omega

theorem FollowerMove.live (h : LiveInv crypto numShards s) (hinv : ClusterInv crypto numShards s')
    {i : Nat} (hmove : FollowerMove i s s') : LiveInv crypto numShards s' := by
  cases hmove with
  | blocked hblocked => exact h
  | hears number rest hstate hsub => exact ⟨hinv, h.unsent, h.dones⟩
  | receives st st' raw rest hstate hgo htx => exact ⟨hinv, h.unsent, h.dones⟩
  | reports st summary hstate hdone => exact ⟨hinv, h.unsent, h.dones⟩

theorem step_live (hpos : 0 < numShards) (hle : numShards ≤ maxShards)
    (h : LiveInv crypto numShards s) {label : Cluster.Label}
    (hok : s.step crypto numShards label = .ok s') : LiveInv crypto numShards s' := by
  have hinv : ClusterInv crypto numShards s' := by
    rcases clusterStep_inv hpos hle s label h.inv with ⟨t, ht, hinv⟩
    obtain rfl := Except.ok.inj (ht.symm.trans hok)
    exact hinv
  cases label with
  | add tx pubkey =>
      obtain rfl := Except.ok.inj hok
      refine ⟨hinv, ?_, ?_⟩
      · show _ <:+ lastOutgoing (s.dispatcher.add tx pubkey).2.rounds
        rw [add_rounds]
        exact h.unsent
      · show _ = (s.dispatcher.add tx pubkey).2.rounds.length
        rw [add_rounds]
        exact h.dones
  | dispatch roundStartMs blockSize durationMs => exact dispatch_live h hok
  | send =>
      obtain rfl := Except.ok.inj hok
      exact send_live h
  | leader drop source schedule => exact (leaderStep_move hok).live h hinv
  | follower i schedule =>
      by_cases hi : 1 ≤ i ∧ i < numShards
      · simp only [Cluster.step, if_pos hi] at hok
        exact (followerStep_move hok).live h hinv
      · simp only [Cluster.step, if_neg hi, Except.ok.injEq] at hok
        subst hok
        exact h

end Invariant

/-! ## The rank of a state -/

/-- How many messages a shard has ahead before `rest` are left. -/
def View.due (v : View) (rest : Nat) : Nat := v.ahead.length - rest

/-- What a follower still has to do for the open round. -/
def View.rank (v : View) (rest : Nat) : Nat :=
  match v.state with
  | .processing _ => v.due rest + 2
  | .idle =>
      match v.results with
      | _ :: _ => 1
      | [] => if v.due rest = 0 then 0 else v.due rest + 3

/-- What the leader still has to do, the results apart. -/
def LeaderState.rank (due : Nat) : LeaderState → Nat
  | .waiting => due + 5
  | .waitDone => due + 4
  | .announcing => due + 3
  | .processing _ => due + 2
  | .collecting _ => 1

/-- What is due to shard `i` of round `k`. -/
def Cluster.due (s : Cluster) (k i : Nat) : Nat :=
  (s.view i).due (restAfter i s.dispatcher.rounds k)

def Cluster.followerRank (s : Cluster) (k i : Nat) : Nat :=
  (s.view i).rank (restAfter i s.dispatcher.rounds k)

/-- What is left to do before block `k`: sends, steps of the leader, and steps of the followers. -/
def Cluster.rank (numShards k : Nat) (s : Cluster) : Nat :=
  (if s.dispatcher.rounds.length = k + 1 then s.outbox.length else 0) +
    s.leader.rank (s.due k 0) + ∑ i ∈ Finset.Ico 1 numShards, s.followerRank k i

/-- The leader has announced the open round. -/
def Announced (s : Cluster) : Prop :=
  (∃ st, s.leader = .processing st) ∨ ∃ st, s.leader = .collecting st

/-- The announcement of the open round has missed follower `i`. -/
structure Unheard (s : Cluster) (i : Nat) : Prop where
  announced : Announced s
  state : s.follower i = .idle
  sub : s.sub i = []
  results : s.results i = []
  due : 0 < s.due s.blocks.length i

/-! What is left to do in each position of a follower. -/

theorem View.rank_processing (st : RecvState) (sub : List UInt32) (results ahead : List Bytes)
    (rest : Nat) :
    View.rank ⟨.processing st, sub, results, ahead⟩ rest = ahead.length - rest + 2 := rfl

theorem View.rank_reported (sub : List UInt32) (raw : Bytes) (results ahead : List Bytes)
    (rest : Nat) : View.rank ⟨.idle, sub, raw :: results, ahead⟩ rest = 1 := rfl

theorem View.rank_due (sub : List UInt32) {ahead : List Bytes} {rest : Nat}
    (h : rest < ahead.length) :
    View.rank ⟨.idle, sub, [], ahead⟩ rest = ahead.length - rest + 3 := by
  have hdue : ¬ View.due ⟨.idle, sub, [], ahead⟩ rest = 0 := by
    unfold View.due
    simp only
    omega
  exact if_neg hdue

theorem View.rank_done (sub : List UInt32) {ahead : List Bytes} {rest : Nat}
    (h : ahead.length ≤ rest) : View.rank ⟨.idle, sub, [], ahead⟩ rest = 0 :=
  if_pos (Nat.sub_eq_zero_of_le h)

theorem View.rank_extend (v : View) (i : Nat) (x : Dispatch) (rest : Nat) :
    (v.extend i x).rank (rest + (roundBytes i x).length) = v.rank rest := by
  have hdue : (v.extend i x).due (rest + (roundBytes i x).length) = v.due rest := by
    unfold View.due View.extend
    rw [List.length_append]
    omega
  unfold View.rank
  rw [hdue]
  rfl

/-- What a shard has ahead, with the frames `frames` of round `k` in front. -/
theorem At.due {i k : Nat} {rounds : List Dispatch} {frames : List Frame} {ahead : List Bytes}
    (h : At i rounds (k + 1) frames ahead) :
    ahead.length = frames.length + restAfter i rounds k := by
  have hlen := congrArg List.length h.stream
  simpa [restAfter] using hlen

/-- Before round `k` all of it is due. -/
theorem At.due_pos {numShards i k : Nat} {d : Dispatcher} (hinv : DispatcherInv numShards d)
    (hi : i < numShards) {ahead : List Bytes} (h : At i d.rounds k [] ahead)
    (hk : k < d.rounds.length) : restAfter i d.rounds k < ahead.length := by
  have hlen := congrArg List.length h.stream
  rw [drop_flatMap hk, List.length_map, List.map_nil, List.nil_append, List.length_map,
    List.length_append] at hlen
  have hpos := roundBytes_pos hi (hinv.rounds k hk)
  unfold restAfter
  omega

/-- Inside a round something is due, until the loop stops. -/
theorem Working.due {numShards i k : Nat} {rounds : List Dispatch} {st : RecvState}
    {ahead : List Bytes} (h : Working numShards i rounds k st ahead) (hgo : ¬ st.done = true) :
    restAfter i rounds k < ahead.length := by
  rcases h with ⟨c, frames, hholding, hpending, hshare, hat⟩
  cases frames with
  | nil =>
      rw [hholding.done] at hgo
      exact absurd hpending.done hgo
  | cons f frames =>
      rw [hat.due, List.length_cons]
      omega

/-! ## Who can help -/

/-- Who takes turns. -/
inductive Party (numShards : Nat) where
  | assigner
  | leader
  | follower (i : Nat) (hi : 1 ≤ i ∧ i < numShards)

/-- The moves of a party. A receive of the leader takes from a queue that holds a
result, if there is one. -/
def Party.moves {numShards : Nat} : Party numShards → Cluster → Cluster.Label → Prop
  | .assigner, _, label => label = .send
  | .leader, s, label => ∃ drop source schedule, label = .leader drop source schedule ∧
      ((∃ j, s.results j ≠ []) → s.results source ≠ [])
  | .follower i _, _, label => ∃ schedule, label = .follower i schedule

/-- A move of the party brings block `k` nearer. -/
def Party.helps {numShards : Nat} (k : Nat) : Party numShards → Cluster → Prop
  | .assigner, s => s.dispatcher.rounds.length = k + 1 ∧ s.outbox ≠ []
  | .leader, s => ∃ source, LeaderReady numShards source s
  | .follower i _, s => FollowerReady i s

/-- `k` blocks are assembled, and the next round is dispatched. -/
structure Open (crypto : Crypto) (numShards k : Nat) (s : Cluster) : Prop where
  live : LiveInv crypto numShards s
  blocks : s.blocks.length = k
  rounds : k < s.dispatcher.rounds.length

/-- Block `k` is assembled, or its announcement has missed somebody. -/
def Settled (numShards k : Nat) (s : Cluster) : Prop :=
  k < s.blocks.length ∨ ∃ i, (1 ≤ i ∧ i < numShards) ∧ Unheard s i

section Able

variable {crypto : Crypto} {numShards k : Nat} {s : Cluster}

/-- A shard that waits for a message of the open round waits for a send. -/
theorem Open.send_helps (h : Open crypto numShards k s) {i : Nat} (htx : s.tx i = [])
    (hdue : restAfter i s.dispatcher.rounds k < (s.view i).ahead.length) :
    (Party.assigner : Party numShards).helps k s := by
  have hahead : (s.view i).ahead = outTo i s.outbox := by
    show s.tx i ++ _ = _
    rw [htx, List.nil_append]
  rw [hahead] at hdue
  constructor
  · by_contra hne
    have hlt : k + 1 < s.dispatcher.rounds.length := by
      have := h.rounds
      omega
    have hle := outTo_unsent_le (i := i) h.live.unsent hlt
    omega
  · intro hnil
    rw [hnil] at hdue
    exact absurd hdue (Nat.not_lt_zero _)

/-- A follower that has not reported can move, or waits for a send. -/
theorem Open.follower_able (h : Open crypto numShards k s)
    (hannounced : Announced s)
    {i : Nat} (hi : 1 ≤ i ∧ i < numShards)
    (hat : FollowerAt crypto numShards i s.dispatcher.rounds k (s.view i)) :
    Unheard s i ∨ FollowerReady i s ∨ s.results i ≠ [] ∨
      (Party.assigner : Party numShards).helps k s := by
  have hblocks := h.blocks
  generalize hv : s.view i = v at hat
  cases hat with
  | missed ahead hat =>
      rcases View.mk.inj hv with ⟨hstate, hsub, hresults, -⟩
      left
      refine ⟨hannounced, hstate, hsub, hresults, ?_⟩
      have hdue := hat.due_pos h.live.inv.core hi.2 h.rounds
      rw [hblocks, Cluster.due, hv]
      exact Nat.sub_pos_of_lt hdue
  | announced number ahead hat =>
      rcases View.mk.inj hv with ⟨hstate, hsub, -, -⟩
      right
      left
      simp [FollowerReady, hstate, hsub]
  | working st ahead hwork =>
      rcases View.mk.inj hv with ⟨hstate, -, -, -⟩
      right
      by_cases hdone : st.done = true
      · left
        simp [FollowerReady, hstate, hdone]
      by_cases htx : s.tx i = []
      · right
        right
        apply h.send_helps htx
        rw [hv]
        exact hwork.due hdone
      · left
        simp [FollowerReady, hstate, htx]
  | reported ahead hat =>
      rcases View.mk.inj hv with ⟨-, -, hresults, -⟩
      right
      right
      left
      rw [hresults]
      exact List.cons_ne_nil _ _

/-- Short of the block, some party can bring it nearer. -/
theorem Open.able (h : Open crypto numShards k s) (hpos : 0 < numShards)
    (hgoal : ¬ Settled numShards k s) : ∃ c : Party numShards, c.helps k s := by
  have hphase := h.live.inv.phase
  rw [h.blocks] at hphase
  have hcore := h.live.inv.core
  have hwait : ∀ i < numShards, s.tx i = [] →
      restAfter i s.dispatcher.rounds k < (s.view i).ahead.length →
        ∃ c : Party numShards, c.helps k s :=
    fun i _ htx hdue => ⟨.assigner, h.send_helps htx hdue⟩
  generalize hl : s.leader = l at hphase
  cases hphase with
  | waiting hleader hfollowers =>
      by_cases htx : s.tx 0 = []
      · exact hwait 0 hpos htx (hleader.due_pos hcore hpos h.rounds)
      · exact ⟨.leader, 0, by simpa [LeaderReady, hl] using htx⟩
  | waitDone ho =>
      by_cases hdone : s.done = []
      · -- its `done` message is not sent yet, and of no later round
        have hdones := h.live.dones
        rw [hl, hdone, h.blocks] at hdones
        simp only [List.length_nil, LeaderState.opened] at hdones
        have hlast := countP_unsent_le h.live.unsent
        have hopen := h.rounds
        refine ⟨.assigner, by omega, ?_⟩
        intro hnil
        rw [hnil, List.countP_nil] at hdones
        omega
      · exact ⟨.leader, 0, by simpa [LeaderReady, hl] using hdone⟩
  | announcing ho => exact ⟨.leader, 0, by simp [LeaderReady, hl]⟩
  | processing st hround hleader hfollowers =>
      by_cases hdone : st.done = true
      · exact ⟨.leader, 0, by simp [LeaderReady, hl, hdone]⟩
      by_cases htx : s.tx 0 = []
      · exact hwait 0 hpos htx (hleader.due hdone)
      · exact ⟨.leader, 0, by simp [LeaderReady, hl, htx]⟩
  | collecting st ids hround hleader hfilled hnodup hids hin hout =>
      by_cases hmore : st.resultsReceived < numShards - 1
      · -- some follower has not been heard of
        have hreceived := hfilled.received
        rw [List.length_map, List.length_cons] at hreceived
        have hmissing : ∃ i, (1 ≤ i ∧ i < numShards) ∧ i ∉ ids := by
          by_contra hall
          push Not at hall
          have hsub : Finset.Ico 1 numShards ⊆ ids.toFinset := by
            intro i hi
            exact List.mem_toFinset.mpr (hall i (Finset.mem_Ico.mp hi))
          have hcard := (Finset.card_le_card hsub).trans (List.toFinset_card_le ids)
          rw [Nat.card_Ico] at hcard
          omega
        rcases hmissing with ⟨i, hi, hnew⟩
        rcases h.follower_able (Or.inr ⟨st, hl⟩) hi (hout i hi.1 hi.2 hnew)
          with hmiss | hready | hresult | hsend
        · exact absurd (Or.inr ⟨i, hi, hmiss⟩) hgoal
        · exact ⟨.follower i hi, hready⟩
        · exact ⟨.leader, i, by simp [LeaderReady, hl, hresult]⟩
        · exact ⟨.assigner, hsend⟩
      · exact ⟨.leader, 0, by simp [LeaderReady, hl, hmore]⟩

end Able

/-! ## A move lowers the rank -/

section Falls

variable {crypto : Crypto} {numShards k : Nat} {s s' : Cluster}

/-- A follower that is able to move has heard of the open round. -/
theorem Open.follower_at (h : Open crypto numShards k s) {i : Nat} (hi : 1 ≤ i ∧ i < numShards)
    (hready : FollowerReady i s) :
    FollowerAt crypto numShards i s.dispatcher.rounds k (s.view i) := by
  have hrests : ∀ {k}, ¬ Resting i s.dispatcher.rounds k (s.view i) := by
    intro k hrest
    have hstate : s.follower i = .idle := hrest.state
    have hsub : s.sub i = [] := hrest.sub
    simp [FollowerReady, hstate, hsub] at hready
  have hphase := h.live.inv.phase
  rw [h.blocks] at hphase
  generalize s.leader = l at hphase
  cases hphase with
  | waiting hleader hfollowers => exact absurd (hfollowers i hi.1 hi.2) hrests
  | waitDone ho => exact absurd (ho.followers i hi.1 hi.2) hrests
  | announcing ho => exact absurd (ho.followers i hi.1 hi.2) hrests
  | processing st hround hleader hfollowers => exact hfollowers i hi.1 hi.2
  | collecting st ids hround hleader hfilled hnodup hids hin hout =>
      exact hout i hi.1 hi.2 fun hmem => hrests (hin i hmem)

theorem Open.followerRank_falls (h : Open crypto numShards k s) {i : Nat}
    (hat : FollowerAt crypto numShards i s.dispatcher.rounds k (s.view i))
    (hi : 1 ≤ i ∧ i < numShards) (hready : FollowerReady i s) (hmove : FollowerMove i s s') :
    s'.followerRank k i < s.followerRank k i := by
  generalize hv : s.view i = v at hat
  unfold Cluster.followerRank
  rw [hmove.frame.1.dispatcher, hv]
  cases hmove with
  | blocked hblocked => exact absurd hready hblocked
  | hears number rest hstate hsub =>
      cases hat with
      | missed ahead hat => simp [Cluster.view, hsub] at hv
      | reported ahead hat => simp [Cluster.view, hsub] at hv
      | working st ahead hwork => simp [Cluster.view, hstate] at hv
      | announced number' ahead hat =>
          rcases View.mk.inj hv with ⟨-, -, -, hahead⟩
          have hdue := hat.due_pos h.live.inv.core hi.2 h.rounds
          have hview : Cluster.view { s with
              sub := Function.update s.sub i rest
              follower := Function.update s.follower i (.processing recvInit) } i =
                ⟨.processing recvInit, rest, s.results i, ahead⟩ := by
            rw [← hahead]
            simp only [Cluster.view, Cluster.ahead, Function.update_self]
          rw [hview, View.rank_processing, View.rank_due _ hdue]
          omega
  | receives st st' raw rest hstate hgo htx =>
      cases hat with
      | missed ahead hat => simp [Cluster.view, hstate] at hv
      | reported ahead hat => simp [Cluster.view, hstate] at hv
      | announced number' ahead hat => simp [Cluster.view, hstate] at hv
      | working st₁ ahead hwork =>
          rcases View.mk.inj hv with ⟨hst, -, -, hahead⟩
          obtain rfl : st = st₁ := by
            rw [hstate] at hst
            exact FollowerState.processing.inj hst
          have hdue := hwork.due hgo
          have hlen : ahead.length = (rest ++ outTo i s.outbox).length + 1 := by
            rw [← hahead, Cluster.ahead, htx]
            rfl
          have hview : Cluster.view { s with
              tx := Function.update s.tx i rest
              follower := Function.update s.follower i (.processing st') } i =
                ⟨.processing st', s.sub i, s.results i, rest ++ outTo i s.outbox⟩ := by
            simp only [Cluster.view, Cluster.ahead, Function.update_self]
          rw [hview, View.rank_processing, View.rank_processing]
          omega
  | reports st summary hstate hdone =>
      cases hat with
      | missed ahead hat => simp [Cluster.view, hstate] at hv
      | reported ahead hat => simp [Cluster.view, hstate] at hv
      | announced number' ahead hat => simp [Cluster.view, hstate] at hv
      | working st₁ ahead hwork =>
          rcases View.mk.inj hv with ⟨-, -, hresults, -⟩
          have hview : Cluster.view { s with
              results := Function.update s.results i
                (s.results i ++ [ShardSummary.codec.enc summary])
              follower := Function.update s.follower i .idle } i =
                ⟨.idle, s.sub i, [ShardSummary.codec.enc summary], s.ahead i⟩ := by
            simp only [Cluster.view, Cluster.ahead, Function.update_self, hresults, List.nil_append]
          rw [hview, View.rank_processing, View.rank_reported]
          omega

theorem Open.follower_falls (h : Open crypto numShards k s) {i : Nat} (hi : 1 ≤ i ∧ i < numShards)
    (hready : FollowerReady i s) (hmove : FollowerMove i s s') :
    s'.rank numShards k < s.rank numShards k := by
  rcases hmove.frame with ⟨hframe, houtbox⟩
  have hi0 : 0 ≠ i := by omega
  have hfall := h.followerRank_falls (h.follower_at hi hready) hi hready hmove
  have hsum : ∑ j ∈ Finset.Ico 1 numShards, s'.followerRank k j <
      ∑ j ∈ Finset.Ico 1 numShards, s.followerRank k j := by
    apply Finset.sum_lt_sum
    · intro j _
      by_cases hj : j = i
      · rw [hj]
        exact Nat.le_of_lt hfall
      · unfold Cluster.followerRank
        rw [hframe.others j hj, hframe.dispatcher]
    · exact ⟨i, Finset.mem_Ico.mpr hi, hfall⟩
  unfold Cluster.rank Cluster.due
  rw [hframe.others 0 hi0, hframe.dispatcher, hframe.leader, houtbox]
  omega

/-- The leader's part falls and no follower's part rises. -/
theorem rank_lt_of_leader (hdispatcher : s'.dispatcher = s.dispatcher)
    (houtbox : s'.outbox = s.outbox)
    (hleader : s'.leader.rank (s'.due k 0) < s.leader.rank (s.due k 0))
    (hfollowers : ∀ i, 1 ≤ i → s'.followerRank k i = s.followerRank k i) :
    s'.rank numShards k < s.rank numShards k := by
  have hsum : ∑ j ∈ Finset.Ico 1 numShards, s'.followerRank k j =
      ∑ j ∈ Finset.Ico 1 numShards, s.followerRank k j :=
    Finset.sum_congr rfl fun j hj => hfollowers j (Finset.mem_Ico.mp hj).1
  unfold Cluster.rank
  rw [hdispatcher, houtbox, hsum]
  omega

/-- Taking the result of `source` leaves nothing to do there. -/
theorem Open.takes_falls (h : Open crypto numShards k s) {st st' : CollectState} {source : Nat}
    {raw : Bytes} {rest : List Bytes} (hl : s.leader = .collecting st)
    (hres : s.results source = raw :: rest) :
    Cluster.rank numShards k { s with
      results := Function.update s.results source rest
      leader := .collecting st' } < s.rank numShards k := by
  have hphase := h.live.inv.phase
  rw [hl, h.blocks] at hphase
  cases hphase with
  | collecting st ids hround hleader hfilled hnodup hids hin hout =>
      rw [← h.blocks] at hin
      rcases source_missing h.live.inv hin hres with ⟨hfollower, hnew⟩
      rcases (hout source hfollower.1 hfollower.2 hnew).result hres with
        ⟨-, hrest, hstate, -, hnext⟩
      subst hrest
      have hdue := hnext.due
      rw [List.length_nil, Nat.zero_add] at hdue
      have hbefore : s.followerRank k source = 1 := by
        have hview : s.view source = ⟨.idle, s.sub source, [raw], s.ahead source⟩ := by
          rw [← hres, ← hstate]
          rfl
        rw [Cluster.followerRank, hview, View.rank_reported]
      have hafter : Cluster.followerRank { s with
          results := Function.update s.results source []
          leader := .collecting st' } k source = 0 := by
        have hview : Cluster.view { s with
            results := Function.update s.results source []
            leader := .collecting st' } source = ⟨.idle, s.sub source, [], s.ahead source⟩ := by
          rw [← hstate]
          simp only [Cluster.view, Cluster.ahead, Function.update_self]
        rw [Cluster.followerRank, hview]
        exact View.rank_done _ (Nat.le_of_eq hdue)
      have hsum : ∑ j ∈ Finset.Ico 1 numShards, Cluster.followerRank { s with
            results := Function.update s.results source []
            leader := .collecting st' } k j <
          ∑ j ∈ Finset.Ico 1 numShards, s.followerRank k j := by
        apply Finset.sum_lt_sum
        · intro j _
          by_cases hj : j = source
          · rw [hj, hbefore, hafter]
            exact Nat.zero_le 1
          · simp only [Cluster.followerRank, Cluster.view, Function.update_of_ne hj]
            exact Nat.le_refl _
        · refine ⟨source, Finset.mem_Ico.mpr hfollower, ?_⟩
          rw [hbefore, hafter]
          exact Nat.zero_lt_one
      unfold Cluster.rank
      rw [hl]
      simp only [LeaderState.rank]
      omega

theorem Open.leader_falls (h : Open crypto numShards k s) {drop : Nat → Bool} {source : Nat}
    (hready : LeaderReady numShards source s) (hmove : LeaderMove numShards drop source s s') :
    k < s'.blocks.length ∨ s'.rank numShards k < s.rank numShards k := by
  have hahead : ∀ (rest : List Bytes) (raw : Bytes), s.tx 0 = raw :: rest →
      (s.ahead 0).length = (rest ++ outTo 0 s.outbox).length + 1 := by
    intro rest raw htx
    rw [Cluster.ahead, htx]
    rfl
  cases hmove with
  | blocked hblocked => exact absurd hready hblocked
  | opens raw rest round legacy hl htx =>
      right
      refine rank_lt_of_leader rfl rfl ?_ ?_
      · rw [hl]
        have hlen := hahead rest raw htx
        simp only [LeaderState.rank, Cluster.due, View.due, Cluster.view]
        simp only [Cluster.ahead, Function.update_self] at hlen ⊢
        omega
      · intro i hi
        have hi0 : i ≠ 0 := by omega
        simp only [Cluster.followerRank, Cluster.view, Cluster.ahead, Function.update_of_ne hi0]
  | dispatched raw rest hl hdone =>
      right
      refine rank_lt_of_leader rfl rfl ?_ fun i _ => rfl
      rw [hl]
      exact Nat.lt_succ_self _
  | announces hl =>
      right
      refine rank_lt_of_leader rfl rfl ?_ fun i _ => rfl
      rw [hl]
      exact Nat.lt_succ_self _
  | receives st st' raw rest hl hgo htx =>
      right
      have hphase := h.live.inv.phase
      rw [hl, h.blocks] at hphase
      cases hphase with
      | processing _ hround hleader hfollowers =>
          have hdue := hleader.due hgo
          refine rank_lt_of_leader rfl rfl ?_ ?_
          · rw [hl]
            have hlen := hahead rest raw htx
            simp only [LeaderState.rank, Cluster.due, View.due, Cluster.view] at hdue ⊢
            simp only [Cluster.ahead, Function.update_self] at hlen hdue ⊢
            omega
          · intro i hi
            have hi0 : i ≠ 0 := by omega
            simp only [Cluster.followerRank, Cluster.view, Cluster.ahead, Function.update_of_ne hi0]
  | completes st st' hl hdone =>
      right
      refine rank_lt_of_leader rfl rfl ?_ fun i _ => rfl
      rw [hl]
      simp only [LeaderState.rank]
      omega
  | takes st st' raw rest hl hmore hres =>
      right
      exact h.takes_falls hl hres
  | assembles st block hl hall =>
      left
      rw [List.length_append, h.blocks]
      exact Nat.lt_succ_self k

end Falls

/-! ## The other moves keep the rank -/

section Keeps

variable {crypto : Crypto} {numShards k : Nat} {s s' : Cluster}

/-- The rank is lower, or the same and everybody is as able to help as before. -/
def Nearer (numShards k : Nat) (s s' : Cluster) : Prop :=
  s'.rank numShards k < s.rank numShards k ∨
    s'.rank numShards k = s.rank numShards k ∧
      ∀ c : Party numShards, c.helps k s → c.helps k s'

theorem Nearer.refl (s : Cluster) : Nearer numShards k s s := Or.inr ⟨rfl, fun _ h => h⟩

theorem add_nearer (s : Cluster) (tx : Transaction) (pubkey : Option PublicKey) :
    Nearer numShards k s { s with dispatcher := (s.dispatcher.add tx pubkey).2 } := by
  right
  constructor
  · simp only [Cluster.rank, Cluster.due, Cluster.followerRank, Cluster.view, Cluster.ahead, add_rounds]
  · intro c hc
    cases c with
    | assigner => simpa only [Party.helps, add_rounds] using hc
    | leader => exact hc
    | follower i hi => exact hc

/-- A new round is behind the open one. -/
theorem Open.dispatch_nearer (h : Open crypto numShards k s) {roundStartMs : UInt64}
    {blockSize : Nat} {durationMs : UInt64}
    (hok : s.dispatch roundStartMs blockSize durationMs = .ok s') : Nearer numShards k s s' := by
  unfold Cluster.dispatch at hok
  cases hout : s.outbox with
  | cons o out =>
      simp only [hout, Except.ok.injEq] at hok
      subst hok
      exact Nearer.refl s
  | nil =>
      rcases dispatch_ok h.live.inv.core roundStartMs blockSize durationMs with
        ⟨d', x, hd, hrounds, -, -, -, -, -, -⟩
      simp only [hout, hd, Except.ok.injEq] at hok
      have hnew : (d'.rounds.drop s.dispatcher.rounds.length).flatMap Cluster.outgoing =
          Cluster.outgoing x := by
        rw [hrounds, List.drop_left, List.flatMap_singleton]
      rw [hnew] at hok
      subst hok
      have hview : ∀ i, Cluster.view { s with
          dispatcher := d', outbox := Cluster.outgoing x } i = (s.view i).extend i x := by
        intro i
        have hold : outTo i s.outbox = [] := by
          rw [hout]
          rfl
        simp only [Cluster.view, Cluster.ahead, View.extend, outTo_outgoing, hold, List.append_nil]
      have hopen := h.rounds
      have hlater : ¬ s.dispatcher.rounds.length + 1 = k + 1 := by omega
      right
      constructor
      · have hdue : Cluster.due { s with dispatcher := d', outbox := Cluster.outgoing x } k 0 =
            s.due k 0 := by
          unfold Cluster.due
          rw [hview, hrounds, restAfter_concat 0 hopen]
          unfold View.due View.extend
          rw [List.length_append]
          omega
        have hrank : ∀ i, Cluster.followerRank { s with
            dispatcher := d', outbox := Cluster.outgoing x } k i = s.followerRank k i := by
          intro i
          unfold Cluster.followerRank
          rw [hview, hrounds, restAfter_concat i hopen, View.rank_extend]
        unfold Cluster.rank
        simp only [hdue, hrank, hrounds, List.length_append, List.length_singleton, if_neg hlater,
          hout, List.length_nil, ite_self]
      · intro c hc
        cases c with
        | assigner => exact absurd hout hc.2
        | leader => exact hc
        | follower i hi => exact hc

/-- While the open round is the last one, a send brings one of its messages on its way. -/
theorem send_falls (hlast : s.dispatcher.rounds.length = k + 1) (hout : s.outbox ≠ []) :
    s.send.rank numShards k < s.rank numShards k := by
  rcases send_frame s with ⟨hdispatcher, -, hleader, -, -, -, -, -⟩
  have hless : s.send.outbox.length < s.outbox.length := by
    unfold Cluster.send
    cases hcons : s.outbox with
    | nil => exact absurd hcons hout
    | cons o out =>
        cases o with
        | push p => exact Nat.lt_succ_self _
        | done d => exact Nat.lt_succ_self _
  unfold Cluster.rank Cluster.followerRank Cluster.due
  simp only [hdispatcher, hleader, send_view, if_pos hlast]
  omega

theorem send_nearer (s : Cluster) : Nearer numShards k s s.send := by
  rcases send_frame s with ⟨hdispatcher, -, hleader, -, -, hresults, hfollower, hsub⟩
  by_cases hout : s.outbox = []
  · have hstay : s.send = s := by
      unfold Cluster.send
      simp only [hout]
    rw [hstay]
    exact Nearer.refl s
  by_cases hlast : s.dispatcher.rounds.length = k + 1
  · exact Or.inl (send_falls hlast hout)
  · right
    refine ⟨?_, ?_⟩
    · unfold Cluster.rank Cluster.followerRank Cluster.due
      simp only [hdispatcher, hleader, send_view, if_neg hlast]
    -- queues only grow
    have htx : ∀ i, s.tx i ≠ [] → s.send.tx i ≠ [] := by
      intro i hi
      unfold Cluster.send
      split
      · exact hi
      · rename_i p out hout
        by_cases hp : i = p.shard
        · subst hp
          simp
        · simpa [Function.update_of_ne hp] using hi
      · exact hi
    have hdone : s.done ≠ [] → s.send.done ≠ [] := by
      intro hi
      unfold Cluster.send
      split
      · exact hi
      · exact hi
      · simp
    intro c hc
    cases c with
    | assigner => exact absurd hc.1 hlast
    | leader =>
        rcases hc with ⟨source, hready⟩
        refine ⟨source, ?_⟩
        unfold LeaderReady at hready ⊢
        rw [hleader, hresults]
        cases hl : s.leader with
        | waiting => simpa only [hl] using htx 0 (by simpa only [hl] using hready)
        | waitDone => simpa only [hl] using hdone (by simpa only [hl] using hready)
        | announcing => trivial
        | processing st =>
            simp only [hl] at hready ⊢
            exact hready.imp_right (htx 0)
        | collecting st => simpa only [hl] using hready
    | follower i hi =>
        change FollowerReady i s at hc
        show FollowerReady i s.send
        unfold FollowerReady at hc ⊢
        rw [hfollower, hsub]
        cases hstate : s.follower i with
        | idle => simpa only [hstate] using hc
        | processing st =>
            simp only [hstate] at hc ⊢
            exact hc.imp_right (htx i)

theorem Open.nearer (h : Open crypto numShards k s) {label : Cluster.Label}
    (hok : s.step crypto numShards label = .ok s') :
    k < s'.blocks.length ∨ Nearer numShards k s s' := by
  cases label with
  | add tx pubkey =>
      obtain rfl := Except.ok.inj hok
      exact Or.inr (add_nearer s tx pubkey)
  | dispatch roundStartMs blockSize durationMs => exact Or.inr (h.dispatch_nearer hok)
  | send =>
      obtain rfl := Except.ok.inj hok
      exact Or.inr (send_nearer s)
  | leader drop source schedule =>
      have hmove := leaderStep_move hok
      by_cases hready : LeaderReady numShards source s
      · exact (h.leader_falls hready hmove).imp_right Or.inl
      · rw [hmove.eq_of_not_ready hready]
        exact Or.inr (Nearer.refl s)
  | follower i schedule =>
      right
      by_cases hi : 1 ≤ i ∧ i < numShards
      · simp only [Cluster.step, if_pos hi] at hok
        have hmove := followerStep_move hok
        by_cases hready : FollowerReady i s
        · exact Or.inl (h.follower_falls hi hready hmove)
        · rw [hmove.eq_of_not_ready hready]
          exact Nearer.refl s
      · simp only [Cluster.step, if_neg hi, Except.ok.injEq] at hok
        subst hok
        exact Nearer.refl s

/-- Short of its block an open round is brought nearer, by whoever can help. -/
theorem round_ranked (crypto : Crypto) (hpos : 0 < numShards) (hle : numShards ≤ maxShards)
    (k : Nat) :
    Run.Ranked (Cluster.step crypto numShards) Party.moves (Open crypto numShards k)
      (Settled numShards k) (fun c : Party numShards => c.helps k) (Cluster.rank numShards k) := by
  constructor
  · intro s h hgoal
    exact h.able hpos hgoal
  · intro s label s' h _ hok
    rcases h.nearer hok with hblock | hnearer
    · exact Or.inl (Or.inl hblock)
    rcases step_mono h.live.inv hok with ⟨hblocks, hrounds⟩
    by_cases hmore : k < s'.blocks.length
    · exact Or.inl (Or.inl hmore)
    · have hold := h.blocks
      have hopen := h.rounds
      exact Or.inr ⟨⟨step_live hpos hle h.live hok, by omega, by omega⟩, hnearer⟩
  · intro s label s' c h _ hok hhelps hmoves
    cases c with
    | assigner =>
        obtain rfl : label = .send := hmoves
        obtain rfl := Except.ok.inj hok
        exact Or.inr (send_falls hhelps.1 hhelps.2)
    | leader =>
        rcases hmoves with ⟨drop, source, schedule, rfl, hchoice⟩
        rcases hhelps with ⟨any, hany⟩
        have hready : LeaderReady numShards source s := by
          unfold LeaderReady at hany ⊢
          cases hl : s.leader with
          | waiting => simpa only [hl] using hany
          | waitDone => simpa only [hl] using hany
          | announcing => trivial
          | processing st => simpa only [hl] using hany
          | collecting st =>
              simp only [hl] at hany ⊢
              exact hany.imp_right fun hres => hchoice ⟨any, hres⟩
        exact (h.leader_falls hready (leaderStep_move hok)).imp_left Or.inl
    | follower i hi =>
        rcases hmoves with ⟨schedule, rfl⟩
        simp only [Cluster.step, if_pos hi] at hok
        exact Or.inr (h.follower_falls hi hhelps (followerStep_move hok))

end Keeps

end Sharding
