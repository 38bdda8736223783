import Sharding.Agreement

/-! # What a step of the cluster can do

The steps of the leader and of a follower, read backwards: from the state after a
step, which of its branches was taken. A party that is not ready stays where it is.
-/

namespace Sharding

/-- Follower `i` can move. -/
def FollowerReady (i : Nat) (s : Cluster) : Prop :=
  match s.follower i with
  | .idle => s.sub i ≠ []
  | .processing st => st.done = true ∨ s.tx i ≠ []

inductive FollowerMove (i : Nat) (s : Cluster) : Cluster → Prop where
  | blocked (h : ¬ FollowerReady i s) : FollowerMove i s s
  | hears (number : UInt32) (rest : List UInt32) (hstate : s.follower i = .idle)
      (hsub : s.sub i = number :: rest) :
      FollowerMove i s { s with
        sub := Function.update s.sub i rest
        follower := Function.update s.follower i (.processing recvInit) }
  | receives (st st' : RecvState) (raw : Bytes) (rest : List Bytes)
      (hstate : s.follower i = .processing st) (hgo : ¬ st.done = true) (htx : s.tx i = raw :: rest) :
      FollowerMove i s { s with
        tx := Function.update s.tx i rest
        follower := Function.update s.follower i (.processing st') }
  | reports (st : RecvState) (summary : ShardSummary) (hstate : s.follower i = .processing st)
      (hdone : st.done = true) :
      FollowerMove i s { s with
        results := Function.update s.results i (s.results i ++ [ShardSummary.codec.enc summary])
        follower := Function.update s.follower i .idle }

theorem followerStep_move {crypto : Crypto} {s s' : Cluster} {i : Nat}
    {schedule : (k : Nat) → ParallelFor.Schedule k}
    (h : s.followerStep crypto i schedule = .ok s') : FollowerMove i s s' := by
  unfold Cluster.followerStep at h
  cases hstate : s.follower i with
  | idle =>
      simp only [hstate] at h
      cases hsub : s.sub i with
      | nil =>
          simp only [hsub, Except.ok.injEq] at h
          subst h
          exact .blocked (by simp [FollowerReady, hstate, hsub])
      | cons number rest =>
          simp only [hsub, Except.ok.injEq] at h
          subst h
          exact .hears number rest hstate hsub
  | processing st =>
      simp only [hstate] at h
      by_cases hdone : st.done = true
      · rw [if_pos hdone] at h
        rcases Run.bind_eq_ok h with ⟨summary, -, hok⟩
        obtain rfl := Except.ok.inj hok
        exact .reports st summary hstate hdone
      · rw [if_neg hdone] at h
        cases htx : s.tx i with
        | nil =>
            simp only [htx, Except.ok.injEq] at h
            subst h
            exact .blocked (by simp [FollowerReady, hstate, hdone, htx])
        | cons raw rest =>
            simp only [htx] at h
            rcases Run.bind_eq_ok h with ⟨st', -, hok⟩
            obtain rfl := Except.ok.inj hok
            exact .receives st st' raw rest hstate hdone htx

/-- The leader can move, if it takes the next result from `source`. -/
def LeaderReady (numShards source : Nat) (s : Cluster) : Prop :=
  match s.leader with
  | .waiting => s.tx 0 ≠ []
  | .waitDone => s.done ≠ []
  | .announcing => True
  | .processing st => st.done = true ∨ s.tx 0 ≠ []
  | .collecting st => ¬ st.resultsReceived < numShards - 1 ∨ s.results source ≠ []

inductive LeaderMove (numShards : Nat) (drop : Nat → Bool) (source : Nat) (s : Cluster) :
    Cluster → Prop where
  | blocked (h : ¬ LeaderReady numShards source s) : LeaderMove numShards drop source s s
  | opens (raw : Bytes) (rest : List Bytes) (round : UInt32) (legacy : Bool)
      (hl : s.leader = .waiting) (htx : s.tx 0 = raw :: rest) :
      LeaderMove numShards drop source s { s with
        tx := Function.update s.tx 0 rest
        leader := .waitDone
        round := round
        legacy := legacy }
  | dispatched (raw : Bytes) (rest : List Bytes) (hl : s.leader = .waitDone)
      (hdone : s.done = raw :: rest) :
      LeaderMove numShards drop source s { s with done := rest, leader := .announcing }
  | announces (hl : s.leader = .announcing) :
      LeaderMove numShards drop source s { s with
        sub := fun i =>
          if 1 ≤ i ∧ i < numShards ∧ drop i = false then s.sub i ++ [s.round] else s.sub i
        leader := .processing recvInit }
  | receives (st st' : RecvState) (raw : Bytes) (rest : List Bytes)
      (hl : s.leader = .processing st) (hgo : ¬ st.done = true) (htx : s.tx 0 = raw :: rest) :
      LeaderMove numShards drop source s { s with
        tx := Function.update s.tx 0 rest
        leader := .processing st' }
  | completes (st : RecvState) (st' : CollectState) (hl : s.leader = .processing st)
      (hdone : st.done = true) :
      LeaderMove numShards drop source s { s with leader := .collecting st' }
  | takes (st st' : CollectState) (raw : Bytes) (rest : List Bytes)
      (hl : s.leader = .collecting st) (hmore : st.resultsReceived < numShards - 1)
      (hres : s.results source = raw :: rest) :
      LeaderMove numShards drop source s { s with
        results := Function.update s.results source rest
        leader := .collecting st' }
  | assembles (st : CollectState) (block : Assembled) (hl : s.leader = .collecting st)
      (hall : ¬ st.resultsReceived < numShards - 1) :
      LeaderMove numShards drop source s { s with leader := .waiting, blocks := s.blocks ++ [block] }

theorem leaderStep_move {crypto : Crypto} {numShards : Nat} {s s' : Cluster} {drop : Nat → Bool}
    {source : Nat} {schedule : (k : Nat) → ParallelFor.Schedule k}
    (h : s.leaderStep crypto numShards drop source schedule = .ok s') :
    LeaderMove numShards drop source s s' := by
  unfold Cluster.leaderStep at h
  cases hl : s.leader with
  | waiting =>
      simp only [hl] at h
      cases htx : s.tx 0 with
      | nil =>
          simp only [htx, Except.ok.injEq] at h
          subst h
          exact .blocked (by simp [LeaderReady, hl, htx])
      | cons raw rest =>
          simp only [htx] at h
          split at h
          · obtain rfl := Except.ok.inj h
            exact .opens raw rest _ s.legacy hl htx
          · split at h
            · obtain rfl := Except.ok.inj h
              exact .opens raw rest _ _ hl htx
            · obtain rfl := Except.ok.inj h
              exact .opens raw rest _ _ hl htx
  | waitDone =>
      simp only [hl] at h
      cases hdone : s.done with
      | nil =>
          simp only [hdone, Except.ok.injEq] at h
          subst h
          exact .blocked (by simp [LeaderReady, hl, hdone])
      | cons raw rest =>
          simp only [hdone, Except.ok.injEq] at h
          subst h
          exact .dispatched raw rest hl hdone
  | announcing =>
      simp only [hl, Except.ok.injEq] at h
      subst h
      exact .announces hl
  | processing st =>
      simp only [hl] at h
      by_cases hdone : st.done = true
      · rw [if_pos hdone] at h
        rcases Run.bind_eq_ok h with ⟨own, -, h⟩
        rcases Run.bind_eq_ok h with ⟨st', -, hok⟩
        obtain rfl := Except.ok.inj hok
        exact .completes st st' hl hdone
      · rw [if_neg hdone] at h
        cases htx : s.tx 0 with
        | nil =>
            simp only [htx, Except.ok.injEq] at h
            subst h
            exact .blocked (by simp [LeaderReady, hl, hdone, htx])
        | cons raw rest =>
            simp only [htx] at h
            rcases Run.bind_eq_ok h with ⟨st', -, hok⟩
            obtain rfl := Except.ok.inj hok
            exact .receives st st' raw rest hl hdone htx
  | collecting st =>
      simp only [hl] at h
      by_cases hmore : st.resultsReceived < numShards - 1
      · rw [if_pos hmore] at h
        cases hres : s.results source with
        | nil =>
            simp only [hres, Except.ok.injEq] at h
            subst h
            exact .blocked (by simp [LeaderReady, hl, hres, hmore])
        | cons raw rest =>
            simp only [hres] at h
            rcases Run.bind_eq_ok h with ⟨st', -, hok⟩
            obtain rfl := Except.ok.inj hok
            exact .takes st st' raw rest hl hmore hres
      · rw [if_neg hmore] at h
        rcases Run.bind_eq_ok h with ⟨block, -, hok⟩
        obtain rfl := Except.ok.inj hok
        exact .assembles st ⟨block, st.summaries⟩ hl hmore

theorem FollowerMove.eq_of_not_ready {i : Nat} {s s' : Cluster} (h : FollowerMove i s s')
    (hready : ¬ FollowerReady i s) : s' = s := by
  cases h with
  | blocked _ => rfl
  | hears number rest hstate hsub => exact absurd (by simp [FollowerReady, hstate, hsub]) hready
  | receives st st' raw rest hstate hgo htx =>
      exact absurd (by simp [FollowerReady, hstate, htx]) hready
  | reports st summary hstate hdone => exact absurd (by simp [FollowerReady, hstate, hdone]) hready

theorem LeaderMove.eq_of_not_ready {numShards source : Nat} {drop : Nat → Bool} {s s' : Cluster}
    (h : LeaderMove numShards drop source s s') (hready : ¬ LeaderReady numShards source s) :
    s' = s := by
  cases h with
  | blocked _ => rfl
  | opens raw rest round legacy hl htx => exact absurd (by simp [LeaderReady, hl, htx]) hready
  | dispatched raw rest hl hdone => exact absurd (by simp [LeaderReady, hl, hdone]) hready
  | announces hl => exact absurd (by simp [LeaderReady, hl]) hready
  | receives st st' raw rest hl hgo htx => exact absurd (by simp [LeaderReady, hl, htx]) hready
  | completes st st' hl hdone => exact absurd (by simp [LeaderReady, hl, hdone]) hready
  | takes st st' raw rest hl hmore hres => exact absurd (by simp [LeaderReady, hl, hres]) hready
  | assembles st block hl hall => exact absurd (by simp [LeaderReady, hl, hall]) hready

theorem FollowerMove.frame {i : Nat} {s s' : Cluster} (h : FollowerMove i s s') :
    FollowerFrame i s s' ∧ s'.outbox = s.outbox := by
  cases h with
  | blocked _ => exact ⟨⟨rfl, rfl, rfl, rfl, rfl, fun _ _ => rfl⟩, rfl⟩
  | hears number rest hstate hsub =>
      refine ⟨⟨rfl, rfl, rfl, rfl, rfl, ?_⟩, rfl⟩
      intro j hj
      simp only [Cluster.view, Cluster.ahead, Function.update_of_ne hj]
  | receives st st' raw rest hstate hgo htx =>
      refine ⟨⟨rfl, rfl, rfl, rfl, rfl, ?_⟩, rfl⟩
      intro j hj
      simp only [Cluster.view, Cluster.ahead, Function.update_of_ne hj]
  | reports st summary hstate hdone =>
      refine ⟨⟨rfl, rfl, rfl, rfl, rfl, ?_⟩, rfl⟩
      intro j hj
      simp only [Cluster.view, Cluster.ahead, Function.update_of_ne hj]

theorem leaderStep_dispatcher {crypto : Crypto} {numShards : Nat} {s s' : Cluster}
    (drop : Nat → Bool) (source : Nat) (schedule : (k : Nat) → ParallelFor.Schedule k)
    (hok : s.step crypto numShards (.leader drop source schedule) = .ok s') :
    s'.dispatcher = s.dispatcher := by
  have hmove := leaderStep_move hok
  cases hmove <;> rfl

theorem followerStep_dispatcher {crypto : Crypto} {numShards : Nat} {s s' : Cluster} (i : Nat)
    (schedule : (k : Nat) → ParallelFor.Schedule k)
    (hok : s.step crypto numShards (.follower i schedule) = .ok s') :
    s'.dispatcher = s.dispatcher := by
  by_cases hi : 1 ≤ i ∧ i < numShards
  · simp only [Cluster.step, if_pos hi] at hok
    exact (followerStep_move hok).frame.1.dispatcher
  · simp only [Cluster.step, if_neg hi, Except.ok.injEq] at hok
    rw [hok]

section Mono

variable {crypto : Crypto} {numShards : Nat} {s s' : Cluster}

/-- No step takes a block or a round back. -/
theorem step_mono (hinv : ClusterInv crypto numShards s) {label : Cluster.Label}
    (hok : s.step crypto numShards label = .ok s') :
    s.blocks.length ≤ s'.blocks.length ∧ s.dispatcher.rounds.length ≤ s'.dispatcher.rounds.length := by
  cases label with
  | add tx pubkey =>
      obtain rfl := Except.ok.inj hok
      refine ⟨Nat.le_refl _, ?_⟩
      show _ ≤ (s.dispatcher.add tx pubkey).2.rounds.length
      rw [add_rounds]
  | dispatch roundStartMs blockSize durationMs =>
      simp only [Cluster.step, Cluster.dispatch] at hok
      cases hout : s.outbox with
      | cons o out =>
          simp only [hout, Except.ok.injEq] at hok
          subst hok
          exact ⟨Nat.le_refl _, Nat.le_refl _⟩
      | nil =>
          rcases dispatch_ok hinv.core roundStartMs blockSize durationMs with
            ⟨d', x, hd, hrounds, -, -, -, -, -, -⟩
          simp only [hout, hd, Except.ok.injEq] at hok
          subst hok
          refine ⟨Nat.le_refl _, ?_⟩
          rw [hrounds, List.length_append]
          exact Nat.le_add_right _ _
  | send =>
      obtain rfl := Except.ok.inj hok
      rcases send_frame s with ⟨hdispatcher, -, -, -, hblocks, -, -, -⟩
      rw [hdispatcher, hblocks]
      exact ⟨Nat.le_refl _, Nat.le_refl _⟩
  | leader drop source schedule =>
      have hmove := leaderStep_move hok
      cases hmove with
      | assembles st block hl hall => exact ⟨by simp, Nat.le_refl _⟩
      | blocked _ => exact ⟨Nat.le_refl _, Nat.le_refl _⟩
      | opens => exact ⟨Nat.le_refl _, Nat.le_refl _⟩
      | dispatched => exact ⟨Nat.le_refl _, Nat.le_refl _⟩
      | announces => exact ⟨Nat.le_refl _, Nat.le_refl _⟩
      | receives => exact ⟨Nat.le_refl _, Nat.le_refl _⟩
      | completes => exact ⟨Nat.le_refl _, Nat.le_refl _⟩
      | takes => exact ⟨Nat.le_refl _, Nat.le_refl _⟩
  | follower i schedule =>
      by_cases hi : 1 ≤ i ∧ i < numShards
      · simp only [Cluster.step, if_pos hi] at hok
        have hframe := (followerStep_move hok).frame.1
        rw [hframe.blocks, hframe.dispatcher]
        exact ⟨Nat.le_refl _, Nat.le_refl _⟩
      · simp only [Cluster.step, if_neg hi, Except.ok.injEq] at hok
        subst hok
        exact ⟨Nat.le_refl _, Nat.le_refl _⟩

end Mono

end Sharding
