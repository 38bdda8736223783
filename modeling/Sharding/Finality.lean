import Sharding.Progress

/-! # Every round gets its block

Agreement says what blocks are like, not that there are any. Here the parties
take turns for ever, each again and again: a round that is dispatched is then
finalised, whatever is added and dispatched meanwhile, unless its announcement
misses a follower, and in that case no further block is ever assembled.
-/

namespace Sharding

/-! ## Announcements -/

section Announcements

variable {crypto : Crypto} {numShards : Nat} {s s' : Cluster}

/-- What it depends on whether a follower has heard of the open round. -/
theorem unheard_congr {i : Nat} (hleader : Announced s' ↔ Announced s)
    (hblocks : s'.blocks = s.blocks) (hfollower : s'.follower i = s.follower i)
    (hsub : s'.sub i = s.sub i) (hresults : s'.results i = s.results i)
    (hdue : Announced s → s'.due s.blocks.length i = s.due s.blocks.length i) :
    Unheard s' i ↔ Unheard s i := by
  constructor
  · intro h
    have hann := hleader.mp h.announced
    have hpos := h.due
    rw [hblocks, hdue hann] at hpos
    exact ⟨hann, hfollower ▸ h.state, hsub ▸ h.sub, hresults ▸ h.results, hpos⟩
  · intro h
    have hpos := h.due
    rw [← hdue h.announced, ← hblocks] at hpos
    exact ⟨hleader.mpr h.announced, hfollower.trans h.state, hsub.trans h.sub,
      hresults.trans h.results, hpos⟩

/-- A round that is announced is dispatched. -/
theorem Announced.rounds (hinv : ClusterInv crypto numShards s) (h : Announced s) :
    s.blocks.length < s.dispatcher.rounds.length := by
  have hphase := hinv.phase
  rcases h with ⟨st, hl⟩ | ⟨st, hl⟩
  · rw [hl] at hphase
    cases hphase with
    | processing st hround hleader hfollowers =>
        rcases hleader with ⟨c, frames, -, -, -, hat⟩
        exact hat.le
  · rw [hl] at hphase
    cases hphase with
    | collecting st ids hround hleader hfilled hnodup hids hin hout => exact hleader.le

theorem dispatch_unheard (hinv : ClusterInv crypto numShards s) {roundStartMs : UInt64}
    {blockSize : Nat} {durationMs : UInt64}
    (hok : s.dispatch roundStartMs blockSize durationMs = .ok s') (i : Nat) :
    Unheard s' i ↔ Unheard s i := by
  unfold Cluster.dispatch at hok
  cases hout : s.outbox with
  | cons o out =>
      simp only [hout, Except.ok.injEq] at hok
      subst hok
      exact Iff.rfl
  | nil =>
      rcases dispatch_ok hinv.core roundStartMs blockSize durationMs with
        ⟨d', x, hd, hrounds, -, -, -, -, -, -⟩
      simp only [hout, hd, Except.ok.injEq] at hok
      have hnew : (d'.rounds.drop s.dispatcher.rounds.length).flatMap Cluster.outgoing =
          Cluster.outgoing x := by
        rw [hrounds, List.drop_left, List.flatMap_singleton]
      rw [hnew] at hok
      subst hok
      refine unheard_congr Iff.rfl rfl rfl rfl rfl ?_
      intro hann
      have hold : outTo i s.outbox = [] := by
        rw [hout]
        rfl
      unfold Cluster.due
      simp only [hrounds, restAfter_concat i (hann.rounds hinv), View.due, Cluster.view,
        Cluster.ahead, outTo_outgoing, hold, List.append_nil, List.length_append]
      omega

/-- The leader of an announced round neither tells nor forgets anybody. -/
theorem LeaderMove.unheard_iff (hinv : ClusterInv crypto numShards s) (hpos : 0 < numShards)
    {drop : Nat → Bool} {source : Nat} (hmove : LeaderMove numShards drop source s s')
    (hann : Announced s) {i : Nat} (hi : 1 ≤ i ∧ i < numShards) :
    Unheard s' i ↔ Unheard s i := by
  have hi0 : i ≠ 0 := by omega
  cases hmove with
  | blocked _ => exact Iff.rfl
  | opens raw rest round legacy hl htx => exact absurd hann (by simp [Announced, hl])
  | dispatched raw rest hl hdone => exact absurd hann (by simp [Announced, hl])
  | announces hl => exact absurd hann (by simp [Announced, hl])
  | receives st st' raw rest hl hgo htx =>
      refine unheard_congr ⟨fun _ => hann, fun _ => Or.inl ⟨st', rfl⟩⟩ rfl rfl rfl rfl ?_
      intro _
      simp only [Cluster.due, Cluster.view, Cluster.ahead, Function.update_of_ne hi0]
  | completes st st' hl hdone =>
      exact unheard_congr ⟨fun _ => hann, fun _ => Or.inr ⟨st', rfl⟩⟩ rfl rfl rfl rfl fun _ => rfl
  | takes st st' raw rest hl hmore hres =>
      by_cases hne : i = source
      · -- its result was there: nothing is due any more
        subst hne
        have hphase := hinv.phase
        rw [hl] at hphase
        cases hphase with
        | collecting st ids hround hleader hfilled hnodup hids hin hout =>
            rcases source_missing hinv hin hres with ⟨-, hnew⟩
            rcases (hout i hi.1 hi.2 hnew).result hres with ⟨-, -, -, -, hnext⟩
            have hdue := hnext.due
            constructor
            · intro h
              have hpos := h.due
              have hsame : (s.ahead i).length = restAfter i s.dispatcher.rounds s.blocks.length := by
                rw [← Nat.zero_add (restAfter _ _ _)]
                exact hdue
              simp only [Cluster.due, View.due, Cluster.view, Cluster.ahead] at hpos hsame
              omega
            · intro h
              have hnone := h.results
              rw [hres] at hnone
              cases hnone
      · refine unheard_congr ⟨fun _ => hann, fun _ => Or.inr ⟨st', rfl⟩⟩ rfl rfl rfl ?_ fun _ => rfl
        exact Function.update_of_ne hne _ _
  | assembles st block hl hall =>
      constructor
      · intro h
        exact absurd h.announced (by simp [Announced])
      · -- everybody has reported, so everybody has heard
        intro h
        have hphase := hinv.phase
        rw [hl] at hphase
        cases hphase with
        | collecting st ids hround hleader hfilled hnodup hids hin hout =>
            have hreceived := hfilled.received
            rw [List.length_map, List.length_cons] at hreceived
            have hperm := ids_perm hpos hnodup hids (by omega)
            have hmem : i ∈ ids := by
              rcases List.mem_cons.mp (hperm.symm.subset (List.mem_range.mpr hi.2)) with h0 | hmem
              · exact absurd h0 hi0
              · exact hmem
            have hdue := (hin i hmem).position.due
            have hpos := h.due
            rw [List.length_nil, Nat.zero_add] at hdue
            rw [Cluster.due, View.due] at hpos
            omega

/-- Who has not heard of the open round after a step: who had not before, and whom
the announcement misses. -/
theorem step_unheard (hinv : ClusterInv crypto numShards s) (hpos : 0 < numShards)
    {label : Cluster.Label} (hok : s.step crypto numShards label = .ok s') {i : Nat}
    (hi : 1 ≤ i ∧ i < numShards) :
    Unheard s' i ↔ Unheard s i ∨ s.leader = .announcing ∧
      ∃ drop source schedule, label = .leader drop source schedule ∧ ¬ drop i = false := by
  have hquiet : (∀ drop source schedule, label ≠ .leader drop source schedule) →
      (Unheard s' i ↔ Unheard s i) →
      (Unheard s' i ↔ Unheard s i ∨ s.leader = .announcing ∧
        ∃ drop source schedule, label = .leader drop source schedule ∧ ¬ drop i = false) := by
    intro hother h
    rw [h, or_iff_left]
    rintro ⟨-, drop, source, schedule, hlabel, -⟩
    exact hother drop source schedule hlabel
  cases label with
  | add tx pubkey =>
      obtain rfl := Except.ok.inj hok
      apply hquiet (by simp)
      refine unheard_congr Iff.rfl rfl rfl rfl rfl fun _ => ?_
      simp only [Cluster.due, add_rounds, Cluster.view, Cluster.ahead]
  | dispatch roundStartMs blockSize durationMs =>
      exact hquiet (by simp) (dispatch_unheard hinv hok i)
  | send =>
      obtain rfl := Except.ok.inj hok
      rcases send_frame s with ⟨hdispatcher, -, hleader, -, hblocks, hresults, hfollower, hsub⟩
      apply hquiet (by simp)
      refine unheard_congr ?_ hblocks (by rw [hfollower]) (by rw [hsub]) (by rw [hresults]) fun _ => ?_
      · unfold Announced
        rw [hleader]
      · unfold Cluster.due
        rw [send_view, hdispatcher]
  | follower j schedule =>
      apply hquiet (by simp)
      by_cases hj : 1 ≤ j ∧ j < numShards
      · simp only [Cluster.step, if_pos hj] at hok
        have hmove := followerStep_move hok
        rcases hmove.frame with ⟨hframe, -⟩
        by_cases hij : i = j
        · -- whoever can move has heard, and has still heard when it has moved
          subst hij
          have hnot : ∀ {t : Cluster}, ¬ t.follower i = .idle ∨ ¬ t.results i = [] → ¬ Unheard t i := by
            rintro t (hstate | hresults) h
            · exact hstate h.state
            · exact hresults h.results
          cases hmove with
          | blocked _ => exact Iff.rfl
          | hears number rest hstate hsub =>
              refine iff_of_false (hnot (Or.inl (by simp))) ?_
              intro h
              have hnone := h.sub
              rw [hsub] at hnone
              cases hnone
          | receives st st' raw rest hstate hgo htx =>
              exact iff_of_false (hnot (Or.inl (by simp))) (hnot (Or.inl (by simp [hstate])))
          | reports st summary hstate hdone =>
              exact iff_of_false (hnot (Or.inr (by simp))) (hnot (Or.inl (by simp [hstate])))
        · have hview := hframe.others i hij
          rcases View.mk.inj hview with ⟨hstate, hsub, hresults, -⟩
          refine unheard_congr ?_ hframe.blocks hstate hsub hresults fun _ => ?_
          · unfold Announced
            rw [hframe.leader]
          · unfold Cluster.due
            rw [hview, hframe.dispatcher]
      · simp only [Cluster.step, if_neg hj, Except.ok.injEq] at hok
        subst hok
        exact Iff.rfl
  | leader drop source schedule =>
      have hmove := leaderStep_move hok
      by_cases hann : Announced s
      · have hl : ¬ s.leader = .announcing := by
          intro hl
          rcases hann with ⟨st, hst⟩ | ⟨st, hst⟩
          · simp [hl] at hst
          · simp [hl] at hst
        rw [hmove.unheard_iff hinv hpos hann hi, or_iff_left fun h => hl h.1]
      · have hbefore : ¬ Unheard s i := fun h => hann h.announced
        cases hmove with
        | blocked hready =>
            have hl : ¬ s.leader = .announcing := by
              intro hl
              exact hready (by simp [LeaderReady, hl])
            simp [hl]
        | opens raw rest round legacy hl htx =>
            have hafter : ¬ Announced { s with
                tx := Function.update s.tx 0 rest
                leader := .waitDone
                round := round
                legacy := legacy } := by simp [Announced]
            exact iff_of_false (fun h => hafter h.announced) (by simp [hl, hbefore])
        | dispatched raw rest hl hdone =>
            have hafter : ¬ Announced { s with done := rest, leader := .announcing } := by
              simp [Announced]
            exact iff_of_false (fun h => hafter h.announced) (by simp [hl, hbefore])
        | announces hl =>
            have hphase := hinv.phase
            rw [hl] at hphase
            cases hphase with
            | announcing ho =>
                have hrest := ho.followers i hi.1 hi.2
                have hopen := ho.leader.le
                have hsub : s.sub i = [] := hrest.sub
                constructor
                · intro h
                  refine Or.inr ⟨hl, drop, source, schedule, rfl, ?_⟩
                  intro hdrop
                  have hnone := h.sub
                  simp [hi.1, hi.2, hdrop] at hnone
                · rintro (h | ⟨-, drop', source', schedule', hlabel, hdrop⟩)
                  · exact absurd h hbefore
                  · obtain ⟨rfl, rfl, -⟩ := Cluster.Label.leader.inj hlabel
                    have hdue := hrest.position.due_pos hinv.core hi.2 hopen
                    refine ⟨Or.inl ⟨recvInit, rfl⟩, hrest.state, ?_, hrest.results, ?_⟩
                    · simp [hdrop, hsub]
                    · exact Nat.sub_pos_of_lt hdue
        | receives st st' raw rest hl hgo htx => exact absurd (Or.inl ⟨st, hl⟩) hann
        | completes st st' hl hdone => exact absurd (Or.inl ⟨st, hl⟩) hann
        | takes st st' raw rest hl hmore hres => exact absurd (Or.inr ⟨st, hl⟩) hann
        | assembles st block hl hall => exact absurd (Or.inr ⟨st, hl⟩) hann

/-- An announced round stays announced until its block is there. -/
theorem announced_step (hann : Announced s) {label : Cluster.Label}
    (hok : s.step crypto numShards label = .ok s') :
    Announced s' ∧ s'.blocks = s.blocks ∨
      ¬ Announced s' ∧ s.blocks.length < s'.blocks.length := by
  cases label with
  | add tx pubkey =>
      obtain rfl := Except.ok.inj hok
      exact Or.inl ⟨hann, rfl⟩
  | dispatch roundStartMs blockSize durationMs =>
      simp only [Cluster.step, Cluster.dispatch] at hok
      split at hok
      · obtain rfl := Except.ok.inj hok
        exact Or.inl ⟨hann, rfl⟩
      · split at hok
        · cases hok
        · obtain rfl := Except.ok.inj hok
          exact Or.inl ⟨hann, rfl⟩
  | send =>
      obtain rfl := Except.ok.inj hok
      rcases send_frame s with ⟨-, -, hleader, -, hblocks, -, -, -⟩
      unfold Announced at hann ⊢
      rw [hleader]
      exact Or.inl ⟨hann, hblocks⟩
  | follower i schedule =>
      by_cases hi : 1 ≤ i ∧ i < numShards
      · simp only [Cluster.step, if_pos hi] at hok
        have hframe := (followerStep_move hok).frame.1
        unfold Announced at hann ⊢
        rw [hframe.leader]
        exact Or.inl ⟨hann, hframe.blocks⟩
      · simp only [Cluster.step, if_neg hi, Except.ok.injEq] at hok
        subst hok
        exact Or.inl ⟨hann, rfl⟩
  | leader drop source schedule =>
      have hmove := leaderStep_move hok
      cases hmove with
      | blocked _ => exact Or.inl ⟨hann, rfl⟩
      | opens raw rest round legacy hl htx => exact absurd hann (by simp [Announced, hl])
      | dispatched raw rest hl hdone => exact absurd hann (by simp [Announced, hl])
      | announces hl => exact absurd hann (by simp [Announced, hl])
      | receives st st' raw rest hl hgo htx => exact Or.inl ⟨Or.inl ⟨st', rfl⟩, rfl⟩
      | completes st st' hl hdone => exact Or.inl ⟨Or.inr ⟨st', rfl⟩, rfl⟩
      | takes st st' raw rest hl hmore hres => exact Or.inl ⟨Or.inr ⟨st', rfl⟩, rfl⟩
      | assembles st block hl hall => exact Or.inr ⟨by simp [Announced], by simp⟩

end Announcements

/-! ## Fair executions -/

/-- An announcement with this label reaches all followers. -/
def Lossless (numShards : Nat) (label : Cluster.Label) : Prop :=
  ∀ drop source schedule, label = .leader drop source schedule →
    ∀ i, 1 ≤ i ∧ i < numShards → drop i = false

section Executions

variable {crypto : Crypto} {numShards : Nat} {e : Run.Execution (Cluster.step crypto numShards)}

theorem execution_live (hpos : 0 < numShards) (hle : numShards ≤ maxShards) {capacity : Nat}
    (hinit : e.state 0 = Cluster.create capacity numShards) (n : Nat) :
    LiveInv crypto numShards (e.state n) := by
  have hstart : LiveInv crypto numShards (e.state 0) := by
    rw [hinit]
    exact create_live crypto capacity hpos hle
  exact e.inv_from (LiveInv crypto numShards)
    (fun m _ h => step_live hpos hle h (e.next m)) hstart n (Nat.zero_le n)

theorem execution_mono (hpos : 0 < numShards) (hle : numShards ≤ maxShards) {capacity : Nat}
    (hinit : e.state 0 = Cluster.create capacity numShards) {n m : Nat} (hnm : n ≤ m) :
    (e.state n).blocks.length ≤ (e.state m).blocks.length ∧
      (e.state n).dispatcher.rounds.length ≤ (e.state m).dispatcher.rounds.length := by
  apply e.inv_from (fun t => (e.state n).blocks.length ≤ t.blocks.length ∧
    (e.state n).dispatcher.rounds.length ≤ t.dispatcher.rounds.length) ?_
    ⟨Nat.le_refl _, Nat.le_refl _⟩ m hnm
  rintro m - ⟨hblocks, hrounds⟩
  have hstep := step_mono (execution_live hpos hle hinit m).inv (e.next m)
  exact ⟨Nat.le_trans hblocks hstep.1, Nat.le_trans hrounds hstep.2⟩

/-- Where nobody misses an announcement from `n` on, the next round gets its block. -/
theorem next_finalised (hpos : 0 < numShards) (hle : numShards ≤ maxShards) {capacity : Nat}
    (hinit : e.state 0 = Cluster.create capacity numShards)
    (hfair : e.Fair (fun c : Party numShards => c.moves)) {n : Nat}
    (hopen : (e.state n).blocks.length < (e.state n).dispatcher.rounds.length)
    (hheard : ∀ m, n ≤ m → (e.state m).blocks.length = (e.state n).blocks.length →
      ∀ i, 1 ≤ i ∧ i < numShards → ¬ Unheard (e.state m) i) :
    ∃ m, n ≤ m ∧ (e.state n).blocks.length < (e.state m).blocks.length := by
  have hstart : Open crypto numShards (e.state n).blocks.length (e.state n) :=
    ⟨execution_live hpos hle hinit n, rfl, hopen⟩
  rcases (round_ranked crypto hpos hle _).eventually hfair hstart with ⟨m, hm, hblock | ⟨i, hi, hmiss⟩⟩
  · exact ⟨m, hm, hblock⟩
  · by_cases hmore : (e.state n).blocks.length < (e.state m).blocks.length
    · exact ⟨m, hm, hmore⟩
    · have hmono := (execution_mono hpos hle hinit hm).1
      exact absurd hmiss (hheard m hm (by omega) i hi)

/-- If no announcement gets lost, block after block is assembled, as far as rounds are
dispatched. -/
theorem block_assembled (hpos : 0 < numShards) (hle : numShards ≤ maxShards) {capacity : Nat}
    (hinit : e.state 0 = Cluster.create capacity numShards)
    (hfair : e.Fair (fun c : Party numShards => c.moves))
    (hlossless : ∀ n, Lossless numShards (e.input n)) (n r : Nat)
    (hr : r < (e.state n).dispatcher.rounds.length) :
    ∃ m, n ≤ m ∧ r < (e.state m).blocks.length := by
  have hlive := execution_live (e := e) hpos hle hinit
  -- nobody ever misses anything
  have hheard : ∀ m i, 1 ≤ i ∧ i < numShards → ¬ Unheard (e.state m) i := by
    intro m i hi
    induction m with
    | zero =>
        rw [hinit]
        exact fun h => absurd h.announced (by simp [Announced, Cluster.create])
    | succ m ih =>
        rw [step_unheard (hlive m).inv hpos (e.next m) hi]
        rintro (h | ⟨-, drop, source, schedule, hlabel, hdrop⟩)
        · exact ih h
        · exact hdrop (hlossless m drop source schedule hlabel i hi)
  -- block after block, up to number `r`
  have hreach : ∀ d, (e.state n).blocks.length + d ≤ r + 1 →
      ∃ m, n ≤ m ∧ (e.state n).blocks.length + d ≤ (e.state m).blocks.length := by
    intro d
    induction d with
    | zero => exact fun _ => ⟨n, Nat.le_refl n, Nat.le_refl _⟩
    | succ d ih =>
        intro hd
        rcases ih (by omega) with ⟨m, hm, hblocks⟩
        by_cases hmore : (e.state n).blocks.length + (d + 1) ≤ (e.state m).blocks.length
        · exact ⟨m, hm, hmore⟩
        have hrounds := (execution_mono (e := e) hpos hle hinit hm).2
        have hopen : (e.state m).blocks.length < (e.state m).dispatcher.rounds.length := by omega
        rcases next_finalised hpos hle hinit hfair hopen (fun t _ _ => hheard t)
          with ⟨m', hm', hlt⟩
        exact ⟨m', Nat.le_trans hm hm', by omega⟩
  by_cases hnow : r < (e.state n).blocks.length
  · exact ⟨n, Nat.le_refl n, hnow⟩
  · rcases hreach (r + 1 - (e.state n).blocks.length) (by omega) with ⟨m, hm, hblocks⟩
    exact ⟨m, hm, by omega⟩

end Executions

/-- Every dispatched round is finalised: if no announcement gets lost, then in every
execution in which the assigner, the leader and the followers go on taking turns,
whatever is added and dispatched in between, a round in the log has its block at
some later time, one that agrees with it. -/
theorem round_finalised (crypto : Crypto) (capacity numShards : Nat) (hpos : 0 < numShards)
    (hle : numShards ≤ maxShards) (e : Run.Execution (Cluster.step crypto numShards))
    (hinit : e.state 0 = Cluster.create capacity numShards)
    (hfair : e.Fair (fun c : Party numShards => c.moves))
    (hlossless : ∀ n, Lossless numShards (e.input n)) (n r : Nat)
    (hr : r < (e.state n).dispatcher.rounds.length) :
    ∃ m, n ≤ m ∧ ∃ header round b,
      (headersOf (e.state m).dispatcher.pushes)[r]? = some header ∧
      (e.state m).dispatcher.rounds[r]? = some round ∧
      (e.state m).blocks[r]? = some b ∧
      Agrees crypto numShards header round b := by
  rcases block_assembled hpos hle hinit hfair hlossless n r hr with ⟨m, hm, hblock⟩
  rcases (execution_live hpos hle hinit m).inv.agrees hpos hblock with
    ⟨header, round, hheader, hround, hagrees⟩
  exact ⟨m, hm, header, round, _, hheader, hround, List.getElem?_eq_getElem hblock, hagrees⟩

/-- An announcement decides: in an execution in which everybody goes on taking turns,
the round that is announced now, and with it any further round, gets a block exactly
if the announcement reaches every follower. -/
theorem announcement_decides (crypto : Crypto) (capacity numShards : Nat) (hpos : 0 < numShards)
    (hle : numShards ≤ maxShards) (e : Run.Execution (Cluster.step crypto numShards))
    (hinit : e.state 0 = Cluster.create capacity numShards)
    (hfair : e.Fair (fun c : Party numShards => c.moves)) (n : Nat)
    (hannouncing : (e.state n).leader = .announcing) (drop : Nat → Bool) (source : Nat)
    (schedule : (k : Nat) → ParallelFor.Schedule k)
    (hlabel : e.input n = .leader drop source schedule) :
    (∃ m, (e.state n).blocks.length < (e.state m).blocks.length) ↔
      ∀ i, 1 ≤ i → i < numShards → drop i = false := by
  have hlive := execution_live (e := e) hpos hle hinit
  have hstep : ∀ m i, 1 ≤ i ∧ i < numShards → _ :=
    fun m i hi => step_unheard (hlive m).inv hpos (e.next m) hi
  -- the announcement itself
  have hafter : Announced (e.state (n + 1)) ∧ (e.state (n + 1)).blocks = (e.state n).blocks := by
    have hnext := e.next n
    rw [hlabel] at hnext
    have hmove := leaderStep_move hnext
    generalize e.state (n + 1) = t at hmove
    cases hmove with
    | announces hl => exact ⟨Or.inl ⟨recvInit, rfl⟩, rfl⟩
    | blocked hready => exact absurd (by simp [LeaderReady, hannouncing]) hready
    | opens raw rest round legacy hl htx => simp [hannouncing] at hl
    | dispatched raw rest hl hdone => simp [hannouncing] at hl
    | receives st st' raw rest hl hgo htx => simp [hannouncing] at hl
    | completes st st' hl hdone => simp [hannouncing] at hl
    | takes st st' raw rest hl hmore hres => simp [hannouncing] at hl
    | assembles st block hl hall => simp [hannouncing] at hl
  have hnobody : ∀ i, ¬ Unheard (e.state n) i :=
    fun i h => absurd h.announced (by simp [Announced, hannouncing])
  constructor
  · -- a follower that is missed stays so, and the leader waits for it
    rintro ⟨m, hm⟩ i h1 hn
    by_contra hdrop
    have hstuck : ∀ m, n + 1 ≤ m →
        (e.state m).blocks.length = (e.state n).blocks.length ∧ Unheard (e.state m) i := by
      apply e.inv_from (fun t => t.blocks.length = (e.state n).blocks.length ∧ Unheard t i)
      · rintro m - ⟨hblocks, hmiss⟩
        have hmiss' := (hstep m i ⟨h1, hn⟩).mpr (Or.inl hmiss)
        rcases announced_step hmiss.announced (e.next m) with ⟨-, hsame⟩ | ⟨hover, -⟩
        · exact ⟨by rw [hsame, hblocks], hmiss'⟩
        · exact absurd hmiss'.announced hover
      · refine ⟨by rw [hafter.2], (hstep n i ⟨h1, hn⟩).mpr (Or.inr ⟨hannouncing, ?_⟩)⟩
        exact ⟨drop, source, schedule, hlabel, hdrop⟩
    rcases Nat.lt_or_ge n m with hlater | hearlier
    · have hsame := (hstuck m hlater).1
      omega
    · have hmono := (execution_mono (e := e) hpos hle hinit hearlier).1
      omega
  · -- if nobody is missed the fair execution gets there
    intro hdrop
    have hheard : ∀ m, n + 1 ≤ m → (e.state n).blocks.length < (e.state m).blocks.length ∨
        Announced (e.state m) ∧ ∀ i, 1 ≤ i ∧ i < numShards → ¬ Unheard (e.state m) i := by
      apply e.inv_from (fun t => (e.state n).blocks.length < t.blocks.length ∨
        Announced t ∧ ∀ i, 1 ≤ i ∧ i < numShards → ¬ Unheard t i)
      · rintro m hm (hmore | ⟨hann, hall⟩)
        · have hmono := (step_mono (hlive m).inv (e.next m)).1
          exact Or.inl (Nat.lt_of_lt_of_le hmore hmono)
        rcases announced_step hann (e.next m) with ⟨hann', -⟩ | ⟨-, hmore⟩
        · refine Or.inr ⟨hann', ?_⟩
          intro i hi
          rw [hstep m i hi]
          rintro (h | ⟨hl, -⟩)
          · exact hall i hi h
          · exact absurd hann (by simp [Announced, hl])
        · have hmono := (execution_mono (e := e) hpos hle hinit (Nat.le_of_succ_le hm)).1
          exact Or.inl (by omega)
      · refine Or.inr ⟨hafter.1, ?_⟩
        intro i hi
        rw [hstep n i hi]
        rintro (h | ⟨-, drop', source', schedule', hlabel', hmissed⟩)
        · exact hnobody i h
        · obtain ⟨rfl, -, -⟩ := Cluster.Label.leader.inj (hlabel.symm.trans hlabel')
          exact hmissed (hdrop i hi.1 hi.2)
    have hopen := hafter.1.rounds (hlive (n + 1)).inv
    have hquiet : ∀ m, n + 1 ≤ m →
        (e.state m).blocks.length = (e.state (n + 1)).blocks.length →
          ∀ i, 1 ≤ i ∧ i < numShards → ¬ Unheard (e.state m) i := by
      intro m hm hsame i hi
      rw [hafter.2] at hsame
      rcases hheard m hm with hmore | ⟨-, hall⟩
      · omega
      · exact hall i hi
    rcases next_finalised hpos hle hinit hfair hopen hquiet with ⟨m, -, hlt⟩
    rw [hafter.2] at hlt
    exact ⟨m, hlt⟩

/-! ## Two shards, round after round -/

/-- Dispatches, sends, and steps of the leader and its follower in turn; the
announcements reach the follower if `drop` says so. -/
def twoShardTurns (drop : Nat → Bool) (n : Nat) : Cluster.Label :=
  if n % 4 = 0 then .dispatch 0 1 0
  else if n % 4 = 1 then .send
  else if n % 4 = 2 then .leader drop 1 ParallelFor.Schedule.sequential
  else .follower 1 ParallelFor.Schedule.sequential

/-- The two-shard cluster has an execution along these turns, and it is fair. -/
theorem twoShardTurns_fair (drop : Nat → Bool) :
    ∃ e : Run.Execution (Cluster.step Crypto.rejecting 2),
      e.state 0 = Cluster.create 4 2 ∧ e.input = twoShardTurns drop ∧
        e.Fair (fun c : Party 2 => c.moves) := by
  rcases Run.Execution.exists_of_inv (ClusterInv Crypto.rejecting 2)
    (fun s label hs => clusterStep_inv (by decide) (by decide) s label hs) (Cluster.create 4 2)
    (clusterCreate_inv Crypto.rejecting 4 (by decide) (by decide)) (twoShardTurns drop)
    with ⟨e, hinit, hinput, hinv⟩
  refine ⟨e, hinit, hinput, ?_⟩
  intro c n
  rw [hinput]
  cases c with
  | assigner =>
      refine ⟨4 * n + 1, by omega, ?_⟩
      simp [Party.moves, twoShardTurns, Nat.add_mod]
  | leader =>
      refine ⟨4 * n + 2, by omega, drop, 1, ParallelFor.Schedule.sequential, ?_, ?_⟩
      · simp [twoShardTurns, Nat.add_mod]
      · -- nobody but follower 1 reports
        rintro ⟨j, hj⟩
        by_cases hj1 : j = 1
        · rwa [hj1] at hj
        · exact absurd ((hinv _).strangers j (by omega)) hj
  | follower i hi =>
      refine ⟨4 * n + 3, by omega, ParallelFor.Schedule.sequential, ?_⟩
      obtain rfl : i = 1 := by omega
      simp [twoShardTurns, Nat.add_mod]

/-- The first round of the two shards is finalised. -/
theorem round_finalised_two_shards :
    ∃ e : Run.Execution (Cluster.step Crypto.rejecting 2),
      ∃ m, 1 ≤ m ∧ ∃ header round b,
        (headersOf (e.state m).dispatcher.pushes)[0]? = some header ∧
        (e.state m).dispatcher.rounds[0]? = some round ∧
        (e.state m).blocks[0]? = some b ∧
        Agrees Crypto.rejecting 2 header round b := by
  rcases twoShardTurns_fair fun _ => false with ⟨e, hinit, hinput, hfair⟩
  have hfirst : 0 < (e.state 1).dispatcher.rounds.length := by
    have hrun := e.run_input 1
    rw [hinit, hinput] at hrun
    have hcount : (Run.run (Cluster.step Crypto.rejecting 2) (Cluster.create 4 2)
        ((List.range 1).map (twoShardTurns fun _ => false))).toOption.map
          (fun s => s.dispatcher.rounds.length) = some 1 := by decide +kernel
    rw [hrun] at hcount
    have hone : (e.state 1).dispatcher.rounds.length = 1 := Option.some.inj hcount
    rw [hone]
    exact Nat.zero_lt_one
  refine ⟨e, round_finalised Crypto.rejecting 4 2 (by decide) (by decide) e hinit hfair ?_ 1 0 hfirst⟩
  intro n drop source schedule hlabel i _
  rw [hinput, twoShardTurns] at hlabel
  split at hlabel
  · cases hlabel
  · split at hlabel
    · cases hlabel
    · split at hlabel
      · obtain ⟨rfl, -, -⟩ := Cluster.Label.leader.inj hlabel
        rfl
      · cases hlabel

/-- Where the follower is missed by the announcement, at the leader's fifth turn, there
is no block. -/
theorem announcement_decides_missed :
    ∃ e : Run.Execution (Cluster.step Crypto.rejecting 2), (e.state 18).leader = .announcing ∧
      ((∃ m, (e.state 18).blocks.length < (e.state m).blocks.length) ↔
        ∀ i, 1 ≤ i → i < 2 → (fun _ => true) i = false) := by
  rcases twoShardTurns_fair fun _ => true with ⟨e, hinit, hinput, hfair⟩
  have hannouncing : (e.state 18).leader = .announcing := by
    have hrun := e.run_input 18
    rw [hinit, hinput] at hrun
    have hleader : (Run.run (Cluster.step Crypto.rejecting 2) (Cluster.create 4 2)
        ((List.range 18).map (twoShardTurns fun _ => true))).toOption.map
          (fun s => s.leader.rank 0) = some 3 := by decide +kernel
    rw [hrun] at hleader
    have hrank : (e.state 18).leader.rank 0 = 3 := Option.some.inj hleader
    cases hl : (e.state 18).leader with
    | announcing => rfl
    | waiting => simp [hl, LeaderState.rank] at hrank
    | waitDone => simp [hl, LeaderState.rank] at hrank
    | processing st => simp [hl, LeaderState.rank] at hrank
    | collecting st => simp [hl, LeaderState.rank] at hrank
  have hlabel : e.input 18 = .leader (fun _ => true) 1 ParallelFor.Schedule.sequential := by
    rw [hinput]
    rfl
  exact ⟨e, hannouncing, announcement_decides Crypto.rejecting 4 2 (by decide) (by decide) e hinit
    hfair 18 hannouncing _ _ _ hlabel⟩

end Sharding
