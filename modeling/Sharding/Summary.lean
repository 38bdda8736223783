import Sharding.Worker

/-! # What a summary says about a round

A round reaches a worker as `k` transactions and one marker that counts them,
in any order, with failed receives and foreign messages in between. The summary
is that of all `k` transactions, so it is a summary of the verified ones only if
all of them verify. Its root commits to the contents of the transactions: two
runs with the same count and root differ only by a collision among the inputs
they hashed.
-/

namespace Sharding

open ParallelFor

/-! ## The stream of a round -/

/-- What one receive can bring. -/
inductive Frame where
  | failed
  | tx (m : TxWithPubkey)
  | roundEnd (e : RoundEnd)
  | other (raw : Bytes) (notEnd : raw.length ≠ RoundEnd.codec.size)
      (notTx : raw.length ≠ TxWithPubkey.codec.size)

def Frame.event : Frame → Option Bytes
  | .failed => none
  | .tx m => some (TxWithPubkey.codec.enc m)
  | .roundEnd e => some (RoundEnd.codec.enc e)
  | .other raw _ _ => some raw

/-- A transaction or a marker. -/
def Frame.isMessage : Frame → Bool
  | .tx _ => true
  | .roundEnd _ => true
  | _ => false

def txsOf (frames : List Frame) : List TxWithPubkey :=
  frames.filterMap fun f =>
    match f with
    | .tx m => some m
    | _ => none

def endsOf (frames : List Frame) : List RoundEnd :=
  frames.filterMap fun f =>
    match f with
    | .roundEnd e => some e
    | _ => none

/-- The frames of one round: its transactions and the single marker that counts
them; anything else comes before the last of these. -/
structure RoundFrames where
  before : List Frame
  last : Frame
  marker : RoundEnd
  isMessage : last.isMessage = true
  ends : endsOf (before ++ [last]) = [marker]
  counted : marker.txCount.toNat = (txsOf (before ++ [last])).length

namespace RoundFrames

def msgs (r : RoundFrames) : List TxWithPubkey := txsOf (r.before ++ [r.last])

def events (r : RoundFrames) : List (Option Bytes) := (r.before ++ [r.last]).map Frame.event

end RoundFrames

/-- The loop has gathered `c` and has the frames `frames` of its round ahead. -/
structure Pending (k : Nat) (c : Collected) (frames : List Frame) : Prop where
  total : c.msgs.length + (txsOf frames).length = k
  marker : (c.gotEnd = true ∧ c.expected.toNat = k ∧ endsOf frames = []) ∨
    (c.gotEnd = false ∧ ∃ e, endsOf frames = [e] ∧ e.txCount.toNat = k)
  last : ∀ h : frames ≠ [], (frames.getLast h).isMessage = true

theorem collect_done {c : Collected} (h : c.done = true) (evs : List (Option Bytes)) :
    collect evs c = .ok (c, evs) := by
  cases evs with
  | nil => rw [collect, if_pos h]
  | cons ev evs => rw [collect, if_pos h]

theorem Pending.done {k : Nat} {c : Collected} (h : Pending k c []) : c.done = true := by
  have htotal : c.msgs.length = k := h.total
  rcases h.marker with ⟨hend, hexp, -⟩ | ⟨-, e, he, -⟩
  · unfold Collected.done
    rw [hend, hexp, htotal]
    simp
  · cases he

/-- The last frame ahead is a message, so the loop does not stop before it. -/
theorem Pending.not_done {k : Nat} {c : Collected} {f : Frame} {frames : List Frame}
    (h : Pending k c (f :: frames)) : c.done = false := by
  unfold Collected.done
  rcases h.marker with ⟨hend, hexp, hends⟩ | ⟨hend, -⟩
  · -- the marker is behind, so the last frame is a transaction still missing
    have hne : f :: frames ≠ [] := List.cons_ne_nil f frames
    have hmem := List.getLast_mem hne
    have hmsg := h.last hne
    have hmissing : 0 < (txsOf (f :: frames)).length := by
      cases hlast : (f :: frames).getLast hne with
      | failed =>
          rw [hlast] at hmsg
          cases hmsg
      | other raw h8 h160 =>
          rw [hlast] at hmsg
          cases hmsg
      | roundEnd e =>
          rw [hlast] at hmem
          have he : e ∈ endsOf (f :: frames) := List.mem_filterMap.mpr ⟨_, hmem, rfl⟩
          rw [hends] at he
          cases he
      | tx m =>
          rw [hlast] at hmem
          have hm : m ∈ txsOf (f :: frames) := List.mem_filterMap.mpr ⟨_, hmem, rfl⟩
          exact List.length_pos_of_mem hm
    have htotal := h.total
    have hlt : c.msgs.length < c.expected.toNat := by omega
    simp [hlt]
  · rw [hend]
    rfl

theorem Pending.last_tail {f : Frame} {frames : List Frame}
    (h : ∀ hne : f :: frames ≠ [], ((f :: frames).getLast hne).isMessage = true) :
    ∀ hne : frames ≠ [], (frames.getLast hne).isMessage = true := by
  intro hne
  have hlast := h (List.cons_ne_nil f frames)
  rwa [List.getLast_cons hne] at hlast

/-- One frame of the round is taken in. -/
theorem Pending.step {k : Nat} (hsmall : k ≤ 2 ^ 31) {c : Collected} {f : Frame}
    {frames : List Frame} (h : Pending k c (f :: frames)) :
    ∃ c', collectEvent c f.event = .ok c' ∧ c'.msgs = c.msgs ++ txsOf [f] ∧
      Pending k c' frames := by
  have htail := Pending.last_tail h.last
  have htotal := h.total
  cases f with
  | failed => exact ⟨c, rfl, (List.append_nil _).symm, h.total, h.marker, htail⟩
  | other raw h8 h160 =>
      refine ⟨c, ?_, (List.append_nil _).symm, h.total, h.marker, htail⟩
      simp only [Frame.event, collectEvent, if_neg h8, if_neg h160]
  | roundEnd e =>
      have h8 : (RoundEnd.codec.enc e).length = RoundEnd.codec.size := RoundEnd.codec.enc_length e
      refine ⟨{ c with expected := e.txCount, gotEnd := true }, ?_, (List.append_nil _).symm,
        h.total, ?_, htail⟩
      · simp only [Frame.event, collectEvent, if_pos h8, RoundEnd.codec.dec_enc_self]
      · -- this is the marker: there is no other
        rcases h.marker with ⟨-, -, hends⟩ | ⟨-, e', hends, hcount⟩
        · cases hends
        · rcases List.cons.inj hends with ⟨rfl, hnone⟩
          exact Or.inl ⟨rfl, hcount, hnone⟩
  | tx m =>
      have h160 : (TxWithPubkey.codec.enc m).length = TxWithPubkey.codec.size :=
        TxWithPubkey.codec.enc_length m
      have h8 : ¬ (TxWithPubkey.codec.enc m).length = RoundEnd.codec.size := by
        rw [h160]
        decide
      have hlen : (txsOf (.tx m :: frames)).length = (txsOf frames).length + 1 := rfl
      have hroom : c.msgs.length < 2 ^ 31 := by omega
      refine ⟨{ c with msgs := c.msgs ++ [m] }, ?_, rfl, ?_, h.marker, htail⟩
      · simp only [Frame.event, collectEvent, if_neg h8, if_pos h160, if_pos hroom,
          TxWithPubkey.codec.dec_enc_self]
      · rw [List.length_append, List.length_singleton]
        omega

theorem txsOf_append (a b : List Frame) : txsOf (a ++ b) = txsOf a ++ txsOf b :=
  List.filterMap_append

theorem endsOf_append (a b : List Frame) : endsOf (a ++ b) = endsOf a ++ endsOf b :=
  List.filterMap_append

theorem txsOf_cons (f : Frame) (frames : List Frame) :
    txsOf (f :: frames) = txsOf [f] ++ txsOf frames := txsOf_append [f] frames

/-- The loop gathers the transactions of its round and stops right behind it. -/
theorem collect_frames {k : Nat} (hsmall : k ≤ 2 ^ 31) (rest : List (Option Bytes))
    (frames : List Frame) :
    ∀ c, Pending k c frames → ∃ c', c'.msgs = c.msgs ++ txsOf frames ∧
      collect (frames.map Frame.event ++ rest) c = .ok (c', rest) := by
  induction frames with
  | nil =>
      intro c h
      exact ⟨c, (List.append_nil c.msgs).symm, collect_done h.done rest⟩
  | cons f frames ih =>
      intro c h
      have hgo : ¬ c.done = true := by
        rw [h.not_done]
        exact Bool.false_ne_true
      rcases h.step hsmall with ⟨c₁, hone, hmsgs₁, h₁⟩
      rcases ih c₁ h₁ with ⟨c', hmsgs, hok⟩
      refine ⟨c', ?_, ?_⟩
      · rw [hmsgs, hmsgs₁, txsOf_cons f frames, List.append_assoc]
      · rw [List.map_cons, List.cons_append, collect, if_neg hgo, hone, Run.ok_bind]
        exact hok

/-- The transactions among what was consumed. -/
def received (consumed : List (Option Bytes)) : List TxWithPubkey :=
  consumed.filterMap fun ev =>
    match ev with
    | some raw =>
        if raw.length = RoundEnd.codec.size then none
        else if raw.length = TxWithPubkey.codec.size then some (TxWithPubkey.codec.dec raw)
        else none
    | none => none

theorem received_cons (ev : Option Bytes) (evs : List (Option Bytes)) :
    received (ev :: evs) = received [ev] ++ received evs := by
  unfold received
  rw [← List.filterMap_append, List.singleton_append]

/-- What the loop gathered is what it consumed. -/
theorem collect_consumed (evs : List (Option Bytes)) :
    ∀ {c c' : Collected} {rest : List (Option Bytes)}, collect evs c = .ok (c', rest) →
      ∃ consumed, evs = consumed ++ rest ∧ c'.msgs = c.msgs ++ received consumed := by
  induction evs with
  | nil =>
      intro c c' rest h
      rw [collect] at h
      split at h
      · rcases Prod.mk.inj (Except.ok.inj h) with ⟨rfl, rfl⟩
        exact ⟨[], rfl, (List.append_nil c.msgs).symm⟩
      · cases h
  | cons ev evs ih =>
      intro c c' rest h
      rw [collect] at h
      split at h
      · rcases Prod.mk.inj (Except.ok.inj h) with ⟨rfl, rfl⟩
        exact ⟨[], rfl, (List.append_nil c.msgs).symm⟩
      · rcases Run.bind_eq_ok h with ⟨c₁, hone, hrest⟩
        rcases ih hrest with ⟨consumed, rfl, hmsgs⟩
        refine ⟨ev :: consumed, rfl, ?_⟩
        have hev : c₁.msgs = c.msgs ++ received [ev] := by
          cases ev with
          | none =>
              -- a failed receive adds nothing
              obtain rfl := Except.ok.inj hone
              exact (List.append_nil _).symm
          | some raw =>
              -- `collectEvent` and `received` tell the messages apart by the same two sizes
              unfold received
              by_cases h8 : raw.length = RoundEnd.codec.size
              · simp only [collectEvent, if_pos h8] at hone
                obtain rfl := Except.ok.inj hone
                simp [h8]
              by_cases h160 : raw.length = TxWithPubkey.codec.size
              · simp only [collectEvent, if_neg h8, if_pos h160] at hone
                split at hone
                · obtain rfl := Except.ok.inj hone
                  simp [h160]
                · cases hone
              · simp only [collectEvent, if_neg h8, if_neg h160] at hone
                obtain rfl := Except.ok.inj hone
                simp only [List.filterMap_cons, if_neg h8, if_neg h160, List.filterMap_nil,
                  List.append_nil]
        rw [hmsgs, hev, received_cons ev consumed, List.append_assoc]

theorem received_frames (frames : List Frame) : received (frames.map Frame.event) = txsOf frames := by
  have hone : ∀ f : Frame, received [f.event] = txsOf [f] := by
    intro f
    cases f with
    | failed => rfl
    | other raw h8 h160 =>
        simp only [received, txsOf, Frame.event, List.filterMap_cons, if_neg h8, if_neg h160]
        rfl
    | roundEnd e =>
        simp [received, txsOf, Frame.event, RoundEnd.codec.enc_length]
    | tx m =>
        simp [received, txsOf, Frame.event, TxWithPubkey.codec.enc_length,
          TxWithPubkey.codec.dec_enc_self]
  induction frames with
  | nil => rfl
  | cons f frames ih =>
      rw [List.map_cons, received_cons, txsOf_cons f frames, hone, ih]

/-! ## The summary of a round -/

theorem RoundFrames.pending (r : RoundFrames) :
    Pending r.msgs.length ⟨[], 0, false⟩ (r.before ++ [r.last]) := by
  refine ⟨Nat.zero_add _, Or.inr ⟨rfl, r.marker, r.ends, r.counted⟩, ?_⟩
  intro hne
  rw [List.getLast_concat]
  exact r.isMessage

/-- A worker summarises all transactions of the round and leaves what follows. -/
theorem processTransactions_round (crypto : Crypto) (shardId : UInt32)
    (schedule : (k : Nat) → Schedule k) (r : RoundFrames) (rest : List (Option Bytes))
    (hsmall : r.msgs.length < 2 ^ 31) :
    processTransactions crypto shardId schedule (r.events ++ rest) =
      .ok (summarise crypto shardId r.msgs, rest) := by
  rcases collect_frames (Nat.le_of_lt hsmall) rest (r.before ++ [r.last]) _ r.pending
    with ⟨c, hmsgs, hok⟩
  have hall : c.msgs = r.msgs := hmsgs
  rw [processTransactions_eq, RoundFrames.events, hok]
  simp only [hall, if_pos hsmall]

/-- Conversely a summary is that of the transactions consumed, fewer than `2^31`. -/
theorem processTransactions_consumed {crypto : Crypto} {shardId : UInt32}
    {schedule : (k : Nat) → Schedule k} {events rest : List (Option Bytes)} {s : ShardSummary}
    (h : processTransactions crypto shardId schedule events = .ok (s, rest)) :
    ∃ consumed, events = consumed ++ rest ∧ (received consumed).length < 2 ^ 31 ∧
      s = summarise crypto shardId (received consumed) := by
  rw [processTransactions_eq] at h
  cases hcollect : collect events ⟨[], 0, false⟩ with
  | error e =>
      rw [hcollect] at h
      cases h
  | ok out =>
      rcases out with ⟨c, rest'⟩
      rw [hcollect] at h
      simp only at h
      split at h
      · rename_i hsmall
        rcases Prod.mk.inj (Except.ok.inj h) with ⟨rfl, rfl⟩
        rcases collect_consumed events hcollect with ⟨consumed, hevents, hmsgs⟩
        have hall : c.msgs = received consumed := hmsgs
        rw [hall] at hsmall ⊢
        exact ⟨consumed, hevents, hsmall, rfl⟩
      · cases h

/-- `s` counts, sums and folds exactly the messages `msgs`. -/
structure Summarises (crypto : Crypto) (shardId : UInt32) (msgs : List TxWithPubkey)
    (s : ShardSummary) : Prop where
  shardId : s.shardId = shardId
  txCount : s.txCount.toNat = msgs.length
  totalFees : s.totalFees.toNat = (msgs.map fun m => m.tx.fee.toNat).sum
  merkleRoot : s.merkleRoot =
    merkleFold crypto (msgs.map fun m => transactionComputeHash crypto m.tx)

theorem fees_le (msgs : List TxWithPubkey) :
    (msgs.map fun m => m.tx.fee.toNat).sum ≤ msgs.length * 2 ^ 32 := by
  induction msgs with
  | nil => simp
  | cons m msgs ih =>
      have hfee := m.tx.fee.toNat_lt
      rw [List.map_cons, List.sum_cons, List.length_cons, Nat.succ_mul]
      omega

/-- The sum of at most `2^31` fees does not wrap around. -/
theorem fees_exact (msgs : List TxWithPubkey) (hsmall : msgs.length ≤ 2 ^ 31) :
    (msgs.map fun m : TxWithPubkey => m.tx.fee.toUInt64).sum.toNat =
      (msgs.map fun m => m.tx.fee.toNat).sum := by
  induction msgs with
  | nil => rfl
  | cons m msgs ih =>
      rw [List.length_cons] at hsmall
      have hrest := ih (by omega)
      have hle := fees_le msgs
      have hfee := m.tx.fee.toNat_lt
      have hbound : msgs.length * 2 ^ 32 ≤ 2 ^ 31 * 2 ^ 32 := Nat.mul_le_mul_right _ (by omega)
      rw [List.map_cons, List.map_cons, List.sum_cons, List.sum_cons, UInt64.toNat_add, hrest,
        UInt32.toNat_toUInt64]
      omega

theorem summarise_summarises (crypto : Crypto) (shardId : UInt32) (msgs : List TxWithPubkey)
    (hsmall : msgs.length < 2 ^ 31) :
    Summarises crypto shardId msgs (summarise crypto shardId msgs) := by
  refine ⟨rfl, ?_, fees_exact msgs (Nat.le_of_lt hsmall), rfl⟩
  exact UInt32.toNat_ofNat_of_lt' (by show msgs.length < 2 ^ 32; omega)

/-! ## A round in full -/

/-- Behind the receive loop the buffers hold the round, front to back, and the
socket is left with what follows it. -/
theorem recvLoop_round (r : RoundFrames) (hsmall : r.msgs.length < 2 ^ 31)
    (rest : List (Option Bytes)) :
    ∃ st, recvLoop (r.events ++ rest) recvInit = .ok (st, rest) ∧
      st.bufCount.toNat = r.msgs.length ∧
      st.txBuf.Holds (r.msgs.map TxWithPubkey.tx) ∧
      st.pubkeyBuf.Holds (r.msgs.map TxWithPubkey.pubkey) := by
  rcases collect_frames (Nat.le_of_lt hsmall) rest (r.before ++ [r.last]) _ r.pending
    with ⟨c, hmsgs, hcollect⟩
  have hall : c.msgs = r.msgs := hmsgs
  rcases recvLoop_collect (r.events ++ rest) recvInit_holding with
    ⟨e, -, herror⟩ | ⟨st, c', rest', hrecv, hcollect', h⟩
  · rw [RoundFrames.events, hcollect] at herror
    cases herror
  · rw [RoundFrames.events, hcollect] at hcollect'
    rcases Prod.mk.inj (Except.ok.inj hcollect') with ⟨rfl, rfl⟩
    refine ⟨st, hrecv, ?_, ?_, ?_⟩
    · rw [h.count, hall]
    · rw [← hall]
      exact h.txs
    · rw [← hall]
      exact h.pubkeys

/-- A worker takes its round and nothing behind it, its buffers lose nothing as
they grow, and the summary is the sequential one, whatever the threads do. -/
theorem round_summarised (crypto : Crypto) (shardId : UInt32) (schedule : (k : Nat) → Schedule k)
    (r : RoundFrames) (hsmall : r.msgs.length < 2 ^ 31) (rest : List (Option Bytes)) :
    (∃ st, recvLoop (r.events ++ rest) recvInit = .ok (st, rest) ∧
        st.bufCount.toNat = r.msgs.length ∧
        st.txBuf.read r.msgs.length = some (r.msgs.map TxWithPubkey.tx) ∧
        st.pubkeyBuf.read r.msgs.length = some (r.msgs.map TxWithPubkey.pubkey)) ∧
      ∃ s, processTransactions crypto shardId schedule (r.events ++ rest) = .ok (s, rest) ∧
        Summarises crypto shardId r.msgs s ∧ (r.msgs = [] → s.merkleRoot = zeros 32) := by
  constructor
  · rcases recvLoop_round r hsmall rest with ⟨st, hrecv, hcount, htxs, hkeys⟩
    refine ⟨st, hrecv, hcount, ?_, ?_⟩
    · simpa using htxs.read
    · simpa using hkeys.read
  · refine ⟨summarise crypto shardId r.msgs,
      processTransactions_round crypto shardId schedule r rest hsmall,
      summarise_summarises crypto shardId r.msgs hsmall, ?_⟩
    intro hnone
    rw [hnone]
    rfl

/-- A round whose marker comes first, then a failed receive and a foreign message. -/
def markerFirst : RoundFrames where
  before := [.roundEnd ⟨1, 1⟩, .failed, .other [0] (by decide) (by decide)]
  last := .tx ⟨⟨0, 0, zeros 20, zeros 20, 5, 9, zeros 64⟩, zeros 32⟩
  marker := ⟨1, 1⟩
  isMessage := rfl
  ends := rfl
  counted := rfl

theorem round_summarised_marker_first :
    (∃ st, recvLoop (markerFirst.events ++ [none]) recvInit = .ok (st, [none]) ∧
        st.bufCount.toNat = 1 ∧
        st.txBuf.read 1 = some (markerFirst.msgs.map TxWithPubkey.tx) ∧
        st.pubkeyBuf.read 1 = some (markerFirst.msgs.map TxWithPubkey.pubkey)) ∧
      ∃ s, processTransactions Crypto.rejecting 0 Schedule.sequential
          (markerFirst.events ++ [none]) = .ok (s, [none]) ∧
        Summarises Crypto.rejecting 0 markerFirst.msgs s ∧
        (markerFirst.msgs = [] → s.merkleRoot = zeros 32) :=
  round_summarised Crypto.rejecting 0 Schedule.sequential markerFirst (by decide) [none]

/-! ## Only verified transactions -/

/-- The messages whose transaction passes its check. -/
def verified (crypto : Crypto) (msgs : List TxWithPubkey) : List TxWithPubkey :=
  msgs.filter fun m => checkTx crypto m.tx m.pubkey

/-- The summary of a round is that of its verified transactions if and only if
all of them verify (and there are fewer than `2^31`). -/
theorem only_verified_iff (crypto : Crypto) (shardId : UInt32) (schedule : (k : Nat) → Schedule k)
    (r : RoundFrames) (rest : List (Option Bytes)) :
    (∃ s, processTransactions crypto shardId schedule (r.events ++ rest) = .ok (s, rest) ∧
        Summarises crypto shardId (verified crypto r.msgs) s) ↔
      r.msgs.length < 2 ^ 31 ∧ ∀ m ∈ r.msgs, checkTx crypto m.tx m.pubkey = true := by
  constructor
  · rintro ⟨s, hok, hs⟩
    rcases processTransactions_consumed hok with ⟨consumed, hevents, hsmall, rfl⟩
    -- what was consumed is the round
    have hconsumed : consumed = r.events := List.append_cancel_right hevents.symm
    rw [hconsumed, RoundFrames.events, received_frames] at hsmall hs
    have hcount := (summarise_summarises crypto shardId r.msgs hsmall).txCount.symm.trans hs.txCount
    refine ⟨hsmall, ?_⟩
    exact List.length_filter_eq_length_iff.mp hcount.symm
  · rintro ⟨hsmall, hall⟩
    have hverified : verified crypto r.msgs = r.msgs := List.filter_eq_self.mpr hall
    refine ⟨_, processTransactions_round crypto shardId schedule r rest hsmall, ?_⟩
    rw [hverified]
    exact summarise_summarises crypto shardId r.msgs hsmall

/-- A round of one transaction without key and signature. -/
def unsignedRound : RoundFrames where
  before := [.tx ⟨⟨0, 0, zeros 20, zeros 20, 5, 9, zeros 64⟩, zeros 32⟩]
  last := .roundEnd ⟨1, 1⟩
  marker := ⟨1, 1⟩
  isMessage := rfl
  ends := rfl
  counted := rfl

/-- It fails its check and is counted all the same. -/
theorem unsigned_counted :
    ¬ ∃ s, processTransactions Crypto.rejecting 0 Schedule.sequential (unsignedRound.events ++ []) =
        .ok (s, []) ∧ Summarises Crypto.rejecting 0 (verified Crypto.rejecting unsignedRound.msgs) s := by
  rintro ⟨s, hok, hs⟩
  have hsmall : unsignedRound.msgs.length < 2 ^ 31 := by decide
  rw [processTransactions_round Crypto.rejecting 0 Schedule.sequential unsignedRound [] hsmall] at hok
  rcases Prod.mk.inj (Except.ok.inj hok) with ⟨rfl, -⟩
  have hnone : verified Crypto.rejecting unsignedRound.msgs = [] := by decide
  have hcount := hs.txCount
  rw [hnone] at hcount
  cases hcount

/-! ## The root as a commitment -/

/-- What the folding of `msgs` gives to `sha256`. -/
def foldInputs (crypto : Crypto) (msgs : List TxWithPubkey) : List Bytes :=
  HashChain.inputs crypto.sha256 combined (zeros 32)
    (msgs.map fun m => transactionComputeHash crypto m.tx)

/-- What the hashing of `msgs` gives to the truncated BLAKE3. -/
def hashInputs (msgs : List TxWithPubkey) : List Bytes := msgs.map fun m => hashBuffer m.tx

/-- The 60 bytes of a fold step determine both parts. -/
theorem combined_inj (d d' : Digest) (h h' : TxHash) (heq : combined d h = combined d' h') :
    d = d' ∧ h = h' := by
  rcases Codec.enc_append_inj (Codec.bytes 32) heq with ⟨hd, hh⟩
  exact ⟨hd, Codec.enc_injective (Codec.bytes 28) hh⟩

theorem sameContent_of_hashInputs (ms ns : List TxWithPubkey) (h : hashInputs ms = hashInputs ns) :
    List.Forall₂ (fun m n => SameContent m.tx n.tx) ms ns := by
  induction ms generalizing ns with
  | nil =>
      have hns : ns = [] := by simpa [hashInputs] using h.symm
      rw [hns]
      exact List.Forall₂.nil
  | cons m ms ih =>
      cases ns with
      | nil => cases h
      | cons n ns =>
          rcases List.cons.inj h with ⟨hhead, htail⟩
          exact List.Forall₂.cons (sameContent_of_hashBuffer hhead) (ih ns htail)

/-- Two runs of `process_transactions` with the same count and root consumed
transactions with the same contents, or two different inputs with equal outputs
are among those given to `sha256`, or to the truncated BLAKE3, in these runs. -/
theorem summary_commits {crypto : Crypto} {id₁ id₂ : UInt32}
    {schedule₁ schedule₂ : (k : Nat) → Schedule k}
    {events₁ events₂ rest₁ rest₂ : List (Option Bytes)} {s₁ s₂ : ShardSummary}
    (h₁ : processTransactions crypto id₁ schedule₁ events₁ = .ok (s₁, rest₁))
    (h₂ : processTransactions crypto id₂ schedule₂ events₂ = .ok (s₂, rest₂))
    (hcount : s₁.txCount = s₂.txCount) (hroot : s₁.merkleRoot = s₂.merkleRoot) :
    ∃ consumed₁ consumed₂, events₁ = consumed₁ ++ rest₁ ∧ events₂ = consumed₂ ++ rest₂ ∧
      (List.Forall₂ (fun m n => SameContent m.tx n.tx) (received consumed₁) (received consumed₂) ∨
        HashChain.Collision crypto.sha256
          (foldInputs crypto (received consumed₁) ++ foldInputs crypto (received consumed₂)) ∨
        HashChain.Collision (fun buf => crypto.blake3HashTruncated buf 28)
          (hashInputs (received consumed₁) ++ hashInputs (received consumed₂))) := by
  rcases processTransactions_consumed h₁ with ⟨consumed₁, hevents₁, hsmall₁, rfl⟩
  rcases processTransactions_consumed h₂ with ⟨consumed₂, hevents₂, hsmall₂, rfl⟩
  refine ⟨consumed₁, consumed₂, hevents₁, hevents₂, ?_⟩
  have hlen : (received consumed₁).length = (received consumed₂).length := by
    have hc₁ := (summarise_summarises crypto id₁ _ hsmall₁).txCount
    have hc₂ := (summarise_summarises crypto id₂ _ hsmall₂).txCount
    rw [← hc₁, ← hc₂, hcount]
  -- peel the fold: equal roots come from equal hashes
  have hfold := HashChain.chain_binding crypto.sha256 combined_inj (zeros 32)
    ((received consumed₁).map fun m : TxWithPubkey => transactionComputeHash crypto m.tx)
    ((received consumed₂).map fun m : TxWithPubkey => transactionComputeHash crypto m.tx)
    (by rw [List.length_map, List.length_map, hlen]) hroot
  rcases hfold with hhashes | hcol
  · -- and equal hashes from equal buffers
    rcases HashChain.map_binding (fun buf => crypto.blake3HashTruncated buf 28)
      (fun m : TxWithPubkey => hashBuffer m.tx) (received consumed₁) (received consumed₂) hhashes
      with hbufs | hcol
    · exact Or.inl (sameContent_of_hashInputs _ _ hbufs)
    · exact Or.inr (Or.inr hcol)
  · exact Or.inr (Or.inl hcol)

/-- The same transaction, received after the marker and a failed receive. -/
def unsignedRoundLate : RoundFrames where
  before := [.failed, .roundEnd ⟨1, 1⟩]
  last := .tx ⟨⟨0, 0, zeros 20, zeros 20, 5, 9, zeros 64⟩, zeros 32⟩
  marker := ⟨1, 1⟩
  isMessage := rfl
  ends := rfl
  counted := rfl

theorem summary_commits_unsigned :
    ∃ consumed₁ consumed₂, unsignedRound.events ++ [] = consumed₁ ++ [] ∧
      unsignedRoundLate.events ++ [] = consumed₂ ++ [] ∧
      (List.Forall₂ (fun m n => SameContent m.tx n.tx) (received consumed₁) (received consumed₂) ∨
        HashChain.Collision Crypto.rejecting.sha256
          (foldInputs Crypto.rejecting (received consumed₁) ++
            foldInputs Crypto.rejecting (received consumed₂)) ∨
        HashChain.Collision (fun buf => Crypto.rejecting.blake3HashTruncated buf 28)
          (hashInputs (received consumed₁) ++ hashInputs (received consumed₂))) :=
  summary_commits
    (processTransactions_round Crypto.rejecting 0 Schedule.sequential unsignedRound [] (by decide))
    (processTransactions_round Crypto.rejecting 1 Schedule.sequential unsignedRoundLate []
      (by decide))
    rfl rfl

end Sharding
