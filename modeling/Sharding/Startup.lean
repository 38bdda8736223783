import Sharding.Lib.CInt
import Sharding.Submission

/-! # The command line of the receiver

The argument loop of the receiver's `main` admits up to 256 shards, as many as it
has nodes, while `shard_assigner_create` makes at most 64 of them and its null
pointer is not looked at. A configuration with more shards therefore runs until
the first dispatch is due, and no further.
-/

namespace Sharding

/-- `isspace` -/
def isSpace (c : Char) : Bool := [' ', '\t', '\n', '\x0b', '\x0c', '\r'].contains c

/-- `strtol` with base 10: saturated to a `long`. -/
def strtol (nptr : List Char) : Int :=
  let (negative, digits) :=
    match nptr.dropWhile isSpace with
    | '-' :: cs => (true, cs)
    | '+' :: cs => (false, cs)
    | cs => (false, cs)
  let value : Int := (digits.takeWhile Char.isDigit).foldl
    (fun n c => 10 * n + (c.toNat - 48 : Nat)) 0
  max (-(2 ^ 63)) (min (2 ^ 63 - 1) (if negative then -value else value))

/-- `atoi` -/
def atoi (nptr : List Char) : Int := CInt.wrap 32 (strtol nptr)

/-- The globals that the argument loop sets, and `bind_addr`. -/
structure Options where
  bindAddr : List Char
  sleepMs : UInt32
  cfg : Config

/-- The initial values of the globals. -/
def defaultOptions : Options := ⟨"tcp://*:5557".toList, 0, defaultConfig⟩

/-- Accept `--num-shards`. -/
def setNumShards (o : Options) (n : Int) : Option Options :=
  if h : n < 1 ∨ n > maxNodes then none
  else some { o with
    cfg := { o.cfg with
      numShards := n.toNat
      numShards_pos := by omega
      numShards_le := by omega } }

theorem atoi_lt (nptr : List Char) : atoi nptr < 2 ^ 31 := (CInt.wrap_fits _).2

/-- Accept `--block-size`. -/
def setBlockSize (o : Options) (value : List Char) : Option Options :=
  if h : atoi value < 1 then none
  else some { o with
    cfg := { o.cfg with
      blockSize := (atoi value).toNat
      blockSize_pos := by omega
      blockSize_le := by
        have := atoi_lt value
        omega } }

/-- The argument loop over `argv[1]` and its successors: `none` is `return 1`. An
option at the end that lacks its value is passed over, as is anything unknown. -/
def parseArgs : List (List Char) → Options → Option Options
  | [], o => some o
  | [arg], o =>
      if arg = "--verify".toList then some { o with cfg := { o.cfg with verify := true } }
      else some o
  | arg :: value :: rest, o =>
      if arg = "--bind".toList then parseArgs rest { o with bindAddr := value }
      else if arg = "--sleep-ms".toList then
        parseArgs rest { o with sleepMs := UInt32.ofInt (atoi value) }
      else if arg = "--verify".toList then
        parseArgs (value :: rest) { o with cfg := { o.cfg with verify := true } }
      else if arg = "--num-shards".toList then
        match setNumShards o (atoi value) with
        | none => none
        | some o => parseArgs rest o
      else if arg = "--block-size".toList then
        match setBlockSize o value with
        | none => none
        | some o => parseArgs rest o
      else parseArgs (value :: rest) o

/-! ## How far an accepted configuration runs -/

/-- How many transactions of the messages the receiver tries to add. -/
def passingTotal (cfg : Config) (crypto : Crypto) (arrivals : List Arrival) : Nat :=
  (arrivals.map fun a => passing cfg crypto a.incoming).sum

/-- With an assigner the receiver runs over any messages. -/
theorem run_assigned {cfg : Config} (hle : cfg.numShards ≤ maxShards) (crypto : Crypto)
    (arrivals : List Arrival) {r : Receiver} (hshape : ReceiverShape cfg r) :
    ∃ r', Run.run (receiverStep cfg crypto) r arrivals = .ok r' := by
  have hstep : ∀ r a, ReceiverShape cfg r →
      ∃ r', receiverStep cfg crypto r a = .ok r' ∧ ReceiverShape cfg r' := by
    intro r a hshape
    have hsurvives : Survives cfg crypto r a := Or.inl hle
    rcases receive_survives hshape hsurvives with ⟨r', reply, hok, hshape'⟩
    exact ⟨r', by rw [receiverStep, hok, Run.ok_bind], hshape'⟩
  rcases Run.run_inv (ReceiverShape cfg) hstep arrivals r hshape with ⟨r', hrun, -⟩
  exact ⟨r', hrun⟩

/-- Without one it runs as long as the pool stays below the block size. -/
theorem run_unassigned_iff {cfg : Config} (hbig : ¬ cfg.numShards ≤ maxShards) (crypto : Crypto)
    (arrivals : List Arrival) (r : Receiver) (hshape : ReceiverShape cfg r) :
    (∃ r', Run.run (receiverStep cfg crypto) r arrivals = .ok r') ↔
      min (r.core.pool.count + passingTotal cfg crypto arrivals) r.core.pool.capacity <
        cfg.blockSize := by
  induction arrivals generalizing r with
  | nil =>
      have hwait := hshape.waiting
      refine ⟨fun _ => ?_, fun _ => ⟨r, rfl⟩⟩
      have hle := r.core.pool.count_le
      show min (r.core.pool.count + 0) r.core.pool.capacity < cfg.blockSize
      omega
  | cons a arrivals ih =>
      have htotal : passingTotal cfg crypto (a :: arrivals) =
          passing cfg crypto a.incoming + passingTotal cfg crypto arrivals := by
        simp [passingTotal]
      have hpooled : pooled cfg crypto r a =
          min (r.core.pool.count + passing cfg crypto a.incoming) r.core.pool.capacity := rfl
      rw [htotal]
      by_cases hsmall : pooled cfg crypto r a < cfg.blockSize
      · -- no block is due: the pool grows, and the rest runs from there
        rcases receive_waits hshape hbig hsmall with ⟨r', reply, hok, hshape', hcount, hcap⟩
        have hone : receiverStep cfg crypto r a = .ok r' := by rw [receiverStep, hok, Run.ok_bind]
        have hrest := ih r' hshape'
        rw [hcount, hcap, hpooled] at hrest
        rw [Run.run, hone]
        exact hrest.trans (by omega)
      · -- the first dispatch is due, and there is nobody to make it
        refine ⟨?_, fun hfits => absurd hfits (by omega)⟩
        rintro ⟨r', hrun⟩
        rw [Run.run] at hrun
        cases hone : receiverStep cfg crypto r a with
        | error e =>
            rw [hone] at hrun
            cases hrun
        | ok r₁ =>
            rcases Run.bind_eq_ok hone with ⟨res, hok, -⟩
            exact absurd ((survives_of_receive hshape hok).resolve_left hbig) hsmall

/-- The receiver starts with `cfg` and handles the messages without a fault. -/
def RunsSafely (cfg : Config) (crypto : Crypto) (rand : Rand) (arrivals : List Arrival) : Prop :=
  ∃ r₀ r, receiverInit cfg rand = .ok r₀ ∧ Run.run (receiverStep cfg crypto) r₀ arrivals = .ok r

theorem runsSafely_iff (cfg : Config) (crypto : Crypto) (rand : Rand) (arrivals : List Arrival) :
    RunsSafely cfg crypto rand arrivals ↔ cfg.numShards ≤ maxShards ∨
      min (passingTotal cfg crypto arrivals) mempoolMaxSize < cfg.blockSize := by
  rcases receiverInit_shape cfg rand with ⟨r₀, hinit, hcore, hshape⟩
  have hfirst : RunsSafely cfg crypto rand arrivals ↔
      ∃ r, Run.run (receiverStep cfg crypto) r₀ arrivals = .ok r := by
    constructor
    · rintro ⟨r₁, r, hinit₁, hrun⟩
      obtain rfl : r₀ = r₁ := Except.ok.inj (hinit.symm.trans hinit₁)
      exact ⟨r, hrun⟩
    · rintro ⟨r, hrun⟩
      exact ⟨r₀, r, hinit, hrun⟩
  rw [hfirst]
  by_cases hle : cfg.numShards ≤ maxShards
  · exact ⟨fun _ => Or.inl hle, fun _ => run_assigned hle crypto arrivals hshape⟩
  · -- without an assigner the run goes on until a block is due
    have hcount : r₀.core.pool.count = 0 := by
      rw [hcore]
      rfl
    have hcap : r₀.core.pool.capacity = mempoolMaxSize := by
      rw [hcore]
      rfl
    have hiff := run_unassigned_iff hle crypto arrivals r₀ hshape
    rw [hcount, hcap, Nat.zero_add] at hiff
    exact hiff.trans ⟨Or.inr, fun h => h.resolve_left hle⟩

/-- An accepted command line is safe to run over the given messages exactly if there
is an assigner, or the messages never make a block due. -/
theorem accepted_safe_iff (argv : List (List Char)) (crypto : Crypto) (rand : Rand)
    (arrivals : List Arrival) :
    ∀ o, parseArgs argv defaultOptions = some o →
      (RunsSafely o.cfg crypto rand arrivals ↔ o.cfg.numShards ≤ maxShards ∨
        min (passingTotal o.cfg crypto arrivals) mempoolMaxSize < o.cfg.blockSize) :=
  fun o _ => runsSafely_iff o.cfg crypto rand arrivals

/-- `--num-shards 65 --block-size n` -/
def manyShards (n : String) : List (List Char) :=
  ["--num-shards", "65", "--block-size", n].map String.toList

/-- The options after `manyShards "300"`. -/
def waitingOptions : Options :=
  { defaultOptions with cfg := ⟨65, 300, false, by decide, by decide, by decide, by decide⟩ }

/-- The options after `manyShards "1"`. -/
def eagerOptions : Options :=
  { defaultOptions with cfg := ⟨65, 1, false, by decide, by decide, by decide, by decide⟩ }

theorem accepted_safe_iff_waiting :
    RunsSafely waitingOptions.cfg Crypto.rejecting ⟨fun _ => 0, 0⟩ [fullBatch] ↔
      waitingOptions.cfg.numShards ≤ maxShards ∨
        min (passingTotal waitingOptions.cfg Crypto.rejecting [fullBatch]) mempoolMaxSize <
          waitingOptions.cfg.blockSize :=
  accepted_safe_iff (manyShards "300") Crypto.rejecting ⟨fun _ => 0, 0⟩ [fullBatch]
    waitingOptions rfl

/-- 65 shards are accepted, and the first block due finds no assigner. -/
theorem many_shards_fault :
    parseArgs (manyShards "1") defaultOptions = some eagerOptions ∧
      ¬ RunsSafely eagerOptions.cfg Crypto.rejecting ⟨fun _ => 0, 0⟩ [fullBatch] := by
  refine ⟨rfl, ?_⟩
  rw [runsSafely_iff]
  have htotal : passingTotal eagerOptions.cfg Crypto.rejecting [fullBatch] = 256 := by
    have htxs : fullBatch.incoming.txs = List.replicate 256 ⟨0, 0, [], [], 0, 0, [], []⟩ := rfl
    simp only [passingTotal, passing, List.map_cons, List.map_nil, htxs, List.countP_replicate]
    rfl
  rw [htotal]
  decide

end Sharding
