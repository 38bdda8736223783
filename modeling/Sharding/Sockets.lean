import Sharding.Lib.CInt
import Sharding.Lib.CText
import Sharding.Lib.Run
import Sharding.Assigner

/-! # The sockets of the processes

The queues of a cluster are sockets that found each other by the texts of their
addresses. The receiver counts the ports up from 5560, one for each of its shards, and a
worker computes the ports of the leader from its own `--num-shards`. Both are told
separately, and the defaults differ. `channels_wired_iff` says when what was started
forms the channels that the protocol is about.
-/

namespace Sharding

open CText

/-! ## Sockets and addresses -/

/-- The types of sockets. -/
inductive SocketType where
  | rep
  | req
  | push
  | pull
  | pub
  | sub
deriving DecidableEq

/-- A socket variable, of the process that is numbered where there are several. -/
inductive SocketName where
  | rep
  | pushSocks (i : Nat)
  | doneSock
  | pullTx (shardId : Nat)
  | pub
  | pullResults
  | pullDone
  | sub (shardId : Nat)
  | push (shardId : Nat)
  | threadSocks (t : Nat)
deriving DecidableEq

/-- An open socket, and what it was bound or connected to. -/
structure Socket where
  name : SocketName
  type : SocketType
  bound : Bool
  addr : Bytes
deriving DecidableEq

inductive SocketFault where
  | overflow
deriving DecidableEq

/-- "tcp://" -/
def tcp : Bytes := [116, 99, 112, 58, 47, 47]

/-- "localhost" -/
def localhost : Bytes := [108, 111, 99, 97, 108, 104, 111, 115, 116]

/-- "*" -/
def anyHost : Bytes := [42]

/-- ':' -/
def colon : UInt8 := 58

/-- `snprintf` with "tcp://%s:" and the digits of a port into 64 characters. -/
def addrText (host digits : Bytes) : Bytes := (tcp ++ (host ++ colon :: digits)).take 63

/-- `%d` -/
def printInt (x : Int) : Bytes := if x < 0 then 45 :: decimal x.natAbs else decimal x.natAbs

/-- Host and port of an address. -/
def endpoint (addr : Bytes) : Bytes × Nat :=
  let rest := addr.drop 6
  (rest.takeWhile (· != colon), digitsValue ((rest.dropWhile (· != colon)).drop 1))

/-! ## What is opened -/

/-- `DEFAULT_BIND` -/
def defaultBind : Bytes := addrText anyHost (decimal 5557)

/-- `DEFAULT_CONNECT` -/
def defaultConnect : Bytes := addrText localhost (decimal 5557)

/-- `SHARD_BASE_PORT` -/
def shardBasePort : UInt32 := 5560

/-- `shard_assigner_create` -/
def assignerSockets (sa : ShardAssigner) : List Socket :=
  (List.range sa.numShards).map (fun i =>
    ⟨.pushSocks i, .push, false,
      addrText localhost (decimal (shardBasePort + UInt32.ofNat i).toNat)⟩) ++
  [⟨.doneSock, .push, false,
    addrText localhost (decimal (shardBasePort + UInt32.ofNat sa.numShards + 2).toNat)⟩]

/-- The receiver; a null pointer for an assigner goes unnoticed. -/
def receiverSockets (numShards : Nat) : List Socket :=
  ⟨.rep, .rep, true, defaultBind⟩ ::
    match shardAssignerCreate numShards with
    | none => []
    | some sa => assignerSockets sa

/-- `BASE_TX_PORT` -/
def baseTxPort : Int := 5560

/-- The result of `int` arithmetic. -/
def portSum (x y : Int) : Except SocketFault Int := CInt.checked .overflow 32 (x + y)

/-- `LEADER_PUB_PORT` -/
def leaderPubPort (n : Int) : Except SocketFault Int := portSum baseTxPort n

/-- `LEADER_RESULT_PORT` -/
def leaderResultPort (n : Int) : Except SocketFault Int :=
  portSum baseTxPort n >>= fun port => portSum port 1

/-- `DISPATCH_DONE_PORT` -/
def dispatchDonePort (n : Int) : Except SocketFault Int :=
  portSum baseTxPort n >>= fun port => portSum port 2

/-- `run_leader` -/
def leaderSockets (shardId : Nat) (txPort numShards : Int) : Except SocketFault (List Socket) := do
  let pubPort ← leaderPubPort numShards
  let resultsPort ← leaderResultPort numShards
  let donePort ← dispatchDonePort numShards
  .ok [⟨.pullTx shardId, .pull, true, addrText anyHost (printInt txPort)⟩,
    ⟨.pub, .pub, true, addrText anyHost (printInt pubPort)⟩,
    ⟨.pullResults, .pull, true, addrText anyHost (printInt resultsPort)⟩,
    ⟨.pullDone, .pull, true, addrText anyHost (printInt donePort)⟩]

/-- `run_follower` -/
def followerSockets (shardId : Nat) (txPort numShards : Int) :
    Except SocketFault (List Socket) := do
  let pubPort ← leaderPubPort numShards
  let resultsPort ← leaderResultPort numShards
  .ok [⟨.pullTx shardId, .pull, true, addrText anyHost (printInt txPort)⟩,
    ⟨.sub shardId, .sub, false, addrText localhost (printInt pubPort)⟩,
    ⟨.push shardId, .push, false, addrText localhost (printInt resultsPort)⟩]

/-- The `main` of a worker, behind its argument loop. -/
def workerSockets (shardId : Nat) (port numShards : Int) : Except SocketFault (List Socket) :=
  if shardId = 0 then leaderSockets shardId port numShards
  else followerSockets shardId port numShards

/-- The generator: one socket a thread. -/
def generatorSockets (numThreads : Nat) : List Socket :=
  (List.range numThreads).map fun t => ⟨.threadSocks t, .req, false, defaultConnect⟩

/-- The next worker, on its port from 5560 on. -/
def launchWorker (workerShards : Nat) (sockets : List Socket) (shardId : Nat) :
    Except SocketFault (List Socket) := do
  let opened ← workerSockets shardId (baseTxPort + shardId) workerShards
  .ok (sockets ++ opened)

/-- A receiver for `receiverShards` shards, `workerShards` workers that were told their
number, and a generator. -/
def launch (receiverShards workerShards numThreads : Nat) : Except SocketFault (List Socket) := do
  let workers ← Run.run (launchWorker workerShards) [] (List.range workerShards)
  .ok (receiverSockets receiverShards ++ workers ++ generatorSockets numThreads)

/-! ## Channels -/

/-- What is connected to what, in the protocol. -/
def Channel : SocketName → SocketName → Prop
  | .pushSocks i, .pullTx shardId => i = shardId
  | .doneSock, .pullDone => True
  | .sub _, .pub => True
  | .push _, .pullResults => True
  | .threadSocks _, .rep => True
  | _, _ => False

/-- The types of sockets that talk to each other. -/
def Peers : SocketType → SocketType → Prop
  | .req, .rep => True
  | .push, .pull => True
  | .sub, .pub => True
  | _, _ => False

/-- `c` was connected to the port that `b` was bound to. -/
structure Linked (c b : Socket) : Prop where
  connects : c.bound = false
  binds : b.bound = true
  host : (endpoint c.addr).1 = localhost ∧ (endpoint b.addr).1 = anyHost
  port : (endpoint c.addr).2 = (endpoint b.addr).2

/-- The sockets find each other as the protocol needs it. -/
structure Wired (sockets : List Socket) : Prop where
  /-- No bind fails: no port is taken. -/
  free : ∀ a ∈ sockets, ∀ b ∈ sockets, a.bound = true → b.bound = true →
    (endpoint a.addr).2 = (endpoint b.addr).2 → a = b
  linked : ∀ c ∈ sockets, ∀ b ∈ sockets, Linked c b ↔ Channel c.name b.name
  peers : ∀ c ∈ sockets, ∀ b ∈ sockets, Linked c b → Peers c.type b.type
  /-- Every connect has a peer. -/
  reached : ∀ c ∈ sockets, c.bound = false → ∃ b ∈ sockets, Linked c b
  /-- Every worker has somebody who sends it transactions. -/
  fed : ∀ b ∈ sockets, ∀ shardId, b.name = .pullTx shardId → ∃ c ∈ sockets, Linked c b

/-! ## The table of all sockets -/

def SocketName.bound : SocketName → Bool
  | .rep | .pullTx _ | .pub | .pullResults | .pullDone => true
  | .pushSocks _ | .doneSock | .sub _ | .push _ | .threadSocks _ => false

def SocketName.type : SocketName → SocketType
  | .rep => .rep
  | .pushSocks _ | .doneSock | .push _ => .push
  | .pullTx _ | .pullResults | .pullDone => .pull
  | .pub => .pub
  | .sub _ => .sub
  | .threadSocks _ => .req

section Table

variable (receiverShards workerShards numThreads : Nat)

/-- The port of a socket. -/
def portOf : SocketName → Nat
  | .rep | .threadSocks _ => 5557
  | .pushSocks i => 5560 + i
  | .doneSock => 5560 + receiverShards + 2
  | .pullTx shardId => 5560 + shardId
  | .pub | .sub _ => 5560 + workerShards
  | .pullResults | .push _ => 5560 + workerShards + 1
  | .pullDone => 5560 + workerShards + 2

/-- The sockets that there are. -/
def Present : SocketName → Prop
  | .rep | .pub | .pullResults | .pullDone => True
  | .pushSocks i => receiverShards ≤ maxShards ∧ i < receiverShards
  | .doneSock => receiverShards ≤ maxShards
  | .pullTx shardId => shardId < workerShards
  | .sub shardId | .push shardId => 1 ≤ shardId ∧ shardId < workerShards
  | .threadSocks t => t < numThreads

/-- A socket as it is opened. -/
def socketOf (name : SocketName) : Socket where
  name := name
  type := name.type
  bound := name.bound
  addr := addrText (if name.bound then anyHost else localhost)
    (decimal (portOf receiverShards workerShards name))

end Table

theorem endpoint_addrText {host : Bytes} (hcolon : colon ∉ host) (hhost : host.length ≤ 9) {p : Nat}
    (hp : p < 10 ^ 10) : endpoint (addrText host (decimal p)) = (host, p) := by
  have hdigits : (decimal p).length ≤ 9 + 1 := decimal_length_le hp
  have hfits : addrText host (decimal p) = tcp ++ (host ++ colon :: decimal p) := by
    apply List.take_of_length_le
    rw [List.length_append, List.length_append, List.length_cons]
    show 6 + _ ≤ 63
    omega
  have hdrop : (addrText host (decimal p)).drop 6 = host ++ colon :: decimal p := by
    rw [hfits]
    exact List.drop_left' rfl
  have hall : ∀ c ∈ host, (c != colon) = true := by
    intro c hc
    rw [bne_iff_ne]
    rintro rfl
    exact hcolon hc
  have htake : (colon :: decimal p).takeWhile (· != colon) = [] :=
    List.takeWhile_cons_of_neg (by decide)
  have hrest : (colon :: decimal p).dropWhile (· != colon) = colon :: decimal p :=
    List.dropWhile_cons_of_neg (by decide)
  unfold endpoint
  rw [hdrop]
  simp only [List.takeWhile_append_of_pos hall, List.dropWhile_append_of_pos hall, htake, hrest,
    List.append_nil, List.drop_succ_cons, List.drop_zero, digitsValue_decimal]

section Launch

variable {receiverShards workerShards numThreads : Nat}

theorem printInt_ofNat (p : Nat) : printInt (p : Int) = decimal p := by
  have hpos : ¬ (p : Int) < 0 := by omega
  rw [printInt, if_neg hpos, Int.natAbs_natCast]

theorem portSum_ok {x y : Int} (hlow : 0 ≤ x + y) (hhigh : x + y ≤ 2147483647) :
    portSum x y = .ok (x + y) :=
  CInt.checked_ok (CInt.fits_int.mpr (by omega))

/-- What a worker opens. -/
def workerTable (shardId : Nat) : List SocketName :=
  if shardId = 0 then [.pullTx shardId, .pub, .pullResults, .pullDone]
  else [.pullTx shardId, .sub shardId, .push shardId]

theorem workerSockets_ok (hint : workerShards + 5562 ≤ 2147483647) (shardId : Nat) :
    workerSockets shardId (baseTxPort + shardId) workerShards =
      .ok ((workerTable shardId).map (socketOf receiverShards workerShards)) := by
  have hbase : portSum baseTxPort workerShards = .ok (5560 + workerShards : Nat) := by
    rw [portSum_ok (by rw [baseTxPort]; omega) (by rw [baseTxPort]; omega), baseTxPort]
    rfl
  have hpub : leaderPubPort workerShards = .ok (5560 + workerShards : Nat) := hbase
  have hresults : leaderResultPort workerShards = .ok (5560 + workerShards + 1 : Nat) := by
    rw [leaderResultPort, hbase, Run.ok_bind, portSum_ok (by omega) (by omega)]
    rfl
  have hdone : dispatchDonePort workerShards = .ok (5560 + workerShards + 2 : Nat) := by
    rw [dispatchDonePort, hbase, Run.ok_bind, portSum_ok (by omega) (by omega)]
    rfl
  have htx : baseTxPort + (shardId : Int) = (5560 + shardId : Nat) := by
    rw [baseTxPort]
    omega
  unfold workerSockets workerTable
  rw [htx]
  by_cases h0 : shardId = 0
  · rw [if_pos h0, if_pos h0, leaderSockets, hpub, hresults, hdone]
    simp only [Run.ok_bind, printInt_ofNat]
    rfl
  · rw [if_neg h0, if_neg h0, followerSockets, hpub, hresults]
    simp only [Run.ok_bind, printInt_ofNat]
    rfl

theorem receiverSockets_eq (hpos : 1 ≤ receiverShards) :
    receiverSockets receiverShards =
      (SocketName.rep :: if receiverShards ≤ maxShards then
        (List.range receiverShards).map .pushSocks ++ [.doneSock] else []).map
        (socketOf receiverShards workerShards) := by
  unfold receiverSockets shardAssignerCreate
  by_cases hle : receiverShards ≤ maxShards
  · have hsmall : receiverShards ≤ 64 := hle
    have hword : UInt32.size = 4294967296 := rfl
    have hport : ∀ i, i < receiverShards →
        (shardBasePort + UInt32.ofNat i).toNat = 5560 + i := by
      intro i hi
      rw [UInt32.toNat_add, UInt32.toNat_ofNat_of_lt' (by omega)]
      show (5560 + i) % 2 ^ 32 = 5560 + i
      omega
    have hdone : (shardBasePort + UInt32.ofNat receiverShards + 2).toNat =
        5560 + receiverShards + 2 := by
      rw [UInt32.toNat_add, UInt32.toNat_add, UInt32.toNat_ofNat_of_lt' (by omega)]
      show ((5560 + receiverShards) % 2 ^ 32 + 2) % 2 ^ 32 = 5560 + receiverShards + 2
      omega
    have hcond : ¬ (receiverShards = 0 ∨ receiverShards > maxShards) := by omega
    rw [dif_neg hcond, if_pos hle]
    simp only [assignerSockets, hdone, List.map_cons, List.map_append, List.map_map, List.map_nil]
    refine congrArg _ (congrArg (· ++ _) (List.map_congr_left ?_))
    intro i hi
    rw [hport i (List.mem_range.mp hi)]
    rfl
  · have hcond : receiverShards = 0 ∨ receiverShards > maxShards := by omega
    rw [dif_pos hcond, if_neg hle]
    rfl

theorem launchWorkers_ok (hint : workerShards + 5562 ≤ 2147483647) (n : Nat) :
    Run.run (launchWorker workerShards) [] (List.range n) =
      .ok (((List.range n).flatMap workerTable).map (socketOf receiverShards workerShards)) := by
  have hstep : ∀ shardId sockets,
      sockets = ((List.range shardId).flatMap workerTable).map
        (socketOf receiverShards workerShards) →
      ∃ sockets', launchWorker workerShards sockets shardId = .ok sockets' ∧
        sockets' = ((List.range (shardId + 1)).flatMap workerTable).map
          (socketOf receiverShards workerShards) := by
    rintro shardId _ rfl
    refine ⟨_, ?_, rfl⟩
    rw [launchWorker, workerSockets_ok hint, Run.ok_bind, List.range_succ, List.flatMap_append,
      List.map_append, List.flatMap_singleton]
  rcases Run.run_range_inv _ hstep n [] rfl with ⟨sockets, hrun, rfl⟩
  exact hrun

/-- The names of the sockets that are opened. -/
def launchTable (receiverShards workerShards numThreads : Nat) : List SocketName :=
  (.rep :: if receiverShards ≤ maxShards then
    (List.range receiverShards).map .pushSocks ++ [.doneSock] else []) ++
  (List.range workerShards).flatMap workerTable ++ (List.range numThreads).map .threadSocks

theorem launch_ok (hpos : 1 ≤ receiverShards) (hint : workerShards + 5562 ≤ 2147483647) :
    launch receiverShards workerShards numThreads =
      .ok ((launchTable receiverShards workerShards numThreads).map
        (socketOf receiverShards workerShards)) := by
  rw [launch, launchWorkers_ok hint, Run.ok_bind, receiverSockets_eq hpos, launchTable,
    List.map_append, List.map_append, generatorSockets, List.map_map]
  rfl

/-- What a worker opens: its own sockets, and the leader those of the round. -/
theorem mem_workerTable {shardId : Nat} {name : SocketName} :
    name ∈ workerTable shardId ↔ name = .pullTx shardId ∨
      (shardId = 0 ∧ (name = .pub ∨ name = .pullResults ∨ name = .pullDone)) ∨
      (1 ≤ shardId ∧ (name = .sub shardId ∨ name = .push shardId)) := by
  unfold workerTable
  by_cases h0 : shardId = 0
  · simp [h0]
  · have hpos : 1 ≤ shardId := Nat.pos_of_ne_zero h0
    simp [h0, hpos]

theorem mem_workers {name : SocketName} :
    name ∈ (List.range workerShards).flatMap workerTable ↔
      ∃ shardId < workerShards, name = .pullTx shardId ∨
        (shardId = 0 ∧ (name = .pub ∨ name = .pullResults ∨ name = .pullDone)) ∨
        (1 ≤ shardId ∧ (name = .sub shardId ∨ name = .push shardId)) := by
  simp only [List.mem_flatMap, List.mem_range, mem_workerTable]

theorem mem_receiver {name : SocketName} :
    (name ∈ SocketName.rep :: if receiverShards ≤ maxShards then
        (List.range receiverShards).map .pushSocks ++ [.doneSock] else []) ↔
      name = .rep ∨ (receiverShards ≤ maxShards ∧
        ((∃ i < receiverShards, name = .pushSocks i) ∨ name = .doneSock)) := by
  by_cases hle : receiverShards ≤ maxShards
  · simp [hle, eq_comm]
  · simp [hle]

/-- Exactly these sockets are opened. -/
theorem mem_launchTable (hworkers : 1 ≤ workerShards) {name : SocketName} :
    name ∈ launchTable receiverShards workerShards numThreads ↔
      Present receiverShards workerShards numThreads name := by
  have hthreads : name ∈ (List.range numThreads).map .threadSocks ↔
      ∃ t < numThreads, name = .threadSocks t := by
    simp [eq_comm]
  rw [launchTable, List.mem_append, List.mem_append, mem_receiver, mem_workers, hthreads]
  cases name <;> simp [Present] <;> omega

/-- What the texts say: hosts are as they were meant, and so are ports. -/
theorem endpoint_socketOf (hint : workerShards + 5562 ≤ 2147483647) {name : SocketName}
    (hopened : Present receiverShards workerShards numThreads name) :
    endpoint (socketOf receiverShards workerShards name).addr =
      (if name.bound then anyHost else localhost, portOf receiverShards workerShards name) := by
  have hshards : maxShards = 64 := rfl
  have hport : portOf receiverShards workerShards name < 10 ^ 10 := by
    cases name <;> simp only [Present] at hopened <;> simp only [portOf] <;> omega
  have hcolon : colon ∉ if name.bound then anyHost else localhost := by
    split <;> decide
  have hlen : (if name.bound then anyHost else localhost).length ≤ 9 := by
    split <;> decide
  exact endpoint_addrText hcolon hlen hport

theorem linked_iff (hint : workerShards + 5562 ≤ 2147483647) {x y : SocketName}
    (hx : Present receiverShards workerShards numThreads x)
    (hy : Present receiverShards workerShards numThreads y) :
    Linked (socketOf receiverShards workerShards x) (socketOf receiverShards workerShards y) ↔
      x.bound = false ∧ y.bound = true ∧
        portOf receiverShards workerShards x = portOf receiverShards workerShards y := by
  have hxaddr := endpoint_socketOf hint hx
  have hyaddr := endpoint_socketOf hint hy
  constructor
  · intro h
    have hport := h.port
    rw [hxaddr, hyaddr] at hport
    exact ⟨h.connects, h.binds, hport⟩
  · rintro ⟨hconnects, hbinds, hport⟩
    refine ⟨hconnects, hbinds, ?_, ?_⟩
    · rw [hxaddr, hyaddr, hconnects, hbinds]
      exact ⟨rfl, rfl⟩
    · rw [hxaddr, hyaddr]
      exact hport

/-- With equal numbers of shards the ports are those of the channels. -/
theorem channel_iff {shards : Nat} {x y : SocketName} (hx : Present shards shards numThreads x)
    (hy : Present shards shards numThreads y) :
    (x.bound = false ∧ y.bound = true ∧ portOf shards shards x = portOf shards shards y) ↔
      Channel x y := by
  cases x <;> cases y <;>
    simp only [Present, SocketName.bound, Channel, portOf, Bool.false_eq_true, Bool.true_eq_false,
      false_and, true_and, iff_false] at hx hy ⊢ <;>
    omega

/-- No two sockets are bound to one port. -/
theorem bound_inj {x y : SocketName} (hx : Present receiverShards workerShards numThreads x)
    (hy : Present receiverShards workerShards numThreads y) (hxbound : x.bound = true)
    (hybound : y.bound = true)
    (hport : portOf receiverShards workerShards x = portOf receiverShards workerShards y) :
    x = y := by
  cases x <;> cases y <;>
    simp only [Present, SocketName.bound, portOf, reduceCtorEq, SocketName.pullTx.injEq]
      at hx hy hxbound hybound hport ⊢ <;>
    omega

theorem channel_peers {x y : SocketName} (h : Channel x y) : Peers x.type y.type := by
  cases x <;> cases y <;> first
    | exact trivial
    | exact False.elim h

/-- With equal numbers of shards everything is wired. -/
theorem wired_of_eq {shards : Nat} (hpos : 1 ≤ shards) (hle : shards ≤ maxShards)
    (hint : shards + 5562 ≤ 2147483647) :
    Wired ((launchTable shards shards numThreads).map (socketOf shards shards)) := by
  have hopened : ∀ s ∈ (launchTable shards shards numThreads).map (socketOf shards shards),
      ∃ name, Present shards shards numThreads name ∧ s = socketOf shards shards name := by
    intro s hs
    rcases List.mem_map.mp hs with ⟨name, hname, rfl⟩
    exact ⟨name, (mem_launchTable hpos).mp hname, rfl⟩
  have hmem : ∀ {name}, Present shards shards numThreads name → socketOf shards shards name ∈
      (launchTable shards shards numThreads).map (socketOf shards shards) := by
    intro name hname
    exact List.mem_map_of_mem ((mem_launchTable hpos).mpr hname)
  have hlinked : ∀ {x y}, Present shards shards numThreads x → Present shards shards numThreads y →
      (Linked (socketOf shards shards x) (socketOf shards shards y) ↔ Channel x y) :=
    fun hx hy => (linked_iff hint hx hy).trans (channel_iff hx hy)
  constructor
  case free =>
    intro a ha b hb habound hbbound hport
    rcases hopened a ha with ⟨x, hx, rfl⟩
    rcases hopened b hb with ⟨y, hy, rfl⟩
    rw [endpoint_socketOf hint hx, endpoint_socketOf hint hy] at hport
    rw [bound_inj hx hy habound hbbound hport]
  case linked =>
    intro c hc b hb
    rcases hopened c hc with ⟨x, hx, rfl⟩
    rcases hopened b hb with ⟨y, hy, rfl⟩
    exact hlinked hx hy
  case peers =>
    intro c hc b hb hlink
    rcases hopened c hc with ⟨x, hx, rfl⟩
    rcases hopened b hb with ⟨y, hy, rfl⟩
    exact channel_peers ((hlinked hx hy).mp hlink)
  case reached =>
    intro c hc hconnects
    rcases hopened c hc with ⟨x, hx, rfl⟩
    have hpeer : ∃ y, Present shards shards numThreads y ∧ Channel x y := by
      cases x with
      | pushSocks i => exact ⟨.pullTx i, hx.2, rfl⟩
      | doneSock => exact ⟨.pullDone, trivial, trivial⟩
      | sub shardId => exact ⟨.pub, trivial, trivial⟩
      | push shardId => exact ⟨.pullResults, trivial, trivial⟩
      | threadSocks t => exact ⟨.rep, trivial, trivial⟩
      | rep => cases hconnects
      | pullTx shardId => cases hconnects
      | pub => cases hconnects
      | pullResults => cases hconnects
      | pullDone => cases hconnects
    rcases hpeer with ⟨y, hy, hchannel⟩
    exact ⟨_, hmem hy, (hlinked hx hy).mpr hchannel⟩
  case fed =>
    intro b hb shardId hname
    rcases hopened b hb with ⟨y, hy, rfl⟩
    obtain rfl : y = .pullTx shardId := hname
    have hx : Present shards shards numThreads (.pushSocks shardId) := ⟨hle, hy⟩
    exact ⟨_, hmem hx, (hlinked hx hy).mpr rfl⟩

/-- The notice that a dispatch is done finds the leader only with the right number, and
with too many shards nobody sends at all. -/
theorem eq_of_wired (hworkers : 1 ≤ workerShards) (hint : workerShards + 5562 ≤ 2147483647)
    (h : Wired ((launchTable receiverShards workerShards numThreads).map
      (socketOf receiverShards workerShards))) :
    receiverShards = workerShards ∧ receiverShards ≤ maxShards := by
  have hmem : ∀ {name}, Present receiverShards workerShards numThreads name →
      socketOf receiverShards workerShards name ∈
        (launchTable receiverShards workerShards numThreads).map
          (socketOf receiverShards workerShards) := by
    intro name hname
    exact List.mem_map_of_mem ((mem_launchTable hworkers).mpr hname)
  have hle : receiverShards ≤ maxShards := by
    have hzero : Present receiverShards workerShards numThreads (.pullTx 0) := hworkers
    rcases h.fed _ (hmem hzero) 0 rfl with ⟨c, hc, hlink⟩
    rcases List.mem_map.mp hc with ⟨x, hx, rfl⟩
    have hchannel := (h.linked _ hc _ (hmem hzero)).mp hlink
    have hopened := (mem_launchTable hworkers).mp hx
    cases x with
    | pushSocks i => exact hopened.1
    | _ => exact False.elim hchannel
  have hdone : Present receiverShards workerShards numThreads .doneSock := hle
  have hpull : Present receiverShards workerShards numThreads .pullDone := trivial
  have hlink := (h.linked _ (hmem hdone) _ (hmem hpull)).mpr trivial
  have hport := ((linked_iff hint hdone hpull).mp hlink).2.2
  simp only [portOf] at hport
  exact ⟨by omega, hle⟩

theorem portSum_eq {x y port : Int} (h : portSum x y = .ok port) :
    port = x + y ∧ x + y ≤ 2147483647 := by
  unfold portSum CInt.checked at h
  split at h
  · rename_i hfits
    exact ⟨(Except.ok.inj h).symm, (CInt.fits_int.mp hfits).2⟩
  · cases h

/-- With more workers the leader cannot even compute its ports. -/
theorem fits_of_launch (hworkers : 1 ≤ workerShards) {sockets : List Socket}
    (h : launch receiverShards workerShards numThreads = .ok sockets) :
    workerShards + 5562 ≤ 2147483647 := by
  rcases Run.bind_eq_ok h with ⟨workers, hrun, -⟩
  have hrange : List.range workerShards = 0 :: (List.range (workerShards - 1)).map Nat.succ := by
    rw [← List.range_succ_eq_map, Nat.sub_add_cancel hworkers]
  rw [hrange, Run.run] at hrun
  cases hone : launchWorker workerShards [] 0 with
  | error e =>
      rw [hone] at hrun
      cases hrun
  | ok first =>
      rcases Run.bind_eq_ok hone with ⟨opened, hleader, -⟩
      rw [workerSockets, if_pos rfl, leaderSockets] at hleader
      rcases Run.bind_eq_ok hleader with ⟨pubPort, -, hleader⟩
      rcases Run.bind_eq_ok hleader with ⟨resultsPort, -, hleader⟩
      rcases Run.bind_eq_ok hleader with ⟨donePort, hdone, -⟩
      rcases Run.bind_eq_ok hdone with ⟨port, hport, hdone⟩
      have hsum := (portSum_eq hport).1
      have hle := (portSum_eq hdone).2
      rw [hsum, baseTxPort] at hle
      omega

end Launch

/-- The receiver is told one number of shards and the workers another. Whatever they
are, the processes start and their sockets form the channels of the protocol, no more and
no fewer and none of them the wrong way round, exactly if the two numbers are the same
and the assigner can serve that many. -/
theorem channels_wired_iff (receiverShards workerShards numThreads : Nat)
    (hpos : 1 ≤ receiverShards) (hworkers : 1 ≤ workerShards) :
    (∃ sockets, launch receiverShards workerShards numThreads = .ok sockets ∧ Wired sockets) ↔
      receiverShards = workerShards ∧ receiverShards ≤ maxShards := by
  constructor
  · rintro ⟨sockets, hlaunch, hwired⟩
    have hint := fits_of_launch hworkers hlaunch
    obtain rfl := Except.ok.inj ((launch_ok hpos hint).symm.trans hlaunch)
    exact eq_of_wired hworkers hint hwired
  · rintro ⟨rfl, hle⟩
    have hint : receiverShards + 5562 ≤ 2147483647 := by
      have hmax : maxShards = 64 := rfl
      omega
    exact ⟨_, launch_ok hpos hint, wired_of_eq hpos hle hint⟩

/-- The defaults: 48 shards for the receiver, 4 for a worker. -/
theorem channels_wired_iff_defaults :
    (∃ sockets, launch 48 4 48 = .ok sockets ∧ Wired sockets) ↔ 48 = 4 ∧ 48 ≤ maxShards :=
  channels_wired_iff 48 4 48 (by decide) (by decide)

example : (launch 4 4 1).toOption.map (fun sockets => sockets.map fun s => (endpoint s.addr).2) =
    some [5557, 5560, 5561, 5562, 5563, 5566, 5560, 5564, 5565, 5566, 5561, 5564, 5565, 5562,
      5564, 5565, 5563, 5564, 5565, 5557] := by decide +kernel

end Sharding
