import Sharding.Blake3.Compress
import Sharding.Lib.Heap
import Sharding.Lib.LazyBuffer

/-! # BLAKE3

`blake3.c`. The compression function is a parameter of everything that calls it;
`compress` is the code's own. Chunk states and hashers remember in `calls` what
they gave to it. A hasher keeps the chaining values of what it has finished on a
stack of 54 slots: a push beyond them, a pop of a slot that was never written, and
a shift by the width of the mask are faults.
-/

namespace Sharding.Blake3

/-- What the hasher's stack could do wrong. -/
inductive HashFault where
  | stackIndex
  | uninitialised
  | shift
deriving DecidableEq

/-- `CHUNK_START` -/
def chunkStart : UInt8 := 1

/-- `CHUNK_END` -/
def chunkEnd : UInt8 := 2

/-- `PARENT` -/
def parentFlag : UInt8 := 4

/-- `ROOT` -/
def rootFlag : UInt8 := 8

/-- `KEYED_HASH` -/
def keyedHash : UInt8 := 16

/-- The first eight words of an output: `memcpy(cv, full, 32)`. -/
def firstWords (full : Vector UInt32 16) : Words := Vector.ofFn fun i => full[i.val]

/-! ## Chunks -/

/-- `chunk_state` -/
structure ChunkState where
  cv : Words
  chunkCounter : UInt64
  buf : Vector UInt8 64
  bufLen : Nat
  blocksCompressed : UInt8
  flags : UInt8
  /-- What was given to `compress` so far. -/
  calls : List CompressArgs
  bufLen_le : bufLen ≤ 64

/-- `chunk_state_init` -/
def chunkStateInit (key : Words) (chunkCounter : UInt64) (flags : UInt8) : ChunkState :=
  ⟨key, chunkCounter, zeros 64, 0, 0, flags, [], Nat.zero_le _⟩

/-- `chunk_state_start_flag` -/
def chunkStateStartFlag (cs : ChunkState) : UInt8 :=
  if cs.blocksCompressed = 0 then chunkStart else 0

/-- What `compress_in_place` is called with for a full block. -/
def blockArgs (cs : ChunkState) : CompressArgs :=
  ⟨cs.cv, cs.buf, 64, cs.chunkCounter, cs.flags ||| chunkStateStartFlag cs⟩

/-- Compress the full block in the buffer. -/
def flushBlock (f : Compress) (cs : ChunkState) : ChunkState :=
  { cs with
    cv := firstWords (f (blockArgs cs))
    buf := zeros 64
    bufLen := 0
    blocksCompressed := cs.blocksCompressed + 1
    calls := cs.calls ++ [blockArgs cs]
    bufLen_le := Nat.zero_le _ }

/-- The block buffer of a chunk state. -/
def blockBuffer (f : Compress) : LazyBuffer HashFault ChunkState UInt8 where
  size := 64
  len cs := cs.bufLen
  flush cs := .ok (flushBlock f cs)
  fill cs input h :=
    { cs with
      buf := memcpy cs.buf cs.bufLen input h
      bufLen := cs.bufLen + input.length
      bufLen_le := h }
  size_pos := by decide
  len_le cs := cs.bufLen_le
  flush_len cs cs' h := by
    obtain rfl := Except.ok.inj h
    rfl
  fill_len _ _ _ := rfl
  fill_nil cs h := by
    simp [memcpy_nil]
  fill_append cs as bs h ha hb := by
    simp [memcpy_append cs.buf cs.bufLen as bs h ha hb, Nat.add_assoc]

/-- `chunk_state_update` -/
def chunkStateUpdate (f : Compress) (cs : ChunkState) (input : Bytes) :
    Except HashFault ChunkState := (blockBuffer f).write cs input

/-- What `chunk_state_output` calls `compress` with. -/
def outputArgs (cs : ChunkState) : CompressArgs :=
  ⟨cs.cv, cs.buf, UInt8.ofNat cs.bufLen, cs.chunkCounter,
    cs.flags ||| chunkStateStartFlag cs ||| chunkEnd⟩

/-- `chunk_state_output` -/
def chunkStateOutput (f : Compress) (cs : ChunkState) : Words := firstWords (f (outputArgs cs))

/-! ## Parents and the stack -/

/-- Chaining values in memory, by `store32_le` and `load32_le`. -/
def wordsCodec : Codec Words := Codec.u32.array 8

/-- What `parent_cv` calls `compress` with. -/
def parentArgs (left right key : Words) (flags : UInt8) : CompressArgs :=
  ⟨key, Codec.takeVec 64 (wordsCodec.enc left ++ wordsCodec.enc right), 64, 0, flags ||| parentFlag⟩

/-- `parent_cv` -/
def parentCv (f : Compress) (left right key : Words) (flags : UInt8) : Words :=
  firstWords (f (parentArgs left right key flags))

/-- `blake3_hasher` -/
structure Hasher where
  cv : Words
  chunkBuf : Vector UInt8 1024
  /-- Slots of 32 bytes. -/
  cvStack : HeapBlock (Vector UInt8 32)
  cvStackLen : Nat
  chunkCounter : UInt64
  bufLen : Nat
  flags : UInt8
  /-- What was given to `compress` so far. -/
  calls : List CompressArgs
  bufLen_le : bufLen ≤ 1024

/-- `blake3_hasher_init`: the stack is not touched. -/
def blake3HasherInit : Hasher :=
  ⟨iv, zeros 1024, HeapBlock.malloc 54, 0, 0, 0, 0, [], Nat.zero_le _⟩

/-- `blake3_hasher_init_keyed` -/
def blake3HasherInitKeyed (key : Vector UInt8 32) : Hasher :=
  ⟨wordsCodec.dec key.toList, zeros 1024, HeapBlock.malloc 54, 0, 0, 0, keyedHash, [], Nat.zero_le _⟩

/-- The slot that holds `cv`. -/
def slot (cv : Words) : Vector UInt8 32 := Codec.takeVec 32 (wordsCodec.enc cv)

/-- `push_cv` -/
def pushCv (h : Hasher) (cv : Words) : Except HashFault Hasher :=
  match h.cvStack.store h.cvStackLen (slot cv) with
  | some cvStack => .ok { h with cvStack := cvStack, cvStackLen := h.cvStackLen + 1 }
  | none => .error .stackIndex

/-- `pop_cv`, the length being decremented already. -/
def popCv (cvStack : HeapBlock (Vector UInt8 32)) (cvStackLen : Nat) : Except HashFault Words :=
  match cvStack.load cvStackLen with
  | some cell => .ok (wordsCodec.dec cell.toList)
  | none => .error .uninitialised

/-- Where a merge loop stops. -/
structure Merged where
  cv : Words
  cvStackLen : Nat
  calls : List CompressArgs

/-- The loops that pop values and merge them with `cv`, while `cond` says so. -/
def mergeLoop (f : Compress) (flags : UInt8) (cvStack : HeapBlock (Vector UInt8 32))
    (cond : Nat → Except HashFault Bool) :
    Nat → Words → List CompressArgs → Except HashFault Merged
  -- `cv_stack_len > 0` fails
  | 0, cv, calls => .ok ⟨cv, 0, calls⟩
  | n + 1, cv, calls => do
      let go ← cond (n + 1)
      if go then do
        let left ← popCv cvStack n
        mergeLoop f flags cvStack cond n (parentCv f left cv iv flags)
          (calls ++ [parentArgs left cv iv flags])
      else .ok ⟨cv, n + 1, calls⟩

/-- The condition of `add_chunk_cv`: `chunk_counter` has a bit below bit `cv_stack_len`. -/
def mergeCond (chunkCounter : UInt64) (cvStackLen : Nat) : Except HashFault Bool :=
  if cvStackLen < 64 then
    .ok (chunkCounter &&& ((1 <<< UInt64.ofNat cvStackLen) - 1) != 0)
  else .error .shift

/-- `add_chunk_cv` -/
def addChunkCv (f : Compress) (h : Hasher) (newCv : Words) (chunkCounter : UInt64) :
    Except HashFault Hasher := do
  let m ← mergeLoop f h.flags h.cvStack (mergeCond chunkCounter) h.cvStackLen newCv h.calls
  pushCv { h with cvStackLen := m.cvStackLen, calls := m.calls } m.cv

/-! ## The hasher -/

/-- Hash the full chunk in the buffer. -/
def flushChunk (f : Compress) (h : Hasher) : Except HashFault Hasher := do
  -- every chunk starts from `IV`, under a key as well
  let cs ← chunkStateUpdate f (chunkStateInit iv h.chunkCounter h.flags) h.chunkBuf.toList
  let chunkCv := chunkStateOutput f cs
  let h ← addChunkCv f { h with calls := h.calls ++ cs.calls ++ [outputArgs cs] } chunkCv
    h.chunkCounter
  .ok { h with
    chunkCounter := h.chunkCounter + 1
    bufLen := 0
    bufLen_le := Nat.zero_le _ }

/-- The chunk buffer of a hasher. -/
def chunkBuffer (f : Compress) : LazyBuffer HashFault Hasher UInt8 where
  size := 1024
  len h := h.bufLen
  flush := flushChunk f
  fill h input hfit :=
    { h with
      chunkBuf := memcpy h.chunkBuf h.bufLen input hfit
      bufLen := h.bufLen + input.length
      bufLen_le := hfit }
  size_pos := by decide
  len_le h := h.bufLen_le
  flush_len h h' hflush := by
    rcases Run.bind_eq_ok hflush with ⟨cs, -, hflush⟩
    rcases Run.bind_eq_ok hflush with ⟨h₁, -, hflush⟩
    obtain rfl := Except.ok.inj hflush
    rfl
  fill_len _ _ _ := rfl
  fill_nil h hfit := by
    simp [memcpy_nil]
  fill_append h as bs hfit ha hb := by
    simp [memcpy_append h.chunkBuf h.bufLen as bs hfit ha hb, Nat.add_assoc]

/-- `blake3_hasher_update` -/
def blake3HasherUpdate (f : Compress) (h : Hasher) (input : Bytes) : Except HashFault Hasher :=
  (chunkBuffer f).write h input

/-- What a finalization returns: the bytes in `out`, and what was given to `compress`
for the whole hash. -/
structure Output where
  out : Bytes
  calls : List CompressArgs

/-- The last call of `compress`. -/
def rootArgs (finalCv : Words) (flags : UInt8) : CompressArgs :=
  ⟨iv, Codec.takeVec 64 (wordsCodec.enc finalCv), 32, 0, flags ||| rootFlag⟩

/-- The first output loop: at most 32 bytes of the output words. -/
def copyOut (outputCv : Vector UInt32 16) (outLen : Nat) : Bytes :=
  ((Codec.u32.array 16).enc outputCv).take (if outLen < 32 then outLen else 32)

/-- The second output loop: for more than 32 bytes. -/
def extendOut (out : Bytes) (outLen : Nat) : Bytes :=
  out ++ (List.range' 32 (outLen - 32)).map fun i =>
    out.getD (i % 32) 0 ^^^ UInt8.ofNat (i >>> 8) ^^^ UInt8.ofNat i

/-- `blake3_hasher_finalize` -/
def blake3HasherFinalize (f : Compress) (h : Hasher) (outLen : Nat) : Except HashFault Output := do
  let cs ← chunkStateUpdate f (chunkStateInit iv h.chunkCounter h.flags)
    (h.chunkBuf.toList.take h.bufLen)
  let chunkCv := chunkStateOutput f cs
  -- here the loop stops at the empty stack only
  let m ← mergeLoop f h.flags h.cvStack (fun _ => .ok true) h.cvStackLen chunkCv
    (h.calls ++ cs.calls ++ [outputArgs cs])
  let outputCv := f (rootArgs m.cv h.flags)
  .ok ⟨extendOut (copyOut outputCv outLen) outLen, m.calls ++ [rootArgs m.cv h.flags]⟩

/-- `blake3_truncated` -/
def blake3Truncated (f : Compress) (input : Bytes) (outLen : Nat) : Except HashFault Output := do
  let h ← blake3HasherUpdate f blake3HasherInit input
  blake3HasherFinalize f h outLen

/-- `blake3` -/
def blake3 (f : Compress) (input : Bytes) : Except HashFault Output := blake3Truncated f input 32

end Sharding.Blake3
