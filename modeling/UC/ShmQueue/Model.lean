import Mathlib.Data.Int.Init
import UC.Lib.Words

/- The message queue of shm_queue.c: a ring of ele_count + 1 nodes of one size in shared
   memory. A message takes as many contiguous nodes as it needs; the first one carries
   its header. Positions are unbounded integers; the lengths read back from the nodes go
   through the conversions of the source. Signalling of waiting readers is left out: it
   touches neither the nodes nor the positions. -/
namespace UC.ShmQueue
open UC.Memory UC.Words

def TOKEN_NO_DATA : Nat := 0
def TOKEN_SKIPPED : Nat := 0xdb030000
def TOKEN_HAS_DATA : Nat := 0x0000db03
def SQ_MAX_CONFLICT_TRIES : Int := 10
def MAX_SQ_DATA_LENGTH : Int := 65536
def RESERVE_BLOCK_COUNT : Int := 100

/-- sizeof(struct sq_node_head_t): two words and a 32-bit timeval. -/
def nodeHeadSize : Nat := 16

/-- Conversions to int, to u32_t and to the 64-bit size_t. -/
def toInt (x : Int) : Int := x.bmod (2 ^ 32)
def toU32 (x : Int) : Nat := (x % 2 ^ 32).toNat
def toSize (x : Int) : Nat := (x % 2 ^ 64).toNat

structure Timeval where
  tv_sec : Int
  tv_usec : Int

/-- struct sq_head_t, the part of the queue that lives in shared memory. -/
structure SqHead where
  ele_size : Int
  ele_count : Int
  head_pos : Int
  tail_pos : Int
  nodes : Mem UInt8

/-- struct shm_queue, the handle of one process. -/
structure Handle where
  head : SqHead
  rw_conflict : Int
  errmsg : String

section Macros

variable (queue : SqHead)

/-- SQ_ADD_POS; SQ_ADD_HEAD and SQ_ADD_TAIL are its uses at the two positions. -/
def addPos (pos val : Int) : Int := (pos + val).tmod (queue.ele_count + 1)

def emptyNodes2 (head : Int) : Int :=
  (head + queue.ele_count - queue.tail_pos).tmod (queue.ele_count + 1)

def usedNodes2 (head : Int) : Int := queue.ele_count - emptyNodes2 queue head

def emptyNodes : Int := emptyNodes2 queue queue.head_pos

def usedNodes : Int := usedNodes2 queue queue.head_pos

def nodeSize : Nat := toSize (nodeHeadSize + queue.ele_size)

/-- SQ_GET: byte offset of node idx. -/
def nodeAt (idx : Int) : Nat := idx.toNat * nodeSize queue

/-- SQ_NUM_NEEDED_NODES, computed in size_t and stored in an int. -/
def numNeededNodes (datalen : Int) : Int :=
  toInt ((toSize (toSize datalen + nodeHeadSize + nodeSize queue - 1) / nodeSize queue : Nat))

/-- More iterations than any walk from one position to another takes. -/
def turn : Nat := queue.ele_count.toNat + 1

end Macros

def startToken (m : Mem UInt8) (node : Nat) : Nat := load32 m node

def dataLen (m : Mem UInt8) (node : Nat) : Int := toInt (load32 m (node + 4))

def enqueueTime (m : Mem UInt8) (node : Nat) : Timeval :=
  ⟨toInt (load32 m (node + 8)), toInt (load32 m (node + 12))⟩

/-- The loops that store one token in every node from pos to stop; none stands for a loop
    that never meets stop. -/
def setTokens (queue : SqHead) (token : Nat) (stop : Int) :
    Nat → Int → Mem UInt8 → Option (Mem UInt8)
  | 0, pos, m => if pos = stop then some m else none
  | fuel + 1, pos, m =>
    if pos = stop then some m
    else
      setTokens queue token stop fuel (addPos queue pos 1) (store32 m (nodeAt queue pos) token)

/-- sq_create, where the segment could be attached: it is zeroed, and the element size
    rounded up to a multiple of 8. -/
def sqCreate (shm_key : Nat) (ele_size ele_count : Int) : Except String Handle :=
  if ele_size ≤ 0 ∨ ele_count ≤ RESERVE_BLOCK_COUNT ∨ shm_key = 0 then
    if ele_count ≤ RESERVE_BLOCK_COUNT then
      .error ("Bad argument: ele_count(" ++ toString ele_count ++
        ") should be greater than RESERVE_BLOCK_COUNT(" ++ toString RESERVE_BLOCK_COUNT ++ ")")
    else .error "Bad argument"
  else .ok ⟨⟨toInt ((ele_size + 7) / 8 * 8), ele_count, 0, 0, fun _ => 0⟩, 0, ""⟩

/-- What a writer holds after its CAS: the first node of the message and the positions of
    the tail before and after. -/
structure Reservation where
  idx : Int
  old_tail : Int
  new_tail : Int

/-- The space check of sq_put; none is the return of -2. -/
def reserve (queue : SqHead) (datalen : Int) : Option Reservation :=
  let nr_nodes := numNeededNodes queue datalen
  if emptyNodes queue < nr_nodes + RESERVE_BLOCK_COUNT then none
  else
    let old_tail := queue.tail_pos
    let new_tail := addPos queue old_tail nr_nodes
    if new_tail < old_tail then
      -- wrapped back: the message has to begin at node 0
      if queue.head_pos - 1 < nr_nodes then none else some ⟨0, old_tail, nr_nodes⟩
    else some ⟨old_tail, old_tail, new_tail⟩

def writeNode (m : Mem UInt8) (node : Nat) (now : Timeval) (data : Mem UInt8) (datalen : Int) :
    Mem UInt8 :=
  let m := store32 m (node + 4) (toU32 datalen)
  let m := store32 m (node + 8) (toU32 now.tv_sec)
  let m := store32 m (node + 12) (toU32 now.tv_usec)
  let m := memcpy m (node + nodeHeadSize) data 0 (toSize datalen)
  store32 m node TOKEN_HAS_DATA

/-- The rest of sq_put. Its do-while over the skipped nodes starts at a position that is
    not 0, so it is the walk to 0. -/
def publish (queue : SqHead) (r : Reservation) (now : Timeval) (data : Mem UInt8)
    (datalen : Int) : Option SqHead :=
  let marked :=
    if r.idx = 0 ∧ r.old_tail ≠ 0 then
      setTokens queue TOKEN_SKIPPED 0 (turn queue) r.old_tail queue.nodes
    else some queue.nodes
  marked.map fun m => { queue with nodes := writeNode m (nodeAt queue r.idx) now data datalen }

def sqPut (sq : Handle) (now : Timeval) (data : Mem UInt8) (datalen : Int) :
    Option (Handle × Int) :=
  if datalen ≤ 0 ∨ datalen > MAX_SQ_DATA_LENGTH then
    some ({ sq with errmsg := "Bad argument" }, -1)
  else
    match reserve sq.head datalen with
    | none => some ({ sq with errmsg := "Not enough for new data" }, -2)
    | some r =>
      (publish { sq.head with tail_pos := r.new_tail } r now data datalen).map fun head =>
        ({ sq with head := head }, 0)

/-- How the reader's walk over the nodes ends. -/
inductive Scan where
  | drained (head : Int)
  | busy
  | found (head datalen new_head : Int)
  deriving DecidableEq

/-- The loop of sq_get up to the CAS, with no other reader around. -/
def scan (queue : SqHead) (rw_conflict : Int) : Nat → Int → Option Scan
  | 0, _ => none
  | fuel + 1, head =>
    if queue.tail_pos = head then some (.drained head)
    else
      let node := nodeAt queue head
      let token := startToken queue.nodes node
      if token ≠ TOKEN_HAS_DATA then
        if token = TOKEN_NO_DATA ∧ rw_conflict < SQ_MAX_CONFLICT_TRIES then some .busy
        else scan queue rw_conflict fuel (addPos queue head 1)
      else
        let datalen := dataLen queue.nodes node
        let nr_nodes := numNeededNodes queue datalen
        if usedNodes2 queue head < nr_nodes then
          scan queue rw_conflict fuel (addPos queue head 1)
        else some (.found head datalen (addPos queue head nr_nodes))

/-- What the reader holds after its CAS. -/
inductive Claim where
  | noData
  | skipped (old_head new_head : Int)
  | message (old_head head new_head datalen : Int)

def claim (sq : Handle) : Option (Handle × Claim) :=
  let old_head := sq.head.head_pos
  (scan sq.head sq.rw_conflict (turn sq.head) old_head).map fun
    | .drained head =>
      if head ≠ old_head then
        ({ sq with head := { sq.head with head_pos := head } }, .skipped old_head head)
      else ({ sq with rw_conflict := 0 }, .noData)
    | .busy => ({ sq with rw_conflict := sq.rw_conflict + 1 }, .noData)
    | .found head datalen new_head =>
      ({ sq with head := { sq.head with head_pos := new_head } },
        .message old_head head new_head datalen)

/-- The last loop of sq_get. -/
def release (sq : Handle) (old_head new_head : Int) : Option Handle :=
  (setTokens sq.head 0 new_head (turn sq.head) old_head sq.head.nodes).map fun m =>
    { sq with head := { sq.head with nodes := m }, rw_conflict := 0 }

/-- Return value of sq_get, the bytes it has put into buf and the time it reports. -/
structure Got where
  ret : Int
  buf : List UInt8
  enqueue_time : Option Timeval

def finish (sq : Handle) (buf_sz : Int) : Claim → Option (Handle × Got)
  | .noData => some (sq, ⟨0, [], none⟩)
  | .skipped old_head new_head =>
    (release sq old_head new_head).map fun sq => (sq, ⟨0, [], none⟩)
  | .message old_head head new_head datalen =>
    let node := nodeAt sq.head head
    let time := enqueueTime sq.head.nodes node
    if datalen > buf_sz then
      some ({ sq with errmsg := "Data length(" ++ toString (toU32 datalen) ++
        ") exceeds supplied buffer size of " ++ toString (toU32 buf_sz) }, ⟨-2, [], some time⟩)
    else
      let copied := slice sq.head.nodes (node + nodeHeadSize) (toSize datalen)
      (release sq old_head new_head).map fun sq => (sq, ⟨datalen, copied, some time⟩)

def sqGet (sq : Handle) (buf_sz : Int) : Option (Handle × Got) :=
  if buf_sz < 1 then some ({ sq with errmsg := "Bad argument" }, ⟨-1, [], none⟩)
  else (claim sq).bind fun (sq, c) => finish sq buf_sz c

end UC.ShmQueue
