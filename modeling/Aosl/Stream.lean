import Aosl.Lib.Steps

/-!
# The read buffer of an iofd, `__iofd_read_data`

The bytes from `r_head` on are `buf`; `rData` and `rTail` are the offsets of `r_data` and `r_tail`. A step is one round of
the inner loop, or the part of the outer loop from `__iofd_better_move_buffer` to the result of `read_f`. The callbacks
are functions of what they are given; each of them may close the fd. `input` is what the peer has sent and `read_f` has
not returned yet, and a call of `read_f` returns as much of it as is ready then.

`handed` is the list of the calls of `data_f`, with the bytes and the length, `asked` the lengths `read_f` was called
with.
-/

namespace Aosl
open Lib

def eagain : Int := 1011

def einval : Int := 1022

/-- The fields of an iofd that stay as they are. -/
structure StreamCfg (β : Type) where
  maxPktSize : Nat
  chkPkt : Option (List β → Int)
  post : Option (List β → Int → Int)

inductive StreamPc where
  /-- `__iofd_read_data` is not running; what the last call returned. -/
  | ret (err : Int)
  /-- At the top of the inner loop, and behind it. -/
  | loop
  | read
deriving DecidableEq

structure StreamSt (β : Type) where
  /-- `fobj.fd` is valid. -/
  fd : Bool
  buf : List β
  rData : Nat
  rTail : Nat
  /-- `IOFD_READ_RETURN_0`. -/
  readReturn0 : Bool
  /-- What `event_f` was told. -/
  event : Option Int
  pc : StreamPc
  input : List β
  handed : List (List β × Int)
  asked : List Nat
deriving DecidableEq

inductive StreamCb where
  | chkPkt
  | post
  | data
deriving DecidableEq

/-- What a call of `read_f` finds: some bytes are ready, the end of the stream, or an error. -/
inductive ReadRes where
  | ready (n : Nat)
  | eof
  | fail (err : Int)
deriving DecidableEq

inductive StreamAct where
  /-- The fd is readable. -/
  | event
  /-- A round of the inner loop, with the callback that closes the fd. -/
  | loop (closer : Option StreamCb)
  | read (res : ReadRes)
deriving DecidableEq

namespace StreamCfg

variable {β : Type} (cfg : StreamCfg β)

def buffSize : Nat := if cfg.chkPkt.isSome then cfg.maxPktSize * 2 else cfg.maxPktSize

/-- The checks of `__mpq_add_fd_argv` on the size, and the alignment; `none` is `-AOSL_EINVAL`. -/
def addFd (maxPktSize : Nat) (chkPkt : Option (List β → Int)) (post : Option (List β → Int → Int)) :
    Option (StreamCfg β) :=
  if (chkPkt.isSome ∧ maxPktSize < 1024) ∨ maxPktSize > 4194304 then none
  else some ⟨(maxPktSize + 7) / 8 * 8, chkPkt, post⟩

end StreamCfg

namespace StreamSt

variable {β : Type} (cfg : StreamCfg β)

/-- The state after `__mpq_add_fd_argv`, with the buffer as it was allocated. -/
def init (mem input : List β) : StreamSt β := ⟨true, mem, 0, 0, false, none, .ret 0, input, [], []⟩

/-- The bytes from `r_data` to `r_tail`. -/
def data (s : StreamSt β) : List β := (s.buf.drop s.rData).take (s.rTail - s.rData)

/-- `__iofd_better_move_buffer`. -/
def betterMoveBuffer (s : StreamSt β) : Bool :=
  cfg.chkPkt.isNone ||
  cfg.maxPktSize * 2 - s.rTail < 1024 ||
  (s.rData > cfg.maxPktSize && s.rTail - s.rData < 1024) ||
  (s.rTail - s.rData ≤ 96 && s.rData ≥ cfg.maxPktSize / 2)

/-- `memmove (f->r_head, f->r_data, len)`. -/
def moveBuffer (s : StreamSt β) : StreamSt β :=
  { s with buf := s.data ++ s.buf.drop s.data.length, rData := 0, rTail := s.rTail - s.rData }

def close (s : StreamSt β) (ret : Int) : StreamSt β := { s with fd := false, pc := .ret ret }

/-- `f_event_and_close`. -/
def eventAndClose (s : StreamSt β) (err ret : Int) : StreamSt β := { s.close ret with event := some err }

/-- The end of a round, with `r_data` moved by `err`. -/
def endRound (s : StreamSt β) (err : Int) : StreamSt β :=
  if s.readReturn0 then
    if cfg.chkPkt.isSome then { s with pc := .ret 0 } else { s with readReturn0 := false, pc := .read }
  else if err = 0 then { s with pc := .read }
  else { s with pc := .loop }

/-- `data_f` for the bytes at `r_data`. -/
def dataF (s : StreamSt β) (dataLen : Int) : StreamSt β :=
  if dataLen ≥ 0 then { s with handed := s.handed ++ [((s.buf.drop s.rData).take dataLen.toNat, dataLen)] } else s

/-- The length for `data_f`, from `post_f` if there is one. -/
def dataLen (s : StreamSt β) (err : Int) : Int := match cfg.post with
  | none => err
  | some post => post s.data err

/-- The round after `chk_pkt_f`, which has returned `err`. -/
def handle (s : StreamSt β) (closer : Option StreamCb) (err : Int) : StreamSt β :=
  if err > 0 ∨ s.readReturn0 then
    if cfg.post.isSome ∧ closer = some .post then s.close 0
    else if s.dataLen cfg err ≥ 0 ∧ closer = some .data then (s.dataF (s.dataLen cfg err)).close 0
    else { s.dataF (s.dataLen cfg err) with rData := s.rData + err.toNat }.endRound cfg err
  else s.endRound cfg err

/-- A round of the inner loop. -/
def loop (s : StreamSt β) (closer : Option StreamCb) : StreamSt β :=
  let len : Int := s.rTail - s.rData
  match cfg.chkPkt with
  | none => s.handle cfg closer len
  | some chk =>
    if len ≤ 0 then s.handle cfg closer len
    else if closer = some .chkPkt then s.close 0
    else
      let err := chk s.data
      if err < 0 then s.eventAndClose err err
      else if err > len then s.eventAndClose (-einval) (-einval)
      else s.handle cfg closer err

/-- `read_f` has returned these bytes. -/
def fill (s : StreamSt β) (bytes : List β) : StreamSt β :=
  { s with
    buf := s.buf.take s.rTail ++ bytes ++ s.buf.drop (s.rTail + bytes.length)
    rTail := s.rTail + bytes.length
    input := s.input.drop bytes.length
    pc := .loop }

/-- The call of `read_f`; a call for 0 bytes returns 0. -/
def readF (s : StreamSt β) (room : Nat) : ReadRes → StreamSt β
  | .ready n =>
    if room = 0 then { s with readReturn0 := true, pc := .loop }
    else if (s.input.take (min n room)).isEmpty then { s with pc := .ret 0 }
    else s.fill (s.input.take (min n room))
  | .eof => { s with readReturn0 := true, pc := .loop }
  | .fail err => if err = -eagain then { s with pc := .ret 0 } else s.eventAndClose err err

/-- The rest of the outer loop. -/
def read (s : StreamSt β) (res : ReadRes) : StreamSt β :=
  let s := if s.betterMoveBuffer cfg then s.moveBuffer else s
  let room := cfg.buffSize - s.rTail
  { s with asked := s.asked ++ [room] }.readF room res

def step (s : StreamSt β) : StreamAct → Option (StreamSt β)
  | .event => match s.pc with
    | .ret _ => if s.fd then some { s with pc := .loop } else none
    | _ => none
  | .loop closer => if s.pc = .loop then some (s.loop cfg closer) else none
  | .read res => if s.pc = .read then some (s.read cfg res) else none

def run (mem input : List β) (as : List StreamAct) : Option (StreamSt β) := exec (step cfg) (init mem input) as

end StreamSt

/-- `chk_pkt_f` finds the packets `ps` in their concatenation: it returns 0 until the first one is complete, and then its
length. So a packet has one byte at least. -/
structure Framing {β : Type} (chk : List β → Int) (maxPktSize : Nat) (ps : List (List β)) : Prop where
  nonempty : ∀ p ∈ ps, p ≠ []
  size : ∀ p ∈ ps, p.length ≤ maxPktSize
  check : ∀ p rest data, (p :: rest) <:+ ps → data <+: (p :: rest).flatten → data ≠ [] →
    chk data = if data.length < p.length then 0 else (p.length : Int)

end Aosl
