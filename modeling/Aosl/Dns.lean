import Aosl.MpqDoneRun
import Aosl.OnQ
import Aosl.SkAddrText

/-!
# Resolving a host name, `net/dns.c`

`aosl_tcp_resolve_host_async` and its siblings pack their arguments into a vector and queue `____dns_resolve_host` to a
pool. There the HAL is asked for the addresses, the IPv6 prefix of the requester's queue is set by synchronous calls,
and the callback is queued to the requester's queue; where it is refused, it is called at once to free its arguments.

The lookups run on the queues of `DoneSt`, among functions that have nothing to do with them. What the pool chooses for
a queue and whether `____add_f` accepts a function is left open. A lookup writes to the array of its request, and no two
requests share one. With `CONFIG_AOSL_IPV6`.
-/

namespace Aosl
open Lib

namespace Dns

open Ipv6 SkAddr

/-! ### The lookup -/

/-- `aosl_sockaddr_t`. -/
structure HalSockaddr where
  saFamily : BitVec 16
  saPort : BitVec 16
  /-- `sin_addr` or `sin6_flowinfo`. -/
  sinAddr : BitVec 32
  sin6Addr : Vector UInt8 16
  sin6ScopeId : BitVec 32
deriving DecidableEq

/-- `aosl_sk_addrinfo_t`. -/
structure SkAddrinfo where
  skAf : BitVec 16
  skType : Nat
  skProt : Nat
  skAddr : HalSockaddr
deriving DecidableEq

/-- What `aosl_hal_gethostbyname` returns, and the array of `MAX_DNS_RES_CNT` after it. -/
structure HalAnswer where
  rescnt : Int
  addrs : Vector HalSockaddr 8
deriving DecidableEq

/-- The loop of `vhostbyname_timed_do`; `σ` is what `fn` changes. -/
def hostLoop {σ : Type} (host : Endian) (port : BitVec 16) (fn : HalSockaddr → Nat → σ → Int × σ) :
    List HalSockaddr → Nat → σ → Nat × σ
  | [], count, s => (count, s)
  | addr :: addrs, count, s =>
    match fn { addr with saPort := aoslHtons host port } count s with
    | (err, s) =>
      if err < 0 then (count, s)
      else if err = 0 then (count + 1, s)
      else hostLoop host port fn addrs (count + 1) s

def vhostbynameTimedDo {σ : Type} (host : Endian) (port : BitVec 16) (fn : HalSockaddr → Nat → σ → Int × σ)
    (h : HalAnswer) (s : σ) : Nat × σ :=
  hostLoop host port fn (h.addrs.toList.take h.rescnt.toNat) 0 s

/-- `__resolved_an_addr`; the index is compared with `(unsigned int)addr_count`. -/
def resolvedAnAddr (sockType prot addrCount : Nat) (addr : HalSockaddr) (index : Nat) (addrs : List SkAddrinfo) :
    Int × List SkAddrinfo :=
  if index < addrCount % 4294967296 then (1, addrs.set index ⟨addr.saFamily, sockType, prot, addr⟩) else (-1, addrs)

/-! ### The arguments -/

/-- The arguments of `__prot_resolve_host_async_args`. -/
structure DnsReq where
  hostname : Nat
  port : BitVec 16
  skType : Nat
  skProt : Nat
  addrs : Nat
  /-- What is at `addrs`; `addr_count` is its length. -/
  array : List SkAddrinfo
  q : Nat
  f : Nat
  args : List Nat
deriving DecidableEq

/-- What `aosl_tcp_resolve_host_async` passes on: `AOSL_SOCK_STREAM` and `AOSL_IPPROTO_TCP`. -/
def DnsReq.tcp (r : DnsReq) : DnsReq := { r with skType := 1, skProt := 1 }

/-- What `aosl_udp_resolve_host_async` passes on: `AOSL_SOCK_DGRAM` and `AOSL_IPPROTO_UDP`. -/
def DnsReq.udp (r : DnsReq) : DnsReq := { r with skType := 2, skProt := 2 }

/-- `__prot_resolve_host_async_args` up to the queueing, and the check on `argc` in `aosl_mpqp_queue_argv`. -/
def protResolveHostAsyncArgs (r : DnsReq) : Except Int (List Nat) :=
  if r.args.length > argcMax then .error (-1001)
  else
    let argv := [r.hostname, r.port.toNat, r.skType, r.skProt, r.addrs, r.array.length, r.q, r.f, r.args.length] ++
      r.args
    if argv.length > argcMax then .error (-1007) else .ok argv

/-- The local variables of `____dns_resolve_host`; `fArgv` are the `f_argc` words from `argv [9]` on. -/
structure ResolveArgs where
  hostname : Nat
  port : BitVec 16
  skType : Nat
  skProt : Nat
  addrs : Nat
  addrCount : Nat
  q : Nat
  f : Nat
  fArgv : List Nat

/-- How `____dns_resolve_host` reads its vector; `none` where it would read behind it. -/
def unpack : List Nat → Option ResolveArgs
  | hostname :: port :: skType :: skProt :: addrs :: addrCount :: q :: f :: fArgc :: argv =>
    if fArgc ≤ argv.length then
      some ⟨hostname, .ofNat 16 port, skType, skProt, addrs, addrCount, q, f, argv.take fArgc⟩
    else none
  | _ => none

/-- `this_argv` of `__queue_resolve_async_reply`. -/
def ResolveArgs.replyArgv (a : ResolveArgs) (count : Nat) : List Nat := [a.hostname, count, a.addrs] ++ a.fArgv

/-- The call of `hostbyname_timed_do` in `____dns_resolve_host`. -/
def ResolveArgs.resolve (a : ResolveArgs) (host : Endian) (h : HalAnswer) (array : List SkAddrinfo) :
    Nat × List SkAddrinfo :=
  vhostbynameTimedDo host a.port (resolvedAnAddr a.skType a.skProt a.addrCount) h array

/-- The addresses for which `__queue_resolve_async_reply` sets the prefix. -/
def v6Addrs (count : Nat) (array : List SkAddrinfo) : List (Vector UInt8 16) :=
  ((array.take count).filter (·.skAf = afInet6)).map (·.skAddr.sin6Addr)

/-! ### The lookups of all threads -/

/-- Where a lookup is. -/
inductive Stage where
  /-- Before the call of `hostbyname_timed_do`. -/
  | queued
  /-- In the loop over the addresses; `left` are those it has not come to. After it, before `__mpq_get` of the reply. -/
  | prefixes (left : List (Vector UInt8 16))
  /-- In `aosl_mpq_set_ipv6_prefix_on_q`, with the queue. -/
  | prefixGot (a6 : Vector UInt8 16) (left : List (Vector UInt8 16))
  /-- In `__mpq_call_argv`, which has queued the function `k`. -/
  | prefixCall (left : List (Vector UInt8 16)) (k : Nat)
  | prefixPut (left : List (Vector UInt8 16))
  /-- In `aosl_mpq_queue_argv`, with the queue. -/
  | replyGot
  /-- The callback was accepted as the function `k`, or refused. -/
  | replyPut (k : Option Nat)
  | replied (k : Nat)
  /-- The callback runs with `AOSL_FREE_ONLY_OBJ`. -/
  | freeing
  | freed
deriving DecidableEq

namespace Stage

/-- `____dns_resolve_host` has returned. -/
def returned : Stage → Bool
  | replied _ | freed => true
  | _ => false

/-- The lookup has got the requester's queue by `__mpq_get`. -/
def holds : Stage → Bool
  | prefixGot .. | prefixCall .. | prefixPut _ | replyGot | replyPut _ => true
  | _ => false

/-- The function as which the callback was accepted. -/
def reply : Stage → Option Nat
  | replyPut k => k
  | replied k => some k
  | _ => none

end Stage

/-- An accepted request: `____dns_resolve_host` is the function `id` of the queue `p` of the pool. `req` and `answer` are
not in the code: they are the call that was made and what the HAL has answered. -/
structure Job where
  p : Nat
  id : Nat
  req : DnsReq
  argv : List Nat
  array : List SkAddrinfo
  count : Nat
  stage : Stage
  /-- The calls of `____q_update_ipv6_prefix` on the requester's queue; `none` is a direct one. -/
  prefixFs : List (Option Nat × Vector UInt8 16)
  answer : Option HalAnswer
deriving DecidableEq

/-- What happened to the callback: it is the function `k` of the requester's queue, or it was called to free. -/
def Job.callbacks (job : Job) (log : List (Nat × DoneEv)) : List DoneEv :=
  match job.stage with
  | .replyPut (some k) | .replied k => hist log k
  | .freeing | .freed => [.call job.p none .freeOnly]
  | _ => []

/-- The functions that belong to a lookup. -/
def Job.fns (job : Job) : List Nat := job.id :: (job.prefixFs.filterMap (·.1) ++ job.stage.reply.toList)

structure DnsSt where
  m : DoneSt
  /-- Which lookup has each of `m.holders`; the others are `none`. -/
  owners : List (Option Nat)
  jobs : List Job
deriving DecidableEq

inductive DnsAct where
  /-- A step that is none of a lookup. -/
  | mach (a : DoneAct)
  /-- The `j`-th holder has a queue of the pool, which accepts `____dns_resolve_host`. -/
  | request (j : Nat) (r : DnsReq)
  /-- The lookup `n` gets the answer of the HAL. -/
  | lookup (n : Nat) (h : HalAnswer)
  /-- The lookup `n` goes on; `ok` is whether `____add_f` accepts the function, where there is one. -/
  | go (n : Nat) (ok : Bool)

/-- The function that the thread of queue `i` is in. -/
def running (m : DoneSt) (i : Nat) : Option Nat :=
  (m.qs[i]?).bind fun q => match q.stack with
    | .run fo _ :: _ => some fo.id
    | _ => none

namespace DnsSt

def init : DnsSt := ⟨.init, [], []⟩

def setJob (s : DnsSt) (n : Nat) (job : Job) : DnsSt := { s with jobs := s.jobs.set n job }

/-- `__mpq_get`, for the lookup `n`. -/
def get (s : DnsSt) (n q : Nat) : Option DnsSt :=
  (s.m.step (.get q)).map fun m => { s with m := m, owners := s.owners ++ [some n] }

/-- `____add_f` of a function for the queue that the lookup `n` has. -/
def add (s : DnsSt) (n : Nat) : Option DnsSt :=
  (s.m.step (.add (s.owners.idxOf (some n)) none none)).map fun m => { s with m := m }

/-- `__mpq_put`. -/
def put (s : DnsSt) (n : Nat) : Option DnsSt :=
  (s.m.step (.put (s.owners.idxOf (some n)))).map fun m =>
    { s with m := m, owners := s.owners.eraseIdx (s.owners.idxOf (some n)) }

/-- No lookup goes on by a step of the thread alone, calls a function from the user's code but where it frees, or
lends its queue. -/
def allows (s : DnsSt) : DoneAct → Bool
  | .go i => s.jobs.all fun job => running s.m i ≠ some job.id ∨ job.stage.returned
  | .call i _ => s.jobs.all fun job => running s.m i ≠ some job.id ∨ job.stage = .freeing
  | .add j _ _ | .put j => s.owners[j]? = some none
  | _ => true

def ownersAfter (owners : List (Option Nat)) : DoneAct → List (Option Nat)
  | .get _ => owners ++ [none]
  | .put j => owners.eraseIdx j
  | _ => owners

/-- The thread goes on in `__queue_resolve_async_reply`. -/
def goJob (s : DnsSt) (n : Nat) (job : Job) (a : ResolveArgs) (ok : Bool) : Option DnsSt :=
  match job.stage with
  | .queued => none
  | .prefixes [] => match s.get n a.q with
    | some t => some (t.setJob n { job with stage := .replyGot })
    | none => some (s.setJob n { job with stage := .freeing })
  | .prefixes (a6 :: left) => match s.get n a.q with
    | some t => some (t.setJob n { job with stage := .prefixGot a6 left })
    | none => some (s.setJob n { job with stage := .prefixes left })
  | .prefixGot a6 left =>
    if a.q = job.p then
      some (s.setJob n { job with stage := .prefixPut left, prefixFs := job.prefixFs ++ [(none, a6)] })
    else if ok then (s.add n).map fun t => t.setJob n
      { job with stage := .prefixCall left s.m.reqs.length, prefixFs := job.prefixFs ++ [(some s.m.reqs.length, a6)] }
    else some (s.setJob n { job with stage := .prefixPut left })
  | .prefixCall left k =>
    if k ∈ s.m.toks.map Tok.id then none else some (s.setJob n { job with stage := .prefixPut left })
  | .prefixPut left => (s.put n).map fun t => t.setJob n { job with stage := .prefixes left }
  | .replyGot =>
    if ok ∧ (a.replyArgv job.count).length ≤ argcMax then
      (s.add n).map fun t => t.setJob n { job with stage := .replyPut (some s.m.reqs.length) }
    else some (s.setJob n { job with stage := .replyPut none })
  | .replyPut (some k) => (s.put n).map fun t => t.setJob n { job with stage := .replied k }
  | .replyPut none => (s.put n).map fun t => t.setJob n { job with stage := .freeing }
  | .freeing => some (s.setJob n { job with stage := .freed })
  | .replied _ | .freed => none

def step (host : Endian) (s : DnsSt) : DnsAct → Option DnsSt
  | .mach a =>
    if s.allows a then (s.m.step a).map fun m => { s with m := m, owners := ownersAfter s.owners a } else none
  | .request j r => match protResolveHostAsyncArgs r, s.m.holders[j]?, s.owners[j]? with
    | .ok argv, some p, some none => (s.m.step (.add j none none)).map fun m =>
      { s with m := m, jobs := s.jobs ++ [⟨p, s.m.reqs.length, r, argv, r.array, 0, .queued, [], none⟩] }
    | _, _, _ => none
  | .lookup n h => (s.jobs[n]?).bind fun job => match job.stage, unpack job.argv with
    | .queued, some a =>
      if running s.m job.p = some job.id then
        let res := a.resolve host h job.array
        some (s.setJob n
          { job with array := res.2, count := res.1, stage := .prefixes (v6Addrs res.1 res.2), answer := some h })
      else none
    | _, _ => none
  | .go n ok => (s.jobs[n]?).bind fun job => (unpack job.argv).bind fun a =>
    if running s.m job.p = some job.id then s.goJob n job a ok else none

end DnsSt

end Dns

end Aosl
