import Aosl.Dns
import Aosl.MpqDonePlain

/-!
# Every lookup calls back once

A lookup is on the stack of the pool's thread from the moment `____dns_resolve_host` is called, and the guard of `DnsSt`
keeps it there until it has returned (`JobOk.during`). So what is known of the functions of `DoneSt` says where the
callback is: still to be queued, a function of the requester's queue, or called to free.
-/

namespace Aosl
open Lib

namespace Dns

open Ipv6 SkAddr

/-! ### The lookup -/

/-- The element of the array for an answer of the HAL. -/
def infoOf (host : Endian) (port : BitVec 16) (sockType prot : Nat) (addr : HalSockaddr) : SkAddrinfo :=
  ⟨addr.saFamily, sockType, prot, { addr with saPort := aoslHtons host port }⟩

theorem hostLoop_resolved (host : Endian) (port : BitVec 16) (sockType prot addrCount : Nat) (l : List HalSockaddr)
    (count : Nat) (addrs : List SkAddrinfo) (hc : count ≤ addrCount % 4294967296) (hle : addrCount ≤ addrs.length) :
    hostLoop host port (resolvedAnAddr sockType prot addrCount) l count addrs =
      (count + min l.length (addrCount % 4294967296 - count),
        addrs.take count ++ (l.take (addrCount % 4294967296 - count)).map (infoOf host port sockType prot) ++
          addrs.drop (count + min l.length (addrCount % 4294967296 - count))) := by
  have hmod : addrCount % 4294967296 ≤ addrs.length := (Nat.mod_le _ _).trans hle
  induction l generalizing count addrs with
  | nil => simp [hostLoop]
  | cons addr l ih =>
    by_cases hlt : count < addrCount % 4294967296
    · have hset : count < addrs.length := Nat.lt_of_lt_of_le hlt hmod
      obtain ⟨n, hn⟩ : ∃ n, addrCount % 4294967296 - count = n + 1 := ⟨addrCount % 4294967296 - count - 1, by omega⟩
      have hn' : addrCount % 4294967296 - (count + 1) = n := by omega
      have hmin : count + min (l.length + 1) (n + 1) = count + 1 + min l.length n := by omega
      simp only [hostLoop, resolvedAnAddr, if_pos hlt]
      rw [if_neg (by decide), if_neg (by decide), ih (count + 1) _ hlt (by rwa [List.length_set])
        (by rwa [List.length_set]), hn', hn, List.length_cons, hmin, List.take_succ_cons, List.map_cons,
        List.drop_set_of_lt (by omega)]
      have htake : (addrs.set count (infoOf host port sockType prot addr)).take (count + 1) =
          addrs.take count ++ [infoOf host port sockType prot addr] := by
        rw [List.take_add_one, List.take_set_of_le (Nat.le_refl _), getElem?_set_self (List.getElem?_eq_getElem hset)]
        rfl
      change (_, List.take (count + 1) (addrs.set count (infoOf host port sockType prot addr)) ++ _ ++ _) = _
      rw [htake, List.append_assoc (addrs.take count), List.singleton_append]
    · have hcount : addrCount % 4294967296 - count = 0 := by omega
      simp only [hostLoop, resolvedAnAddr, if_neg hlt]
      rw [if_pos (by decide), hcount]
      simp

/-- What a request asks for. -/
def DnsReq.locals (r : DnsReq) : ResolveArgs :=
  ⟨r.hostname, r.port, r.skType, r.skProt, r.addrs, r.array.length, r.q, r.f, r.args⟩

theorem unpack_argv {r : DnsReq} {argv : List Nat} (h : protResolveHostAsyncArgs r = .ok argv) :
    unpack argv = some r.locals ∧ 9 + r.args.length ≤ argcMax := by
  unfold protResolveHostAsyncArgs at h
  split_ifs at h with hargs
  simp only at h
  split_ifs at h with hlen
  cases h
  refine ⟨?_, ?_⟩
  · simp [unpack, DnsReq.locals]
  · simp only [List.length_append, List.length_cons, List.length_nil] at hlen
    omega

/-- The array has the addresses of the HAL's answer, as far as there is room, and is otherwise as it was. -/
structure Job.Resolved (host : Endian) (job : Job) (h : HalAnswer) : Prop where
  count : job.count = min (min h.rescnt.toNat 8) (job.req.array.length % 4294967296)
  array : job.array = (h.addrs.toList.take job.count).map (infoOf host job.req.port job.req.skType job.req.skProt) ++
    job.req.array.drop job.count

theorem resolve_locals (host : Endian) (r : DnsReq) (h : HalAnswer) :
    r.locals.resolve host h r.array = (min (min h.rescnt.toNat 8) (r.array.length % 4294967296),
      (h.addrs.toList.take (min (min h.rescnt.toNat 8) (r.array.length % 4294967296))).map
        (infoOf host r.port r.skType r.skProt) ++
        r.array.drop (min (min h.rescnt.toNat 8) (r.array.length % 4294967296))) := by
  rw [ResolveArgs.resolve, vhostbynameTimedDo, DnsReq.locals, hostLoop_resolved _ _ _ _ _ _ _ _ (Nat.zero_le _) le_rfl]
  simp only [List.length_take, Vector.length_toList, Nat.zero_add, Nat.sub_zero, List.take_zero, List.nil_append,
    List.take_take, Nat.min_comm h.rescnt.toNat]
  have htake : h.addrs.toList.take (min (r.array.length % 4294967296) h.rescnt.toNat) =
      h.addrs.toList.take (min (min 8 h.rescnt.toNat) (r.array.length % 4294967296)) := by
    rw [List.take_eq_take_iff, Vector.length_toList]
    omega
  rw [htake]

/-! ### The invariant of a lookup -/

/-- The thread of the pool's queue is in `____dns_resolve_host`. -/
def Job.Runs (m : DoneSt) (job : Job) : Prop :=
  ∃ q fo robj, m.qs[job.p]? = some q ∧ Invoke.run fo robj ∈ q.stack ∧ fo.id = job.id

structure JobOk (host : Endian) (m : DoneSt) (job : Job) : Prop where
  argv : protResolveHostAsyncArgs job.req = .ok job.argv
  own : m.Plain job.id job.p
  calls : ∀ k a6, (some k, a6) ∈ job.prefixFs →
    m.Plain k job.req.q ∧ (hist m.log k = [] → ∃ left, job.stage = .prefixCall left k)
  waits : ∀ left k, job.stage = .prefixCall left k → m.Plain k job.req.q
  reply : ∀ k, job.stage.reply = some k → m.Plain k job.req.q
  before : hist m.log job.id = [] → job.stage = .queued
  during : hist m.log job.id ≠ [] → job.stage.returned = false → job.Runs m
  asked : job.stage = .queued → job.array = job.req.array
  resolved : job.stage ≠ .queued → ∃ h, job.answer = some h ∧ job.Resolved host h

variable {host : Endian} {m m' : DoneSt} {job job' : Job} {n k : Nat}

/-- A step of the queues that is not a step of the thread in `____dns_resolve_host`. -/
theorem JobOk.step {a : DoneAct} (h : JobOk host m job) (hp : m.ProtoInv) (hp' : m'.ProtoInv) (hs : m.step a = some m')
    (hgo : ∀ i, a = .go i → running m i ≠ some job.id ∨ job.stage.returned = true) : JobOk host m' job := by
  have hnil : ∀ k, hist m'.log k = [] → hist m.log k = [] := by
    intro k hk
    have hpre := DoneSt.hist_step hs k
    rw [hk] at hpre
    exact List.prefix_nil.1 hpre
  refine ⟨h.argv, h.own.step hp hs, ?_, ?_, ?_, fun he => h.before (hnil _ he), ?_, h.asked, h.resolved⟩
  · intro k a6 hk
    obtain ⟨hplain, hcall⟩ := h.calls k a6 hk
    exact ⟨hplain.step hp hs, fun he => hcall (hnil k he)⟩
  · exact fun left k hk => (h.waits left k hk).step hp hs
  · exact fun k hk => (h.reply k hk).step hp hs
  · intro hne hret
    by_cases he : hist m.log job.id = []
    · obtain ⟨i, q, fo, robj, rest, hq, hst, hid⟩ := DoneSt.called_step hp hs he hne
      have hmem : Invoke.run fo robj ∈ q.stack := hst ▸ List.mem_cons_self
      have hi := (h.own.step hp hs).queue_eq hp' hq hmem hid
      exact ⟨q, fo, robj, hi ▸ hq, hmem, hid⟩
    · obtain ⟨q, fo, robj, hq, hfr, hid⟩ := h.during he hret
      have hhead : a = .go job.p → q.stack.head? ≠ some (.run fo robj) := by
        intro ha htop
        obtain ⟨rest, hst⟩ := List.head?_eq_some_iff.1 htop
        rcases hgo job.p ha with hne | hr
        · refine hne ?_
          simp [running, hq, hst, hid]
        · rw [hret] at hr
          cases hr
      obtain ⟨q', hq', hfr'⟩ := DoneSt.frame_step hq hfr hhead hs
      exact ⟨q', fo, robj, hq', hfr', hid⟩

theorem JobOk.goto (h : JobOk host m job) {stage : Stage} (hq : job.stage ≠ .queued) (hr : job.stage.returned = false)
    (hst : stage ≠ .queued) (hw : ∀ left k, stage ≠ .prefixCall left k)
    (hreply : ∀ k, stage.reply = some k → m.Plain k job.req.q)
    (hcall : ∀ left k, job.stage = .prefixCall left k → hist m.log k ≠ []) :
    JobOk host m { job with stage := stage } := by
  refine ⟨h.argv, h.own, ?_, fun left k hk => absurd hk (hw left k), hreply, fun he => absurd (h.before he) hq, ?_,
    fun he => absurd he hst, ?_⟩
  · intro k a6 hk
    obtain ⟨hplain, hc⟩ := h.calls k a6 hk
    refine ⟨hplain, fun he => ?_⟩
    obtain ⟨left, hl⟩ := hc he
    exact absurd he (hcall left k hl)
  · exact fun hne _ => h.during hne hr
  · intro _
    obtain ⟨x, hans, hx⟩ := h.resolved hq
    exact ⟨x, hans, hx.count, hx.array⟩

/-- A function that sets the prefix is queued, or called at once. -/
theorem JobOk.call (h : JobOk host m job) {a6 : Vector UInt8 16} {left : List (Vector UInt8 16)} {o : Option Nat}
    {stage : Stage} (hgot : job.stage = .prefixGot a6 left) (hst : stage = match o with
      | some k => .prefixCall left k
      | none => .prefixPut left) (ho : ∀ k, o = some k → m.Plain k job.req.q) :
    JobOk host m { job with stage := stage, prefixFs := job.prefixFs ++ [(o, a6)] } := by
  have hq : job.stage ≠ .queued := by rw [hgot]; nofun
  have hreply : stage.reply = none ∧ stage ≠ .queued := by
    rw [hst]
    split <;> exact ⟨rfl, nofun⟩
  refine ⟨h.argv, h.own, ?_, ?_, ?_, fun he => absurd (h.before he) hq, ?_, fun he => absurd he hreply.2, ?_⟩
  · intro k x hk
    rcases List.mem_append.1 hk with hk | hk
    · obtain ⟨hplain, hc⟩ := h.calls k x hk
      refine ⟨hplain, fun he => ?_⟩
      obtain ⟨left', hl⟩ := hc he
      cases hgot.symm.trans hl
    · cases List.mem_singleton.1 hk
      exact ⟨ho k rfl, fun _ => ⟨left, hst⟩⟩
  · intro left' k hk
    rcases o with _ | k'
    · cases hst.symm.trans hk
    · cases hst.symm.trans hk
      exact ho _ rfl
  · intro k hk
    cases hreply.1.symm.trans hk
  · exact fun hne _ => h.during hne (by rw [hgot]; rfl)
  · intro _
    obtain ⟨x, hans, hx⟩ := h.resolved hq
    exact ⟨x, hans, hx.count, hx.array⟩

theorem JobOk.lookup (h : JobOk host m job) (hq : job.stage = .queued) (hne : hist m.log job.id ≠ []) (x : HalAnswer)
    {stage : Stage} (hst : stage ≠ .queued) (hw : ∀ left k, stage ≠ .prefixCall left k) (hreply : stage.reply = none) :
    JobOk host m { job with
      array := (job.req.locals.resolve host x job.array).2
      count := (job.req.locals.resolve host x job.array).1
      stage := stage
      answer := some x } := by
  refine ⟨h.argv, h.own, ?_, fun left k hk => absurd hk (hw left k), ?_, fun he => absurd he hne, ?_,
    fun he => absurd he hst, ?_⟩
  · intro k a6 hk
    obtain ⟨hplain, hc⟩ := h.calls k a6 hk
    refine ⟨hplain, fun he => ?_⟩
    obtain ⟨left, hl⟩ := hc he
    cases hq.symm.trans hl
  · intro k hk
    cases hreply.symm.trans hk
  · exact fun _ _ => h.during hne (by rw [hq]; rfl)
  · intro _
    rw [h.asked hq, resolve_locals]
    exact ⟨x, rfl, rfl, rfl⟩

/-! ### Who has which queue -/

/-- Each lookup has the requester's queue once, while it uses it. -/
structure Owned (owners : List (Option Nat)) (holders : List Nat) (jobs : List Job) : Prop where
  len : owners.length = holders.length
  own : ∀ j n : Nat, owners[j]? = some (some n) → ∃ job : Job, jobs[n]? = some job ∧ holders[j]? = some job.req.q
  count : ∀ (n : Nat) (job : Job), jobs[n]? = some job → owners.count (some n) = job.stage.holds.toNat

namespace Owned

variable {owners : List (Option Nat)} {holders : List Nat} {jobs : List Job} {i j d : Nat} {o : Option Nat}

theorem own_set (h : Owned owners holders jobs) (hj : jobs[n]? = some job) (hreq : job'.req = job.req)
    (ho : owners[j]? = some (some i)) : ∃ x : Job, (jobs.set n job')[i]? = some x ∧ holders[j]? = some x.req.q := by
  obtain ⟨x, hx, hq⟩ := h.own j i ho
  by_cases hi : n = i
  · subst hi
    cases hj.symm.trans hx
    exact ⟨job', getElem?_set_self hj, by rw [hreq, hq]⟩
  · exact ⟨x, by rw [getElem?_set_ne hi, hx], hq⟩

theorem set (h : Owned owners holders jobs) (hj : jobs[n]? = some job) (hreq : job'.req = job.req)
    (hh : job'.stage.holds = job.stage.holds) : Owned owners holders (jobs.set n job') := by
  refine ⟨h.len, fun j i ho => h.own_set hj hreq ho, ?_⟩
  intro i x hx
  rcases getElem?_set_cases hx with ⟨rfl, rfl⟩ | ⟨-, hx⟩
  · rw [hh]
    exact h.count i job hj
  · exact h.count i x hx

theorem get (h : Owned owners holders jobs) (hj : jobs[n]? = some job) (hreq : job'.req = job.req)
    (hh : job.stage.holds = false) (hh' : job'.stage.holds = true) :
    Owned (owners ++ [some n]) (holders ++ [job.req.q]) (jobs.set n job') := by
  refine ⟨by rw [List.length_append, List.length_append, h.len]; rfl, ?_, ?_⟩
  · intro j i ho
    rcases getElem?_concat_cases ho with ⟨hlt, ho⟩ | ⟨rfl, he⟩
    · rw [List.getElem?_append_left (h.len ▸ hlt)]
      exact h.own_set hj hreq ho
    · cases he
      rw [h.len, List.getElem?_concat_length]
      exact ⟨job', getElem?_set_self hj, by rw [hreq]⟩
  · intro i x hx
    rw [List.count_append]
    rcases getElem?_set_cases hx with ⟨rfl, rfl⟩ | ⟨hne, hx⟩
    · rw [h.count i job hj, hh, hh', List.count_singleton_self]
      rfl
    · rw [h.count i x hx, List.count_singleton, if_neg (by simpa using Ne.symm hne)]
      rfl

theorem own_erase (holders : List Nat) (ho : (owners.eraseIdx j)[i]? = some (some n)) :
    ∃ i' : Nat, owners[i']? = some (some n) ∧ (holders.eraseIdx j)[i]? = holders[i']? := by
  rw [List.getElem?_eraseIdx] at ho ⊢
  split_ifs at ho ⊢
  · exact ⟨i, ho, rfl⟩
  · exact ⟨i + 1, ho, rfl⟩

theorem put (h : Owned owners holders jobs) (hj : jobs[n]? = some job) (hreq : job'.req = job.req)
    (hh : job.stage.holds = true) (hh' : job'.stage.holds = false) :
    Owned (owners.eraseIdx (owners.idxOf (some n))) (holders.eraseIdx (owners.idxOf (some n))) (jobs.set n job') := by
  have hcount := h.count n job hj
  rw [hh] at hcount
  have hmem : some n ∈ owners := List.count_pos_iff.1 (by rw [hcount]; exact Nat.one_pos)
  obtain ⟨A, B, hA, -, hB⟩ := exists_split (List.getElem?_idxOf hmem)
  refine ⟨by rw [List.length_eraseIdx, List.length_eraseIdx, h.len], ?_, ?_⟩
  · intro j i ho
    obtain ⟨j', ho', hq⟩ := own_erase holders ho
    rw [hq]
    exact h.own_set hj hreq ho'
  · intro i x hx
    have hsplit : owners.count (some i) =
        (owners.eraseIdx (owners.idxOf (some n))).count (some i) + if n = i then 1 else 0 := by
      rw [hB]
      conv_lhs => rw [hA]
      rw [List.count_append, List.count_append, List.count_cons]
      simp only [beq_iff_eq, Option.some.injEq]
      omega
    rcases getElem?_set_cases hx with ⟨rfl, rfl⟩ | ⟨hne, hx⟩
    · rw [if_pos rfl, hcount] at hsplit
      rw [hh']
      change 1 = _ + 1 at hsplit
      exact (Nat.add_right_cancel (m := 1) hsplit.symm)
    · rw [if_neg (Ne.symm hne), h.count i x hx] at hsplit
      exact hsplit.symm

theorem place (h : Owned owners holders jobs) (hj : jobs[n]? = some job) (hh : job.stage.holds = true) :
    holders[owners.idxOf (some n)]? = some job.req.q := by
  have hcount := h.count n job hj
  rw [hh] at hcount
  have hmem : some n ∈ owners := List.count_pos_iff.1 (by rw [hcount]; exact Nat.one_pos)
  obtain ⟨x, hx, hq⟩ := h.own _ n (List.getElem?_idxOf hmem)
  cases hj.symm.trans hx
  exact hq

theorem concat (h : Owned owners holders jobs) (hh : job.stage.holds = false) :
    Owned owners holders (jobs ++ [job]) := by
  refine ⟨h.len, ?_, ?_⟩
  · intro j i ho
    obtain ⟨x, hx, hq⟩ := h.own j i ho
    exact ⟨x, by rw [List.getElem?_append_left (List.getElem?_eq_some_iff.1 hx).1, hx], hq⟩
  · intro i x hx
    rcases getElem?_concat_cases hx with ⟨-, hx⟩ | ⟨rfl, rfl⟩
    · exact h.count i x hx
    · rw [hh]
      refine List.count_eq_zero.2 fun hmem => ?_
      obtain ⟨j, hjo⟩ := List.mem_iff_getElem?.1 hmem
      obtain ⟨y, hy, -⟩ := h.own j _ hjo
      rw [List.getElem?_eq_none (Nat.le_refl _)] at hy
      cases hy

theorem lend (h : Owned owners holders jobs) : Owned (owners ++ [none]) (holders ++ [d]) jobs := by
  refine ⟨by rw [List.length_append, List.length_append, h.len]; rfl, ?_, ?_⟩
  · intro j i ho
    rcases getElem?_concat_cases ho with ⟨hlt, ho⟩ | ⟨-, he⟩
    · rw [List.getElem?_append_left (h.len ▸ hlt)]
      exact h.own j i ho
    · cases he
  · intro i x hx
    rw [List.count_append, h.count i x hx, List.count_singleton, if_neg (by simp)]
    rfl

theorem drop (h : Owned owners holders jobs) (hj : owners[j]? = some none) :
    Owned (owners.eraseIdx j) (holders.eraseIdx j) jobs := by
  obtain ⟨A, B, hA, -, hB⟩ := exists_split hj
  refine ⟨by rw [List.length_eraseIdx, List.length_eraseIdx, h.len], ?_, ?_⟩
  · intro i k ho
    obtain ⟨i', ho', hq⟩ := own_erase holders ho
    rw [hq]
    exact h.own i' k ho'
  · intro i x hx
    rw [← h.count i x hx, hB]
    conv_rhs => rw [hA]
    rw [List.count_append, List.count_append, List.count_cons, if_neg (by simp)]
    rfl

end Owned

/-! ### The invariant -/

theorem JobOk.lt_length (h : JobOk host m job) (hk : k ∈ job.fns) : k < m.reqs.length := by
  rcases List.mem_cons.1 hk with rfl | hk
  · exact h.own.lt_length
  · rcases List.mem_append.1 hk with hk | hk
    · obtain ⟨⟨o, a6⟩, hmem, ho⟩ := List.mem_filterMap.1 hk
      cases ho
      exact (h.calls k a6 hmem).1.lt_length
    · exact (h.reply k (Option.mem_toList.1 hk)).lt_length

structure DnsInv (host : Endian) (s : DnsSt) : Prop where
  proto : s.m.ProtoInv
  hold : s.m.HoldInv
  jobs : ∀ job ∈ s.jobs, JobOk host s.m job
  owned : Owned s.owners s.m.holders s.jobs
  nodup : ((s.jobs.map Job.fns).flatten).Nodup

theorem called_of_running (hp : m.ProtoInv) {i : Nat} (h : running m i = some k) : hist m.log k ≠ [] := by
  obtain ⟨q, hq, h⟩ := Option.bind_eq_some_iff.1 h
  split at h
  · rename_i fo robj rest hst
    cases h
    obtain ⟨r, -, h', -, hh⟩ := hp.ok (.ran i fo robj)
      (DoneSt.mem_toks_of_frame hq (hst ▸ List.mem_cons_self) rfl)
    intro he
    simpa using hh.symm.trans he
  · cases h

namespace DnsInv

variable {s t : DnsSt} {st st' : Stage}

/-- A lookup and perhaps the queues change; `l` are new functions. -/
theorem set (h : DnsInv host s) (hj : s.jobs[n]? = some job) {owners : List (Option Nat)} {l : List Nat}
    (hm : m' = s.m ∨ ∃ a, s.m.step a = some m' ∧ ∀ i, a ≠ .go i)
    (hok : m'.ProtoInv → JobOk host m' job → JobOk host m' job') (ho : Owned owners m'.holders (s.jobs.set n job'))
    (hf : job'.fns.Perm (l ++ job.fns)) (hl : l.Nodup ∧ ∀ k ∈ l, s.m.reqs.length ≤ k) :
    DnsInv host ⟨m', owners, s.jobs.set n job'⟩ := by
  have hm' : m'.ProtoInv ∧ m'.HoldInv ∧ ∀ x ∈ s.jobs, JobOk host m' x := by
    rcases hm with rfl | ⟨a, hs, ha⟩
    · exact ⟨h.proto, h.hold, h.jobs⟩
    · have hp := h.proto.step h.hold hs
      exact ⟨hp, h.hold.step hs, fun x hx => (h.jobs x hx).step h.proto hp hs fun i hi => absurd hi (ha i)⟩
  refine ⟨hm'.1, hm'.2.1, ?_, ho, ?_⟩
  · intro x hx
    rcases List.mem_or_eq_of_mem_set hx with hx | rfl
    · exact hm'.2.2 x hx
    · exact hok hm'.1 (hm'.2.2 job (List.mem_of_getElem? hj))
  · have hj' : (s.jobs.map Job.fns)[n]? = some job.fns := by rw [List.getElem?_map, hj]; rfl
    obtain ⟨R, hp, hset⟩ := flatten_set_perm hj'
    have hnew : (l ++ (s.jobs.map Job.fns).flatten).Nodup := by
      refine List.nodup_append'.2 ⟨hl.1, h.nodup, ?_⟩
      intro k hk hk'
      obtain ⟨x, hx, hkx⟩ := List.mem_flatten.1 hk'
      obtain ⟨y, hy, rfl⟩ := List.mem_map.1 hx
      exact Nat.lt_irrefl _ (Nat.lt_of_lt_of_le ((h.jobs y hy).lt_length hkx) (hl.2 k hk))
    rw [List.map_set, (hset job'.fns).nodup_iff, (hf.append_right R).nodup_iff, List.append_assoc,
      ← (hp.append_left l).nodup_iff]
    exact hnew

theorem restage (h : DnsInv host s) (hj : s.jobs[n]? = some job) {owners : List (Option Nat)} (hst : job.stage = st)
    (hq : st ≠ .queued) (hq' : st' ≠ .queued) (hw : ∀ left k, st' ≠ .prefixCall left k) (hr : st.returned = false)
    (hreply : st'.reply = st.reply) (hm : m' = s.m ∨ ∃ a, s.m.step a = some m' ∧ ∀ i, a ≠ .go i)
    (hcall : ∀ left k, st = .prefixCall left k → hist m'.log k ≠ [])
    (ho : Owned owners m'.holders (s.jobs.set n { job with stage := st' })) :
    DnsInv host ⟨m', owners, s.jobs.set n { job with stage := st' }⟩ := by
  subst hst
  refine h.set hj hm (fun _ hok => hok.goto hq hr hq' hw (fun k hk => ?_) hcall) ho (l := []) ?_ ⟨List.nodup_nil, nofun⟩
  · exact hok.reply k (hreply ▸ hk)
  · simp only [Job.fns, hreply, List.nil_append]
    exact .refl _

theorem goto (h : DnsInv host s) (hj : s.jobs[n]? = some job) (hst : job.stage = st) (hq : st ≠ .queued)
    (hq' : st' ≠ .queued) (hw : ∀ left k, st' ≠ .prefixCall left k) (hr : st.returned = false)
    (hreply : st'.reply = st.reply) (hh : st'.holds = st.holds)
    (hcall : ∀ left k, st = .prefixCall left k → hist s.m.log k ≠ []) :
    DnsInv host (s.setJob n { job with stage := st' }) :=
  h.restage hj hst hq hq' hw hr hreply (.inl rfl) hcall (h.owned.set hj rfl (by rw [hst, hh]))

theorem get (h : DnsInv host s) (hj : s.jobs[n]? = some job) (hst : job.stage = st) (hq : st ≠ .queued)
    (hq' : st' ≠ .queued) (hw : ∀ left k, st' ≠ .prefixCall left k) (hr : st.returned = false)
    (hreply : st'.reply = st.reply) (hh : st.holds = false) (hh' : st'.holds = true)
    (hs : s.get n job.req.q = some t) : DnsInv host (t.setJob n { job with stage := st' }) := by
  obtain ⟨m', hm, rfl⟩ := Option.map_eq_some_iff.1 hs
  have hold : m'.holders = s.m.holders ++ [job.req.q] := DoneSt.holders_step hm
  refine h.restage hj hst hq hq' hw hr hreply (.inr ⟨_, hm, nofun⟩) ?_ ?_
  · rintro left k rfl
    cases hh
  · rw [hold]
    exact h.owned.get hj rfl (hst ▸ hh) hh'

theorem put (h : DnsInv host s) (hj : s.jobs[n]? = some job) (hst : job.stage = st) (hq : st ≠ .queued)
    (hq' : st' ≠ .queued) (hw : ∀ left k, st' ≠ .prefixCall left k) (hr : st.returned = false)
    (hreply : st'.reply = st.reply) (hh : st.holds = true) (hh' : st'.holds = false)
    (hcall : ∀ left k, st ≠ .prefixCall left k) (hs : s.put n = some t) :
    DnsInv host (t.setJob n { job with stage := st' }) := by
  obtain ⟨m', hm, rfl⟩ := Option.map_eq_some_iff.1 hs
  have hold : m'.holders = s.m.holders.eraseIdx (s.owners.idxOf (some n)) := DoneSt.holders_step hm
  refine h.restage hj hst hq hq' hw hr hreply (.inr ⟨_, hm, nofun⟩) (fun left k hc => absurd hc (hcall left k)) ?_
  rw [hold]
  exact h.owned.put hj rfl (hst ▸ hh) hh'

theorem added (h : DnsInv host s) (hj : s.jobs[n]? = some job) (hh : job.stage.holds = true) (hs : s.add n = some t) :
    ∃ m', s.m.step (.add (s.owners.idxOf (some n)) none none) = some m' ∧ t = { s with m := m' } ∧
      m'.holders = s.m.holders ∧ m'.Plain s.m.reqs.length job.req.q := by
  obtain ⟨m', hm, rfl⟩ := Option.map_eq_some_iff.1 hs
  exact ⟨m', hm, rfl, DoneSt.holders_step hm, .add h.proto (h.owned.place hj hh) hm⟩

theorem goJob {ok : Bool} (h : DnsInv host s) (hj : s.jobs[n]? = some job)
    (hs : s.goJob n job job.req.locals ok = some t) : DnsInv host t := by
  unfold DnsSt.goJob at hs
  split at hs
  · cases hs
  · rename_i hst
    split at hs
    · rename_i t' hget
      cases hs
      exact h.get hj hst nofun nofun nofun rfl rfl rfl rfl hget
    · cases hs
      exact h.goto hj hst nofun nofun nofun rfl rfl rfl nofun
  · rename_i a6 left hst
    split at hs
    · rename_i t' hget
      cases hs
      exact h.get hj hst nofun nofun nofun rfl rfl rfl rfl hget
    · cases hs
      exact h.goto hj hst nofun nofun nofun rfl rfl rfl nofun
  · rename_i a6 left hst
    split_ifs at hs
    · cases hs
      refine h.set hj (.inl rfl) (fun _ hok => hok.call hst rfl nofun) (h.owned.set hj rfl ?_) (l := []) ?_ ?_
      · rw [hst]
        rfl
      · simp [Job.fns, hst, Stage.reply]
      · exact ⟨List.nodup_nil, nofun⟩
    · obtain ⟨t', hadd, rfl⟩ := Option.map_eq_some_iff.1 hs
      obtain ⟨m', hm, rfl, hold, hplain⟩ := h.added hj (by rw [hst]; rfl) hadd
      refine h.set hj (.inr ⟨_, hm, nofun⟩) (fun _ hok => hok.call hst rfl ?_) ?_ (l := [s.m.reqs.length]) ?_ ?_
      · rintro k ⟨⟩
        exact hplain
      · rw [hold]
        exact h.owned.set hj rfl (by rw [hst]; rfl)
      · simp only [Job.fns, hst, Stage.reply, List.filterMap_append, List.filterMap_cons, List.filterMap_nil,
          Option.toList_none, List.append_nil]
        exact (List.perm_append_singleton _ _).cons _ |>.trans (.swap _ _ _)
      · exact ⟨List.nodup_singleton _, fun k hk => by rw [List.mem_singleton.1 hk]⟩
    · cases hs
      exact h.goto hj hst nofun nofun nofun rfl rfl rfl nofun
  · rename_i left k hst
    split_ifs at hs with hk
    cases hs
    refine h.goto hj hst nofun nofun nofun rfl rfl rfl ?_
    rintro _ _ ⟨⟩
    have hplain := (h.jobs job (List.mem_of_getElem? hj)).waits left k hst
    rw [hplain.hist_of_done h.proto hk]
    nofun
  · rename_i left hst
    obtain ⟨t', hput, rfl⟩ := Option.map_eq_some_iff.1 hs
    exact h.put hj hst nofun nofun nofun rfl rfl rfl rfl nofun hput
  · rename_i hst
    split_ifs at hs
    · obtain ⟨t', hadd, rfl⟩ := Option.map_eq_some_iff.1 hs
      obtain ⟨m', hm, rfl, hold, hplain⟩ := h.added hj (by rw [hst]; rfl) hadd
      have hq : job.stage ≠ .queued ∧ job.stage.returned = false := by
        rw [hst]
        exact ⟨nofun, rfl⟩
      refine h.set hj (.inr ⟨_, hm, nofun⟩) (fun _ hok => hok.goto hq.1 hq.2 nofun nofun ?_ ?_) ?_
        (l := [s.m.reqs.length]) ?_ ?_
      · rintro k ⟨⟩
        exact hplain
      · intro left k hc
        cases hst.symm.trans hc
      · rw [hold]
        exact h.owned.set hj rfl (by rw [hst]; rfl)
      · simp only [Job.fns, hst, Stage.reply, Option.toList_none, List.append_nil, Option.toList_some]
        exact (List.perm_append_singleton _ _).cons _ |>.trans (.swap _ _ _)
      · exact ⟨List.nodup_singleton _, fun k hk => by rw [List.mem_singleton.1 hk]⟩
    · cases hs
      exact h.goto hj hst nofun nofun nofun rfl rfl rfl nofun
  · rename_i k hst
    obtain ⟨t', hput, rfl⟩ := Option.map_eq_some_iff.1 hs
    exact h.put hj hst nofun nofun nofun rfl rfl rfl rfl nofun hput
  · rename_i hst
    obtain ⟨t', hput, rfl⟩ := Option.map_eq_some_iff.1 hs
    exact h.put hj hst nofun nofun nofun rfl rfl rfl rfl nofun hput
  · rename_i hst
    cases hs
    exact h.goto hj hst nofun nofun nofun rfl rfl rfl nofun
  · cases hs
  · cases hs

theorem mach {a : DoneAct} (h : DnsInv host s) (ha : s.allows a = true) (hs : s.m.step a = some m') :
    DnsInv host { s with m := m', owners := DnsSt.ownersAfter s.owners a } := by
  have hp := h.proto.step h.hold hs
  refine ⟨hp, h.hold.step hs, ?_, ?_, h.nodup⟩
  · intro job hjob
    refine (h.jobs job hjob).step h.proto hp hs ?_
    rintro i rfl
    simpa using List.all_eq_true.1 ha job hjob
  · have hold := DoneSt.holders_step hs
    change Owned (DnsSt.ownersAfter s.owners a) m'.holders s.jobs
    rw [hold]
    rcases a
    case get d => exact h.owned.lend
    case put j => exact h.owned.drop (of_decide_eq_true ha)
    all_goals exact h.owned

theorem request {j p : Nat} {r : DnsReq} {argv : List Nat} (h : DnsInv host s)
    (hargv : protResolveHostAsyncArgs r = .ok argv) (hp : s.m.holders[j]? = some p)
    (hs : s.m.step (.add j none none) = some m') :
    DnsInv host { s with m := m', jobs := s.jobs ++ [⟨p, s.m.reqs.length, r, argv, r.array, 0, .queued, [], none⟩] } := by
  have hproto := h.proto.step h.hold hs
  have hold : m'.holders = s.m.holders := DoneSt.holders_step hs
  have hplain := DoneSt.Plain.add h.proto hp hs
  refine ⟨hproto, h.hold.step hs, ?_, ?_, ?_⟩
  · intro job hjob
    rcases List.mem_append.1 hjob with hjob | hjob
    · exact (h.jobs job hjob).step h.proto hproto hs nofun
    · cases List.mem_singleton.1 hjob
      refine ⟨hargv, hplain, nofun, nofun, nofun, fun _ => rfl, ?_, fun _ => rfl, fun he => absurd rfl he⟩
      intro hne
      refine absurd ?_ hne
      rw [List.eq_nil_iff_forall_not_mem]
      intro ev hev
      have hlog : m'.log = s.m.log := by
        simp only [DoneSt.step, hp] at hs
        cases hs
        rfl
      rw [DoneSt.mem_hist, hlog] at hev
      exact Nat.lt_irrefl _ (h.proto.old _ hev)
  · change Owned s.owners m'.holders _
    rw [hold]
    exact h.owned.concat rfl
  · change (((s.jobs ++ [_]).map Job.fns).flatten).Nodup
    rw [List.map_append, List.flatten_append]
    refine List.nodup_append'.2 ⟨h.nodup, List.nodup_singleton s.m.reqs.length, ?_⟩
    intro k hk hk'
    cases List.mem_singleton.1 hk'
    obtain ⟨x, hx, hkx⟩ := List.mem_flatten.1 hk
    obtain ⟨y, hy, rfl⟩ := List.mem_map.1 hx
    exact Nat.lt_irrefl _ ((h.jobs y hy).lt_length hkx)

theorem lookup {x : HalAnswer} {left : List (Vector UInt8 16)} (h : DnsInv host s) (hj : s.jobs[n]? = some job)
    (hst : job.stage = .queued) (hrun : running s.m job.p = some job.id) :
    DnsInv host (s.setJob n { job with
      array := (job.req.locals.resolve host x job.array).2
      count := (job.req.locals.resolve host x job.array).1
      stage := .prefixes left
      answer := some x }) := by
  have hne := called_of_running h.proto hrun
  refine h.set hj (.inl rfl) (fun _ hok => hok.lookup hst hne x nofun nofun rfl) (h.owned.set hj rfl ?_) (l := []) ?_ ?_
  · rw [hst]
    rfl
  · simp only [Job.fns, hst, Stage.reply, List.nil_append]
    exact .refl _
  · exact ⟨List.nodup_nil, nofun⟩

theorem step {a : DnsAct} (h : DnsInv host s) (hs : s.step host a = some t) : DnsInv host t := by
  have hunpack : ∀ (n : Nat) (job : Job), s.jobs[n]? = some job → unpack job.argv = some job.req.locals :=
    fun n job hj => (unpack_argv (h.jobs job (List.mem_of_getElem? hj)).argv).1
  rcases a with a | ⟨j, r⟩ | ⟨n, x⟩ | ⟨n, ok⟩
  · simp only [DnsSt.step] at hs
    split_ifs at hs with ha
    obtain ⟨m', hm, rfl⟩ := Option.map_eq_some_iff.1 hs
    exact h.mach ha hm
  · simp only [DnsSt.step] at hs
    split at hs
    · rename_i argv p hargv hp _
      obtain ⟨m', hm, rfl⟩ := Option.map_eq_some_iff.1 hs
      exact h.request hargv hp hm
    · cases hs
  · obtain ⟨job, hj, hs⟩ := Option.bind_eq_some_iff.1 hs
    rw [hunpack n job hj] at hs
    split at hs
    · rename_i hst he
      cases he
      split_ifs at hs with hrun
      cases hs
      exact h.lookup hj hst hrun
    · cases hs
  · obtain ⟨job, hj, hs⟩ := Option.bind_eq_some_iff.1 hs
    rw [hunpack n job hj, Option.bind_some] at hs
    split_ifs at hs
    exact h.goJob hj hs

theorem init : DnsInv host DnsSt.init := by
  refine ⟨DoneSt.inv_init.1, DoneSt.inv_init.2, nofun, ⟨rfl, nofun, nofun⟩, List.nodup_nil⟩

theorem run {as : List DnsAct} (h : DnsInv host s) (hs : exec (DnsSt.step host) s as = some t) : DnsInv host t :=
  exec_invariant_all (I := DnsInv host) (fun _ _ _ h hs => h.step hs) h hs

end DnsInv

/-! ### What a further run leaves as it is -/

/-- A callback is not taken back, and after the lookup nothing is written to the array. -/
structure Job.Keeps (l l' : List (Nat × DoneEv)) (job job' : Job) : Prop where
  req : job'.req = job.req
  calls : job.callbacks l <+: job'.callbacks l'
  array : job.stage ≠ .queued →
    job'.stage ≠ .queued ∧ job'.count = job.count ∧ job'.array = job.array ∧ job'.answer = job.answer

theorem Job.Keeps.trans {l l' l'' : List (Nat × DoneEv)} {x y z : Job} (h : x.Keeps l l' y) (h' : y.Keeps l' l'' z) :
    x.Keeps l l'' z := by
  refine ⟨h'.req.trans h.req, h.calls.trans h'.calls, fun hq => ?_⟩
  obtain ⟨hq', hcount, harray, hans⟩ := h.array hq
  obtain ⟨hq'', hcount', harray', hans'⟩ := h'.array hq'
  exact ⟨hq'', hcount'.trans hcount, harray'.trans harray, hans'.trans hans⟩

theorem Job.Keeps.same {job : Job} {l l' : List (Nat × DoneEv)} (h : ∀ k, hist l k <+: hist l' k) :
    job.Keeps l l' job := by
  refine ⟨rfl, ?_, fun hq => ⟨hq, rfl, rfl, rfl⟩⟩
  unfold Job.callbacks
  split
  · exact h _
  · exact h _
  · exact List.prefix_rfl
  · exact List.prefix_rfl
  · exact List.prefix_rfl

theorem Job.Keeps.goto {job : Job} {l l' : List (Nat × DoneEv)} {st stage : Stage}
    {fs : List (Option Nat × Vector UInt8 16)} (hst : job.stage = st)
    (h : ({ job with stage := st } : Job).callbacks l = []) (hq : stage ≠ .queued) :
    job.Keeps l l' { job with stage := stage, prefixFs := fs } := by
  subst hst
  exact ⟨rfl, h ▸ List.nil_prefix, fun _ => ⟨hq, rfl, rfl, rfl⟩⟩

variable {s t : DnsSt}

theorem DnsSt.get_jobs {q : Nat} (h : s.get n q = some t) : t.jobs = s.jobs ∧ ∃ b, s.m.step b = some t.m := by
  obtain ⟨m', hm, rfl⟩ := Option.map_eq_some_iff.1 h
  exact ⟨rfl, _, hm⟩

theorem DnsSt.add_jobs (h : s.add n = some t) : t.jobs = s.jobs ∧ ∃ b, s.m.step b = some t.m := by
  obtain ⟨m', hm, rfl⟩ := Option.map_eq_some_iff.1 h
  exact ⟨rfl, _, hm⟩

theorem DnsSt.put_jobs (h : s.put n = some t) : t.jobs = s.jobs ∧ ∃ b, s.m.step b = some t.m := by
  obtain ⟨m', hm, rfl⟩ := Option.map_eq_some_iff.1 h
  exact ⟨rfl, _, hm⟩

/-- What the lookup `n` does in one step. -/
def Changes (s t : DnsSt) (n : Nat) (job : Job) : Prop :=
  ∃ job' : Job, t.jobs = s.jobs.set n job' ∧ (t.m = s.m ∨ ∃ b, s.m.step b = some t.m) ∧ job.Keeps s.m.log t.m.log job'

theorem changes_stay {job' : Job} (h : job.Keeps s.m.log s.m.log job') : Changes s (s.setJob n job') n job :=
  ⟨job', rfl, .inl rfl, h⟩

theorem changes_move {job' : Job} (ht : t.jobs = s.jobs ∧ ∃ b, s.m.step b = some t.m)
    (h : job.Keeps s.m.log t.m.log job') : Changes s (t.setJob n job') n job :=
  ⟨job', congrArg (List.set · n job') ht.1, .inr ht.2, h⟩

theorem changes_goJob {a : ResolveArgs} {ok : Bool} (hs : s.goJob n job a ok = some t) : Changes s t n job := by
  unfold DnsSt.goJob at hs
  split at hs
  · cases hs
  · rename_i hst
    split at hs
    · rename_i t' hget
      cases hs
      exact changes_move (DnsSt.get_jobs hget) (.goto hst rfl nofun)
    · cases hs
      exact changes_stay (.goto hst rfl nofun)
  · rename_i a6 left hst
    split at hs
    · rename_i t' hget
      cases hs
      exact changes_move (DnsSt.get_jobs hget) (.goto hst rfl nofun)
    · cases hs
      exact changes_stay (.goto hst rfl nofun)
  · rename_i a6 left hst
    split_ifs at hs
    · cases hs
      exact changes_stay (.goto hst rfl nofun)
    · obtain ⟨t', hadd, rfl⟩ := Option.map_eq_some_iff.1 hs
      exact changes_move (DnsSt.add_jobs hadd) (.goto hst rfl nofun)
    · cases hs
      exact changes_stay (.goto hst rfl nofun)
  · rename_i left k hst
    split_ifs at hs
    cases hs
    exact changes_stay (.goto hst rfl nofun)
  · rename_i left hst
    obtain ⟨t', hput, rfl⟩ := Option.map_eq_some_iff.1 hs
    exact changes_move (DnsSt.put_jobs hput) (.goto hst rfl nofun)
  · rename_i hst
    split_ifs at hs
    · obtain ⟨t', hadd, rfl⟩ := Option.map_eq_some_iff.1 hs
      exact changes_move (DnsSt.add_jobs hadd) (.goto hst rfl nofun)
    · cases hs
      exact changes_stay (.goto hst rfl nofun)
  · rename_i k hst
    obtain ⟨t', hput, rfl⟩ := Option.map_eq_some_iff.1 hs
    obtain ⟨-, b, hb⟩ := DnsSt.put_jobs hput
    refine changes_move (DnsSt.put_jobs hput) ⟨rfl, ?_, fun _ => ⟨nofun, rfl, rfl, rfl⟩⟩
    rw [Job.callbacks, hst]
    exact DoneSt.hist_step hb k
  · rename_i hst
    obtain ⟨t', hput, rfl⟩ := Option.map_eq_some_iff.1 hs
    exact changes_move (DnsSt.put_jobs hput) (.goto hst rfl nofun)
  · rename_i hst
    cases hs
    refine changes_stay ⟨rfl, ?_, fun _ => ⟨nofun, rfl, rfl, rfl⟩⟩
    rw [Job.callbacks, hst]
    exact List.prefix_rfl
  · cases hs
  · cases hs

theorem kept_step {a : DnsAct} (hs : s.step host a = some t) (hj : s.jobs[n]? = some job) :
    ∃ job' : Job, t.jobs[n]? = some job' ∧ job.Keeps s.m.log t.m.log job' := by
  have hset : ∀ {i : Nat} {x : Job}, s.jobs[i]? = some x → Changes s t i x →
      ∃ job' : Job, t.jobs[n]? = some job' ∧ job.Keeps s.m.log t.m.log job' := by
    rintro i x hx ⟨job', hjobs, hm, hk⟩
    rw [hjobs]
    by_cases hi : i = n
    · subst hi
      cases hj.symm.trans hx
      exact ⟨job', getElem?_set_self hj, hk⟩
    · refine ⟨job, by rw [getElem?_set_ne hi, hj], .same fun k => ?_⟩
      rcases hm with hm | ⟨b, hb⟩
      · exact hm ▸ List.prefix_rfl
      · exact DoneSt.hist_step hb k
  rcases a with a | ⟨j, r⟩ | ⟨i, x⟩ | ⟨i, ok⟩
  · simp only [DnsSt.step] at hs
    split_ifs at hs
    obtain ⟨m', hm, rfl⟩ := Option.map_eq_some_iff.1 hs
    exact ⟨job, hj, .same (DoneSt.hist_step hm)⟩
  · simp only [DnsSt.step] at hs
    split at hs
    · obtain ⟨m', hm, rfl⟩ := Option.map_eq_some_iff.1 hs
      refine ⟨job, ?_, .same (DoneSt.hist_step hm)⟩
      exact (List.getElem?_append_left (List.getElem?_eq_some_iff.1 hj).1).trans hj
    · cases hs
  · obtain ⟨y, hy, hs⟩ := Option.bind_eq_some_iff.1 hs
    split at hs
    · rename_i hst _
      split_ifs at hs
      cases hs
      refine hset hy (changes_stay ⟨rfl, ?_, fun hq => absurd hst hq⟩)
      rw [Job.callbacks, hst]
      exact List.nil_prefix
    · cases hs
  · obtain ⟨y, hy, hs⟩ := Option.bind_eq_some_iff.1 hs
    obtain ⟨a, -, hs⟩ := Option.bind_eq_some_iff.1 hs
    split_ifs at hs
    exact hset hy (changes_goJob hs)

theorem kept_run {as : List DnsAct} (hs : exec (DnsSt.step host) s as = some t) (hj : s.jobs[n]? = some job) :
    ∃ job' : Job, t.jobs[n]? = some job' ∧ job.Keeps s.m.log t.m.log job' := by
  induction as generalizing s job with
  | nil =>
    cases hs
    exact ⟨job, hj, .same fun _ => List.prefix_rfl⟩
  | cons a as ih =>
    rw [exec_cons] at hs
    obtain ⟨u, hu, hs⟩ := Option.bind_eq_some_iff.1 hs
    obtain ⟨x, hx, hkeep⟩ := kept_step hu hj
    obtain ⟨y, hy, hkeep'⟩ := ih hs hx
    exact ⟨y, hy, hkeep.trans hkeep'⟩

/-- What a step leaves as the answer of a lookup was there before, or is that of the step. -/
theorem answer_step {a : DnsAct} {h : HalAnswer} (hs : s.step host a = some t) (hj : t.jobs[n]? = some job)
    (ha : job.answer = some h) : a = .lookup n h ∨ ∃ job' : Job, s.jobs[n]? = some job' ∧ job'.answer = some h := by
  rcases a with a | ⟨j, r⟩ | ⟨i, x⟩ | ⟨i, ok⟩
  · simp only [DnsSt.step] at hs
    split_ifs at hs
    obtain ⟨m', -, rfl⟩ := Option.map_eq_some_iff.1 hs
    exact .inr ⟨job, hj, ha⟩
  · simp only [DnsSt.step] at hs
    split at hs
    · obtain ⟨m', -, rfl⟩ := Option.map_eq_some_iff.1 hs
      rcases getElem?_concat_cases hj with ⟨-, hj⟩ | ⟨-, rfl⟩
      · exact .inr ⟨job, hj, ha⟩
      · cases ha
    · cases hs
  · obtain ⟨y, hy, hs⟩ := Option.bind_eq_some_iff.1 hs
    split at hs
    · split_ifs at hs
      cases hs
      rcases getElem?_set_cases hj with ⟨rfl, rfl⟩ | ⟨-, hj⟩
      · cases ha
        exact .inl rfl
      · exact .inr ⟨job, hj, ha⟩
    · cases hs
  · obtain ⟨y, hy, hs⟩ := Option.bind_eq_some_iff.1 hs
    obtain ⟨a, -, hs⟩ := Option.bind_eq_some_iff.1 hs
    split_ifs at hs
    have hst : y.stage ≠ .queued := by
      intro hst
      rw [DnsSt.goJob, hst] at hs
      cases hs
    obtain ⟨job', hjobs, -, hk⟩ := changes_goJob hs
    rw [hjobs] at hj
    rcases getElem?_set_cases hj with ⟨rfl, rfl⟩ | ⟨-, hj⟩
    · exact .inr ⟨y, hy, (hk.array hst).2.2.2.symm.trans ha⟩
    · exact .inr ⟨job, hj, ha⟩

theorem answer_run {as : List DnsAct} {h : HalAnswer} (hs : exec (DnsSt.step host) s as = some t)
    (hj : t.jobs[n]? = some job) (ha : job.answer = some h) :
    .lookup n h ∈ as ∨ ∃ job' : Job, s.jobs[n]? = some job' ∧ job'.answer = some h := by
  induction as generalizing s with
  | nil =>
    cases hs
    exact .inr ⟨job, hj, ha⟩
  | cons a as ih =>
    rw [exec_cons] at hs
    obtain ⟨u, hu, hs⟩ := Option.bind_eq_some_iff.1 hs
    rcases ih hs with hmem | ⟨x, hx, hxa⟩
    · exact .inl (List.mem_cons_of_mem a hmem)
    · rcases answer_step hu hx hxa with rfl | hold
      · exact .inl List.mem_cons_self
      · exact .inr hold

/-! ### Every lookup calls back once -/

/-- The callback is called once, on the requester's queue or to free; or it is not called yet, and a queue has a
function that leads to it. -/
def Job.Called (s : DnsSt) (job : Job) : Prop :=
  job.callbacks s.m.log = [.call job.req.q none .null] ∨ job.callbacks s.m.log = [.call job.p none .freeOnly] ∨
    job.callbacks s.m.log = [] ∧ ∃ (i : Nat) (q : DoneQ) (fo : DoneFo), s.m.qs[i]? = some q ∧ q.Holds fo ∧
      (fo.id = job.id ∨ job.stage.reply = some fo.id)

/-- A lookup at any time: what its callback gets, that it is called once, and what is done before that. -/
structure Job.Once (host : Endian) (s : DnsSt) (job : Job) : Prop where
  args : (unpack job.argv).map (·.replyArgv job.count) =
    some (job.req.hostname :: job.count :: job.req.addrs :: job.req.args)
  fits : 3 + job.req.args.length ≤ argcMax
  called : job.Called s
  resolved : job.callbacks s.m.log ≠ [] → ∃ h, job.answer = some h ∧ job.Resolved host h
  prefixed : job.callbacks s.m.log ≠ [] → ∀ k a6, (some k, a6) ∈ job.prefixFs →
    hist s.m.log k = [.call job.req.q none .null]

theorem JobOk.unreturned (h : JobOk host m job) (hp : m.ProtoInv) (hr : job.stage.returned = false) :
    ∃ (i : Nat) (q : DoneQ) (fo : DoneFo), m.qs[i]? = some q ∧ q.Holds fo ∧ fo.id = job.id := by
  by_cases hn : hist m.log job.id = []
  · exact h.own.holds_of_nil hp hn
  · obtain ⟨q, fo, robj, hq, hfr, hid⟩ := h.during hn hr
    exact ⟨job.p, q, fo, hq, .inr ⟨_, hfr, rfl⟩, hid⟩

theorem JobOk.once (h : JobOk host s.m job) (hp : s.m.ProtoInv) : job.Once host s := by
  obtain ⟨hargv, hlen⟩ := unpack_argv h.argv
  have hcalls : job.callbacks s.m.log ≠ [] → job.stage ≠ .queued ∧ ∀ left k, job.stage ≠ .prefixCall left k := by
    intro hne
    unfold Job.callbacks at hne
    split at hne
    all_goals
      rename_i hst
      first
        | exact absurd rfl hne
        | rw [hst]
          exact ⟨nofun, nofun⟩
  refine ⟨by rw [hargv]; rfl, by omega, ?_, fun hne => h.resolved (hcalls hne).1, ?_⟩
  · have hquiet (hr : job.stage.returned = false) (hc : job.callbacks s.m.log = []) : job.Called s := by
      obtain ⟨i, q, fo, hq, hfo, hid⟩ := h.unreturned hp hr
      exact .inr (.inr ⟨hc, i, q, fo, hq, hfo, .inl hid⟩)
    have hreply {k : Nat} (hk : job.stage.reply = some k) (hc : job.callbacks s.m.log = hist s.m.log k) :
        job.Called s := by
      rcases (h.reply k hk).hist_cases hp with hn | hone
      · obtain ⟨i, q, fo, hq, hfo, rfl⟩ := (h.reply k hk).holds_of_nil hp hn
        exact .inr (.inr ⟨hc.trans hn, i, q, fo, hq, hfo, .inr hk⟩)
      · exact .inl (hc.trans hone)
    have hfree (hc : job.callbacks s.m.log = [.call job.p none .freeOnly]) : job.Called s := .inr (.inl hc)
    obtain ⟨stage, hst⟩ : ∃ stage, job.stage = stage := ⟨_, rfl⟩
    rcases stage with _ | left | ⟨a6, left⟩ | ⟨left, k⟩ | left | _ | ⟨_ | k⟩ | k | _ | _
    case replyPut.some => exact hreply (by rw [hst]; rfl) (by rw [Job.callbacks, hst])
    case replied => exact hreply (by rw [hst]; rfl) (by rw [Job.callbacks, hst])
    case freeing => exact hfree (by rw [Job.callbacks, hst])
    case freed => exact hfree (by rw [Job.callbacks, hst])
    all_goals exact hquiet (by rw [hst]; rfl) (by rw [Job.callbacks, hst])
  · intro hne k a6 hk
    obtain ⟨hplain, hc⟩ := h.calls k a6 hk
    refine (hplain.hist_cases hp).resolve_left fun hn => ?_
    obtain ⟨left, hl⟩ := hc hn
    exact (hcalls hne).2 left k hl

/-- The lookup waits in `__mpq_call_argv` for a function that a queue has. -/
def Job.Waits (m : DoneSt) (job : Job) : Prop :=
  ∃ left k, job.stage = .prefixCall left k ∧
    ∃ (i : Nat) (q : DoneQ) (fo : DoneFo), m.qs[i]? = some q ∧ q.Holds fo ∧ fo.id = k

/-- A lookup whose thread is in it goes on, with any answer of the HAL and whether or not functions are accepted, or it
waits. -/
theorem DnsInv.goes (h : DnsInv host s) (hj : s.jobs[n]? = some job) (hrun : running s.m job.p = some job.id)
    (hr : job.stage.returned = false) : job.Waits s.m ∨
      ∀ x ok, (s.step host (.lookup n x)).isSome = true ∨ (s.step host (.go n ok)).isSome = true := by
  have hok := h.jobs job (List.mem_of_getElem? hj)
  have hunpack := (unpack_argv hok.argv).1
  have hgo : ∀ ok, s.step host (.go n ok) = s.goJob n job job.req.locals ok := by
    intro ok
    simp only [DnsSt.step, hj, hunpack, Option.bind_some, if_pos hrun]
  have hadd (hh : job.stage.holds = true) : ∃ t, s.add n = some t := by
    simp only [DnsSt.add, DoneSt.step, h.owned.place hj hh]
    exact ⟨_, rfl⟩
  have hput (hh : job.stage.holds = true) : ∃ t, s.put n = some t := by
    simp only [DnsSt.put, DoneSt.step, h.owned.place hj hh]
    exact ⟨_, rfl⟩
  by_cases hw : ∃ left k, job.stage = .prefixCall left k ∧ k ∈ s.m.toks.map Tok.id
  · obtain ⟨left, k, hst, hk⟩ := hw
    obtain ⟨t, ht, rfl⟩ := List.mem_map.1 hk
    obtain ⟨i, q, hq, hfo⟩ := DoneSt.exists_holds ht
    exact .inl ⟨left, t.id, hst, i, q, t.fo, hq, hfo, rfl⟩
  · right
    intro x ok
    rw [hgo]
    obtain ⟨stage, hst⟩ : ∃ stage, job.stage = stage := ⟨_, rfl⟩
    rcases stage with _ | ⟨_ | ⟨a6, left⟩⟩ | ⟨a6, left⟩ | ⟨left, k⟩ | left | _ | ⟨_ | k⟩ | k | _ | _
    · left
      simp only [DnsSt.step, hj, hunpack, hst, Option.bind_some, if_pos hrun, Option.isSome_some]
    all_goals
      right
      simp only [DnsSt.goJob, hst]
    · split <;> rfl
    · split <;> rfl
    · obtain ⟨t, ht⟩ := hadd (by rw [hst]; rfl)
      rw [ht]
      split_ifs <;> rfl
    · rw [if_neg fun hk => hw ⟨left, k, hst, hk⟩]
      rfl
    · obtain ⟨t, ht⟩ := hput (by rw [hst]; rfl)
      rw [ht]
      rfl
    · obtain ⟨t, ht⟩ := hadd (by rw [hst]; rfl)
      rw [ht]
      split_ifs <;> rfl
    · obtain ⟨t, ht⟩ := hput (by rw [hst]; rfl)
      rw [ht]
      rfl
    · obtain ⟨t, ht⟩ := hput (by rw [hst]; rfl)
      rw [ht]
      rfl
    · rw [hst] at hr
      cases hr
    · rfl
    · rw [hst] at hr
      cases hr

/-- The lookups over all runs of all queues. Each calls back once; the functions of different lookups are different;
each has the requester's queue only while it uses it, and its answer is one that the HAL has given it. A lookup goes on
unless it waits for a function that a queue has. A further run leaves a callback that has been called and the array as
they are. -/
theorem resolved_once {as : List DnsAct} (hs : exec (DnsSt.step host) .init as = some s) :
    (∀ job ∈ s.jobs, job.Once host s) ∧ ((s.jobs.map Job.fns).flatten).Nodup ∧
    (∀ (n : Nat) (job : Job), s.jobs[n]? = some job → s.owners.count (some n) = job.stage.holds.toNat ∧
      (∀ h, job.answer = some h → .lookup n h ∈ as) ∧
      (running s.m job.p = some job.id → job.stage.returned = false → job.Waits s.m ∨
        ∀ x ok, (s.step host (.lookup n x)).isSome = true ∨ (s.step host (.go n ok)).isSome = true) ∧
      ∀ as' t, exec (DnsSt.step host) s as' = some t →
        ∃ job' : Job, t.jobs[n]? = some job' ∧ job.Keeps s.m.log t.m.log job') := by
  have h := DnsInv.init.run hs
  refine ⟨fun job hjob => (h.jobs job hjob).once h.proto, h.nodup, ?_⟩
  intro n job hj
  refine ⟨h.owned.count n job hj, fun x hx => ?_, h.goes hj, fun _ _ ht => kept_run ht hj⟩
  rcases answer_run hs hj hx with hmem | ⟨job', hj', -⟩
  · exact hmem
  · cases hj'

/-- Two requests from queue 1 for an IPv6 address; the first is looked up on queue 0. -/
def dnsRun : List DnsAct :=
  [.mach .create, .mach .create, .mach (.get 0),
    .request 0 (DnsReq.tcp ⟨100, 80, 0, 0, 200, [⟨0, 0, 0, ⟨0, 0, 0, .replicate 16 0, 0⟩⟩], 1, 300, [7]⟩),
    .request 0 (DnsReq.udp ⟨100, 80, 0, 0, 200, [], 1, 300, []⟩), .mach (.put 0)] ++
  List.replicate 4 (.mach (.go 0)) ++
  [.lookup 0 ⟨1, .replicate 8 ⟨10, 0, 0, .replicate 16 1, 0⟩⟩, .go 0 true, .go 0 true] ++
  List.replicate 5 (.mach (.go 1)) ++ List.replicate 5 (.go 0 true) ++ List.replicate 5 (.mach (.go 1))

theorem resolved_once_dnsRun : ∃ s, exec (DnsSt.step .little) .init dnsRun = some s ∧
    s.jobs.map (·.callbacks s.m.log) = [[.call 1 none .null], []] ∧ ∀ job ∈ s.jobs, job.Once .little s := by
  have hany : (exec (DnsSt.step .little) .init dnsRun).any (fun s =>
      s.jobs.map (·.callbacks s.m.log) = [[.call 1 none .null], []]) = true := by decide +kernel
  obtain ⟨s, hs, h⟩ := (Option.any_eq_true ..).1 hany
  exact ⟨s, hs, of_decide_eq_true h, (resolved_once hs).1⟩

end Dns

end Aosl
