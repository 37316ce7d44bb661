import Aosl.Lib.Steps
import Mathlib.Data.Option.Basic

/-!
# Network events, `net/route.c` and `os_get_def_rt`

The default routes that the system has, one for IPv4 and one for IPv6, are read into one of two buffers and compared with
the other one, which holds what was read before; the two change roles each time. A route that is gone is invalidated in
the buffer it is read into, but `def_rt_cnt` keeps the value it had there.

IPv6 is configured in. `OsRt` is what the netlink answer says of the default route of a family.
-/

namespace Aosl
open Lib

inductive SaFamily where
  | unspec
  | inet
  | inet6
deriving DecidableEq

/-- `aosl_sk_addr_t`; the two addresses lie at different offsets of the union. -/
structure SkAddr where
  saFamily : SaFamily
  sinAddr : BitVec 32
  sin6Addr : BitVec 128
deriving DecidableEq

/-- `aosl_rt_t`, without the fields that the comparisons do not read. -/
structure Rt where
  ifIndex : Int
  ifType : Int
  defRtCnt : Nat
  gw : SkAddr
deriving DecidableEq

/-- `aosl_def_rt_t`. -/
structure DefRt where
  ipv4 : Rt
  ipv6 : Rt
deriving DecidableEq

/-- `__rt_valid`. -/
def rtValid (rt : Rt) : Bool := if rt.ifIndex < 0 then false else rt.gw.saFamily ≠ .unspec

/-- `__def_rt_valid`. -/
def defRtValid (d : DefRt) : Bool := rtValid d.ipv4 || rtValid d.ipv6

/-- `aosl_sk_addr_ip_equal`. -/
def skAddrIpEqual (a b : SkAddr) : Bool :=
  if a.saFamily ≠ b.saFamily then false
  else match a.saFamily with
    | .unspec => true
    | .inet => a.sinAddr = b.sinAddr
    | .inet6 => a.sin6Addr = b.sin6Addr

/-- `__same_rt`. -/
def sameRt (a b : Rt) : Bool :=
  if a.ifIndex < 0 ∧ b.ifIndex < 0 then true
  else if a.ifIndex ≠ b.ifIndex then false
  else if a.ifType ≠ b.ifType then false
  else skAddrIpEqual a.gw b.gw

/-- `__same_def_rt`. -/
def sameDefRt (a b : DefRt) : Bool := sameRt a.ipv4 b.ipv4 && sameRt a.ipv6 b.ipv6

/-- `__same_def_rt_cnt`. -/
def sameDefRtCnt (a b : DefRt) : Bool := a.ipv4.defRtCnt = b.ipv4.defRtCnt && a.ipv6.defRtCnt = b.ipv6.defRtCnt

/-- `__invalidate_rt`. -/
def invalidateRt (rt : Rt) : Rt := { rt with ifIndex := -1, gw := { rt.gw with saFamily := .unspec } }

/-- A default route of the system, with an address of `w` bits: the interface, its type (-1 if the interface is not
known), the gateway if the route has one, and how many default routes there are. -/
structure OsRt (w : Nat) where
  ifIndex : Nat
  ifType : Int
  gw : Option (BitVec w)
  cnt : Nat
deriving DecidableEq

/-- What the system answers for the two families. -/
structure Snapshot where
  ipv4 : Option (OsRt 32)
  ipv6 : Option (OsRt 128)
deriving DecidableEq

/-- `__af_get_default_rt`, where `addr` writes the gateway of the family. -/
def afGetDefaultRt {w : Nat} (family : SaFamily) (addr : SkAddr → BitVec w → SkAddr) (os : Option (OsRt w)) (rt : Rt) : Rt :=
  match os with
  | none => invalidateRt rt
  | some r =>
    let gw := match r.gw with
      | some a => addr (invalidateRt rt).gw a
      | none => ⟨.unspec, 0, 0⟩
    ⟨r.ifIndex, r.ifType, if r.cnt > 2 then 2 else r.cnt, { gw with saFamily := family }⟩

/-- `os_get_def_rt`: the routes, and how many there are. -/
def osGetDefRt (snap : Snapshot) (d : DefRt) : DefRt × Nat :=
  (⟨afGetDefaultRt .inet (fun g a => { g with sinAddr := a }) snap.ipv4 d.ipv4,
    afGetDefaultRt .inet6 (fun g a => { g with sin6Addr := a }) snap.ipv6 d.ipv6⟩,
    snap.ipv4.isSome.toNat + snap.ipv6.isSome.toNat)

inductive NetEv where
  | netDown
  | netUp
  | netUpChanged
  | netSwitch
  | rtCntChanged
deriving DecidableEq

/-- A call of the subscriber; `none` stands for a route that is invalidated. -/
structure NetReport where
  ev : NetEv
  defRt1 : Option DefRt
  defRt2 : Option DefRt
deriving DecidableEq

structure RouteSt where
  defRts : Bool → DefRt
  lastValidDefRt : DefRt
  curr : Bool

namespace RouteSt

/-- `aosl_init_def_rt`. -/
def initRt : Rt := ⟨-1, -1, 0, ⟨.unspec, 0, 0⟩⟩

/-- `k_route_init`. -/
def init : RouteSt := ⟨fun _ => ⟨initRt, initRt⟩, ⟨initRt, initRt⟩, false⟩

/-- `check_report_def_rt_change_event`, with or without a subscriber `f`. -/
def checkReport (s : RouteSt) (f : Bool) (snap : Snapshot) : Option NetReport × RouteSt :=
  let currDefRt := s.defRts s.curr
  let got := osGetDefRt snap (s.defRts (!s.curr))
  let newDefRt := got.1
  let defRts := fun i => if i = s.curr then s.defRts i else newDefRt
  if got.2 > 0 then
    let report :=
      if !f then none
      else if defRtValid currDefRt then
        if !sameDefRt newDefRt currDefRt then some ⟨.netSwitch, some currDefRt, some newDefRt⟩
        else if !sameDefRtCnt newDefRt currDefRt then some ⟨.rtCntChanged, some currDefRt, some newDefRt⟩
        else none
      else if defRtValid s.lastValidDefRt && !sameDefRt newDefRt s.lastValidDefRt then
        some ⟨.netUpChanged, some s.lastValidDefRt, some newDefRt⟩
      else some ⟨.netUp, some newDefRt, none⟩
    (report, ⟨defRts, newDefRt, !s.curr⟩)
  else
    (if f && defRtValid currDefRt then some ⟨.netDown, none, none⟩ else none, ⟨defRts, s.lastValidDefRt, !s.curr⟩)

end RouteSt

/-! ### Truthful reports -/

/-- A subscriber call or not, and what the system answers. -/
structure RouteCall where
  f : Bool
  snap : Snapshot
deriving DecidableEq

/-- What a report may tell of a route: that it is there, its interface and gateway, and its count up to 2. A route without
a gateway has the gateway 0. -/
def OsRt.seen {w : Nat} (r : OsRt w) : Nat × Int × BitVec w × Nat := (r.ifIndex, r.ifType, r.gw.getD 0, min r.cnt 2)

namespace Snapshot

def valid (snap : Snapshot) : Bool := snap.ipv4.isSome || snap.ipv6.isSome

/-- The snapshots differ in the validity, the identity or the count of a route. -/
def Differs (a b : Snapshot) : Prop := a.ipv4.map OsRt.seen ≠ b.ipv4.map OsRt.seen ∨ a.ipv6.map OsRt.seen ≠ b.ipv6.map OsRt.seen

instance (a b : Snapshot) : Decidable (a.Differs b) := inferInstanceAs (Decidable (_ ∨ _))

end Snapshot

/-- A run of calls: `prev` is the snapshot of the last call. -/
structure RouteRun where
  st : RouteSt
  prev : Snapshot

namespace RouteRun

def init : RouteRun := ⟨.init, ⟨none, none⟩⟩

def step (s : RouteRun) (c : RouteCall) : Option RouteRun := some ⟨(s.st.checkReport c.f c.snap).2, c.snap⟩

/-- The report of a call is right about the two snapshots. -/
structure Truthful (s : RouteRun) (c : RouteCall) : Prop where
  reports : (s.st.checkReport true c.snap).1.isSome = true ↔ s.prev.Differs c.snap
  down : ∀ r, (s.st.checkReport true c.snap).1 = some r → r.ev = .netDown → s.prev.valid = true ∧ c.snap.valid = false
  up : ∀ r, (s.st.checkReport true c.snap).1 = some r → r.ev = .netUp ∨ r.ev = .netUpChanged →
    s.prev.valid = false ∧ c.snap.valid = true

/-- For each family without a route, the two buffers have the same count left over. -/
def SameLeft (s : RouteRun) (snap : Snapshot) : Prop :=
  (snap.ipv4 = none → (s.st.defRts false).ipv4.defRtCnt = (s.st.defRts true).ipv4.defRtCnt) ∧
    (snap.ipv6 = none → (s.st.defRts false).ipv6.defRtCnt = (s.st.defRts true).ipv6.defRtCnt)

/-- The leftovers are not compared, or they do not matter. -/
def LeftOk (s : RouteRun) (c : RouteCall) : Prop :=
  c.f = true → s.prev.Differs c.snap ∨ c.snap.valid = false ∨ s.SameLeft c.snap

end RouteRun

/-! ### What a buffer shows -/

/-- What identifies a route. -/
def OsRt.ident {w : Nat} (r : OsRt w) : Nat × Int × BitVec w := (r.ifIndex, r.ifType, r.gw.getD 0)

/-- A route as it is in a buffer; `addr` reads the gateway of the family. -/
def ShowsRt {w : Nat} (family : SaFamily) (addr : SkAddr → BitVec w) (rt : Rt) : Option (OsRt w) → Prop
  | none => rt.ifIndex = -1 ∧ rt.gw.saFamily = .unspec
  | some r => rt.ifIndex = r.ifIndex ∧ rt.ifType = r.ifType ∧ rt.defRtCnt = min r.cnt 2 ∧ rt.gw.saFamily = family ∧
    addr rt.gw = r.gw.getD 0

def Shows4 : Rt → Option (OsRt 32) → Prop := ShowsRt .inet SkAddr.sinAddr

def Shows6 : Rt → Option (OsRt 128) → Prop := ShowsRt .inet6 SkAddr.sin6Addr

section Shows

variable {w : Nat} {family : SaFamily} {addr : SkAddr → BitVec w} {rt rt' : Rt} {os os' : Option (OsRt w)}

theorem rtValid_of_shows (hfam : family ≠ .unspec) (h : ShowsRt family addr rt os) : rtValid rt = os.isSome := by
  rcases os with _ | r
  · obtain ⟨hidx, -⟩ := h
    simp [rtValid, hidx]
  · obtain ⟨hidx, -, -, hsa, -⟩ := h
    have hpos : ¬ rt.ifIndex < 0 := by omega
    simp [rtValid, hpos, hsa, hfam]

/-- `__same_rt` compares the identities. -/
theorem sameRt_of_shows (hip : ∀ a b : SkAddr, a.saFamily = family → b.saFamily = family →
      (skAddrIpEqual a b = true ↔ addr a = addr b)) (h : ShowsRt family addr rt os) (h' : ShowsRt family addr rt' os') :
    sameRt rt rt' = true ↔ os.map OsRt.ident = os'.map OsRt.ident := by
  rcases os with _ | r <;> rcases os' with _ | r'
  · obtain ⟨hidx, -⟩ := h
    obtain ⟨hidx', -⟩ := h'
    simp [sameRt, hidx, hidx']
  · obtain ⟨hidx, -⟩ := h
    obtain ⟨hidx', -⟩ := h'
    have hne : (-1 : Int) ≠ r'.ifIndex := by omega
    have hpos : ¬ (r'.ifIndex : Int) < 0 := by omega
    simp [sameRt, hidx, hidx', hne, hpos]
  · obtain ⟨hidx, -⟩ := h
    obtain ⟨hidx', -⟩ := h'
    have hne : (r.ifIndex : Int) ≠ -1 := by omega
    have hpos : ¬ (r.ifIndex : Int) < 0 := by omega
    simp [sameRt, hidx, hidx', hne, hpos]
  · obtain ⟨hidx, hty, -, hsa, hgw⟩ := h
    obtain ⟨hidx', hty', -, hsa', hgw'⟩ := h'
    have hpos : ¬ (r.ifIndex : Int) < 0 := by omega
    have hgweq := hip rt.gw rt'.gw hsa hsa'
    rw [hgw, hgw'] at hgweq
    simp only [sameRt, hidx, hidx', hty, hty', hpos, false_and, if_false, Option.map_some, Option.some.injEq, OsRt.ident,
      Prod.mk.injEq, ne_eq, Int.natCast_inj]
    by_cases hi : r.ifIndex = r'.ifIndex <;> by_cases ht : r.ifType = r'.ifType <;> simp [hi, ht, hgweq]

/-- What is read into a buffer is shown there; the count of a route that is gone is left over. -/
theorem shows_afGetDefaultRt {write : SkAddr → BitVec w → SkAddr} (haddr : ∀ g a f, addr { write g a with saFamily := f } = a)
    (hzero : ∀ f, addr ⟨f, 0, 0⟩ = 0) (os : Option (OsRt w)) (rt : Rt) :
    ShowsRt family addr (afGetDefaultRt family write os rt) os ∧
      (os = none → (afGetDefaultRt family write os rt).defRtCnt = rt.defRtCnt) := by
  rcases os with _ | ⟨ifIndex, ifType, gw, cnt⟩
  · exact ⟨⟨rfl, rfl⟩, fun _ => rfl⟩
  · refine ⟨⟨rfl, rfl, ?_, rfl, ?_⟩, fun h => by cases h⟩
    · show (if cnt > 2 then 2 else cnt) = min cnt 2
      split_ifs <;> omega
    · rcases gw with _ | a
      · exact hzero family
      · exact haddr _ a family

theorem seen_eq_iff (hsame : os.map OsRt.ident = os'.map OsRt.ident) (h : ShowsRt family addr rt os)
    (h' : ShowsRt family addr rt' os') :
    os.map OsRt.seen = os'.map OsRt.seen ↔ (os = none ∨ rt.defRtCnt = rt'.defRtCnt) := by
  rcases os with _ | r <;> rcases os' with _ | r' <;> simp only [Option.map_none, Option.map_some, reduceCtorEq] at hsame ⊢
  · simp
  · obtain ⟨-, -, hcnt, -⟩ := h
    obtain ⟨-, -, hcnt', -⟩ := h'
    simp only [OsRt.ident, Option.some.injEq, Prod.mk.injEq] at hsame
    obtain ⟨hidx, hty, hgw⟩ := hsame
    rw [OsRt.seen, OsRt.seen, hidx, hty, hgw]
    simp [hcnt, hcnt']

end Shows

theorem ident_eq_of_seen {w : Nat} {os os' : Option (OsRt w)} (h : os.map OsRt.seen = os'.map OsRt.seen) :
    os.map OsRt.ident = os'.map OsRt.ident := by
  rcases os with _ | r <;> rcases os' with _ | r' <;> simp_all [OsRt.seen, OsRt.ident]

namespace RouteRun

/-- The current buffer shows the last snapshot. -/
structure Shows (d : DefRt) (snap : Snapshot) : Prop where
  ipv4 : Shows4 d.ipv4 snap.ipv4
  ipv6 : Shows6 d.ipv6 snap.ipv6

variable {s : RouteRun} {c : RouteCall} {d d' : DefRt} {snap snap' : Snapshot}

theorem Shows.valid (h : Shows d snap) : defRtValid d = snap.valid := by
  have h4 := rtValid_of_shows SaFamily.noConfusion h.ipv4
  have h6 := rtValid_of_shows SaFamily.noConfusion h.ipv6
  rw [defRtValid, h4, h6, Snapshot.valid]

theorem Shows.same (h : Shows d snap) (h' : Shows d' snap') : sameDefRt d d' = true ↔
    snap.ipv4.map OsRt.ident = snap'.ipv4.map OsRt.ident ∧ snap.ipv6.map OsRt.ident = snap'.ipv6.map OsRt.ident := by
  have h4 := sameRt_of_shows (fun a b ha hb => by simp [skAddrIpEqual, ha, hb]) h.ipv4 h'.ipv4
  have h6 := sameRt_of_shows (fun a b ha hb => by simp [skAddrIpEqual, ha, hb]) h.ipv6 h'.ipv6
  rw [sameDefRt, Bool.and_eq_true, h4, h6]

theorem shows_osGetDefRt (snap : Snapshot) (d : DefRt) : Shows (osGetDefRt snap d).1 snap ∧
    (snap.ipv4 = none → (osGetDefRt snap d).1.ipv4.defRtCnt = d.ipv4.defRtCnt) ∧
    (snap.ipv6 = none → (osGetDefRt snap d).1.ipv6.defRtCnt = d.ipv6.defRtCnt) := by
  obtain ⟨h4, hc4⟩ := @shows_afGetDefaultRt _ .inet SkAddr.sinAddr (fun g a => { g with sinAddr := a })
    (fun _ _ _ => rfl) (fun _ => rfl) snap.ipv4 d.ipv4
  obtain ⟨h6, hc6⟩ := @shows_afGetDefaultRt _ .inet6 SkAddr.sin6Addr (fun g a => { g with sin6Addr := a })
    (fun _ _ _ => rfl) (fun _ => rfl) snap.ipv6 d.ipv6
  exact ⟨⟨h4, h6⟩, hc4, hc6⟩

theorem got_pos (snap : Snapshot) (d : DefRt) : (osGetDefRt snap d).2 > 0 ↔ snap.valid = true := by
  obtain ⟨_ | r, _ | r'⟩ := snap <;> simp [osGetDefRt, Snapshot.valid]

theorem differs_of_valid (h : snap.valid ≠ snap'.valid) : snap.Differs snap' := by
  by_contra hnot
  obtain ⟨h4, h6⟩ := not_or.1 hnot
  rw [not_not] at h4 h6
  refine h ?_
  have h4' := congrArg Option.isSome h4
  have h6' := congrArg Option.isSome h6
  rw [Option.isSome_map, Option.isSome_map] at h4' h6'
  rw [Snapshot.valid, Snapshot.valid, h4', h6']

theorem not_differs_of_invalid (h : snap.valid = false) (h' : snap'.valid = false) : ¬ snap.Differs snap' := by
  obtain ⟨a, b⟩ := snap
  obtain ⟨a', b'⟩ := snap'
  simp only [Snapshot.valid, Bool.or_eq_false_iff, Option.isSome_eq_false_iff, Option.isNone_iff_eq_none] at h h'
  simp [Snapshot.Differs, h, h']

/-- Two snapshots with routes do not differ when the identities are the same and the counts that are shown are. -/
theorem Shows.not_differs_iff (h : Shows d snap) (h' : Shows d' snap') : ¬ snap.Differs snap' ↔
    sameDefRt d d' = true ∧ (snap.ipv4 = none ∨ d.ipv4.defRtCnt = d'.ipv4.defRtCnt) ∧
      (snap.ipv6 = none ∨ d.ipv6.defRtCnt = d'.ipv6.defRtCnt) := by
  rw [Snapshot.Differs, not_or, not_not, not_not, h.same h']
  constructor
  · rintro ⟨h4, h6⟩
    have i4 := ident_eq_of_seen h4
    have i6 := ident_eq_of_seen h6
    exact ⟨⟨i4, i6⟩, (seen_eq_iff i4 h.ipv4 h'.ipv4).1 h4, (seen_eq_iff i6 h.ipv6 h'.ipv6).1 h6⟩
  · rintro ⟨⟨i4, i6⟩, h4, h6⟩
    exact ⟨(seen_eq_iff i4 h.ipv4 h'.ipv4).2 h4, (seen_eq_iff i6 h.ipv6 h'.ipv6).2 h6⟩

/-- What is reported of two snapshots with routes. -/
def changes (newDefRt currDefRt : DefRt) : Option NetReport :=
  if !sameDefRt newDefRt currDefRt then some ⟨.netSwitch, some currDefRt, some newDefRt⟩
  else if !sameDefRtCnt newDefRt currDefRt then some ⟨.rtCntChanged, some currDefRt, some newDefRt⟩
  else none

/-- The report of a call with a subscriber, by the validity of the two snapshots. -/
theorem report_cases (h : Shows (s.st.defRts s.st.curr) s.prev) (snap : Snapshot) :
    (snap.valid = false ∧ s.prev.valid = false ∧ (s.st.checkReport true snap).1 = none) ∨
    (snap.valid = false ∧ s.prev.valid = true ∧ ∃ r, (s.st.checkReport true snap).1 = some r ∧ r.ev = .netDown) ∨
    (snap.valid = true ∧ s.prev.valid = false ∧ ∃ r, (s.st.checkReport true snap).1 = some r ∧
      (r.ev = .netUp ∨ r.ev = .netUpChanged)) ∨
    (snap.valid = true ∧ s.prev.valid = true ∧ (s.st.checkReport true snap).1 =
      changes (osGetDefRt snap (s.st.defRts (!s.st.curr))).1 (s.st.defRts s.st.curr)) := by
  have hcurr := h.valid
  have hgot := got_pos snap (s.st.defRts (!s.st.curr))
  rcases hnew : snap.valid with _ | _
  · have hnot : ¬ (osGetDefRt snap (s.st.defRts (!s.st.curr))).2 > 0 := by simp [hgot, hnew]
    rcases hprev : s.prev.valid with _ | _
    · exact .inl ⟨rfl, rfl, by simp [RouteSt.checkReport, hnot, hcurr, hprev]⟩
    · exact .inr (.inl ⟨rfl, rfl, _, by simp [RouteSt.checkReport, hnot, hcurr, hprev]; rfl, rfl⟩)
  · have hpos : (osGetDefRt snap (s.st.defRts (!s.st.curr))).2 > 0 := hgot.2 hnew
    rcases hprev : s.prev.valid with _ | _
    · refine .inr (.inr (.inl ⟨rfl, rfl, ?_⟩))
      simp only [RouteSt.checkReport, if_pos hpos, hcurr, hprev, Bool.not_true, Bool.false_eq_true, if_false]
      split_ifs
      · exact ⟨_, rfl, .inr rfl⟩
      · exact ⟨_, rfl, .inl rfl⟩
    · refine .inr (.inr (.inr ⟨rfl, rfl, ?_⟩))
      simp only [RouteSt.checkReport, if_pos hpos, hcurr, hprev, Bool.not_true, Bool.false_eq_true, if_false, if_true,
        changes]

theorem changes_eq_none {newDefRt currDefRt : DefRt} : changes newDefRt currDefRt = none ↔
    sameDefRt newDefRt currDefRt = true ∧ sameDefRtCnt newDefRt currDefRt = true := by
  unfold changes
  split_ifs with h1 h2 <;> simp_all

/-- A call reports truthfully unless it compares counts that are left over. -/
theorem Shows.truthful_iff (h : Shows (s.st.defRts s.st.curr) s.prev) :
    s.Truthful c ↔ s.prev.Differs c.snap ∨ c.snap.valid = false ∨ s.SameLeft c.snap := by
  rcases report_cases h c.snap with ⟨hnew, hprev, hr⟩ | ⟨hnew, hprev, r, hr, hev⟩ | ⟨hnew, hprev, r, hr, hev⟩ |
    ⟨hnew, hprev, hr⟩
  · refine iff_of_true ⟨?_, fun r hr' => ?_, fun r hr' => ?_⟩ (.inr (.inl hnew))
    · rw [hr]
      exact iff_of_false (by simp) (not_differs_of_invalid hprev hnew)
    · cases hr.symm.trans hr'
    · cases hr.symm.trans hr'
  · refine iff_of_true ⟨?_, fun r' hr' hdown => ⟨hprev, hnew⟩, fun r' hr' hup => ?_⟩ (.inr (.inl hnew))
    · rw [hr]
      exact iff_of_true rfl (differs_of_valid (by rw [hprev, hnew]; decide))
    · obtain rfl := Option.some.inj (hr.symm.trans hr')
      rw [hev] at hup
      rcases hup with hup | hup <;> cases hup
  · have hdiff : s.prev.Differs c.snap := differs_of_valid (by rw [hprev, hnew]; decide)
    refine iff_of_true ⟨?_, fun r' hr' hdown => ?_, fun r' hr' hup => ⟨hprev, hnew⟩⟩ (.inl hdiff)
    · rw [hr]
      exact iff_of_true rfl hdiff
    · obtain rfl := Option.some.inj (hr.symm.trans hr')
      rw [hdown] at hev
      rcases hev with hev | hev <;> cases hev
  · -- both snapshots have a route: the counts are compared, also those of a family that has none
    obtain ⟨hshow, hleft4, hleft6⟩ := shows_osGetDefRt c.snap (s.st.defRts (!s.st.curr))
    generalize (osGetDefRt c.snap (s.st.defRts (!s.st.curr))).1 = d at hr hshow hleft4 hleft6
    have hev : ∀ r, (s.st.checkReport true c.snap).1 = some r → r.ev = .netSwitch ∨ r.ev = .rtCntChanged := by
      intro r hr'
      rw [hr] at hr'
      unfold changes at hr'
      split_ifs at hr' <;> cases hr'
      · exact .inl rfl
      · exact .inr rfl
    have hreports : s.Truthful c ↔ ((s.st.checkReport true c.snap).1.isSome = true ↔ s.prev.Differs c.snap) := by
      refine ⟨Truthful.reports, fun hrep => ⟨hrep, fun r hr' hdown => ?_, fun r hr' hup => ?_⟩⟩
      · rcases hev r hr' with he | he <;> rw [he] at hdown <;> cases hdown
      · rcases hev r hr' with he | he <;> rw [he] at hup <;> rcases hup with hup | hup <;> cases hup
    have hsymm : c.snap.Differs s.prev ↔ s.prev.Differs c.snap := by
      simp only [Snapshot.Differs, ne_comm]
    have hsame := hshow.not_differs_iff h
    rw [hsymm] at hsame
    have hleft : s.SameLeft c.snap ↔
        (c.snap.ipv4 = none → d.ipv4.defRtCnt = (s.st.defRts s.st.curr).ipv4.defRtCnt) ∧
        (c.snap.ipv6 = none → d.ipv6.defRtCnt = (s.st.defRts s.st.curr).ipv6.defRtCnt) := by
      unfold SameLeft
      refine and_congr (forall_congr' fun hn => ?_) (forall_congr' fun hn => ?_)
      · rw [hleft4 hn]
        rcases s.st.curr with _ | _
        · exact eq_comm
        · exact Iff.rfl
      · rw [hleft6 hn]
        rcases s.st.curr with _ | _
        · exact eq_comm
        · exact Iff.rfl
    by_cases hdiff : s.prev.Differs c.snap
    · refine iff_of_true (hreports.2 (iff_of_true ?_ hdiff)) (.inl hdiff)
      rw [hr, Option.isSome_iff_ne_none, ne_eq, changes_eq_none]
      rintro ⟨hs, hc⟩
      simp only [sameDefRtCnt, Bool.and_eq_true, decide_eq_true_eq] at hc
      exact hsame.2 ⟨hs, .inr hc.1, .inr hc.2⟩ hdiff
    · obtain ⟨hs, hc4, hc6⟩ := hsame.1 hdiff
      have hnone : (s.st.checkReport true c.snap).1.isSome = true ↔ ¬ s.SameLeft c.snap := by
        rw [hr, Option.isSome_iff_ne_none, ne_eq, changes_eq_none, not_iff_not, hleft]
        simp only [hs, true_and, sameDefRtCnt, Bool.and_eq_true, decide_eq_true_eq]
        refine and_congr ⟨fun hc _ => hc, fun hc => ?_⟩ ⟨fun hc _ => hc, fun hc => ?_⟩
        · exact hc4.elim hc id
        · exact hc6.elim hc id
      rw [hreports, hnone]
      simp [hdiff, hnew]

theorem shows_step {s' : RouteRun} (hs : s.step c = some s') : Shows (s'.st.defRts s'.st.curr) s'.prev := by
  obtain ⟨hshow, -⟩ := shows_osGetDefRt c.snap (s.st.defRts (!s.st.curr))
  cases hs
  have hcurr : (s.st.checkReport c.f c.snap).2.defRts (s.st.checkReport c.f c.snap).2.curr =
      (osGetDefRt c.snap (s.st.defRts (!s.st.curr))).1 := by
    simp only [RouteSt.checkReport]
    split_ifs <;> simp
  show Shows ((s.st.checkReport c.f c.snap).2.defRts (s.st.checkReport c.f c.snap).2.curr) c.snap
  rw [hcurr]
  exact hshow

theorem shows_init : Shows (init.st.defRts init.st.curr) init.prev := ⟨⟨rfl, rfl⟩, ⟨rfl, rfl⟩⟩

/-- Over any history of snapshots, every call with a subscriber reports truthfully exactly when no call compares counts
that are left over and differ: each call's snapshot differs from the last one, has no route, or finds the same count left
in the two buffers for each family that has no route. -/
theorem reports_truthful_iff (calls : List RouteCall) :
    Along step (fun s c => c.f = true → s.Truthful c) init calls ↔ Along step LeftOk init calls := by
  have hshows : ∀ bs s, exec step init bs = some s → Shows (s.st.defRts s.st.curr) s.prev := fun bs s hrun =>
    exec_invariant_all (I := fun s => Shows (s.st.defRts s.st.curr) s.prev) (fun _ _ _ _ hs => shows_step hs) shows_init hrun
  rw [along_iff_of_prefixes, along_iff_of_prefixes]
  refine forall_congr' fun bs => forall_congr' fun c => forall_congr' fun s => forall_congr' fun _ =>
    forall_congr' fun hrun => ?_
  rw [LeftOk, (hshows bs s hrun).truthful_iff]

/-- A default route for IPv4 and none for IPv6. -/
def lostRoute : Snapshot := ⟨some ⟨3, 1, none, 1⟩, none⟩

/-- The route for IPv6 has gone before the second of three snapshots; the third, which is the same as the second, is
reported as a change of the count. -/
theorem not_reports_truthful : ∃ s, exec step init [⟨true, { lostRoute with ipv6 := some ⟨3, 1, none, 1⟩ }⟩,
      ⟨true, lostRoute⟩] = some s ∧ s.prev = lostRoute ∧
    (s.st.checkReport true lostRoute).1.map NetReport.ev = some .rtCntChanged ∧ ¬ s.Truthful ⟨true, lostRoute⟩ := by
  refine ⟨_, rfl, rfl, by decide +kernel, fun h => ?_⟩
  exact absurd (h.reports.1 (by decide +kernel)) (by decide +kernel)

end RouteRun

end Aosl
