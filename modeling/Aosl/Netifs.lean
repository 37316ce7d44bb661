import Aosl.ListHead
import Mathlib.Data.List.Find

/-!
# The network interfaces, `net/netifs.c`

The interfaces that the kernel has told of are kept in nodes, in sixteen lists by their indices, and the nodes of
those that have gone in one more list, from which new ones are taken. This is a table of the interfaces by index
(`netifs_refine`): every node that was allocated is in one of the lists or has been freed once, and another one is
allocated only when all of them are in use. `update_netifs` tests what `aosl_malloc` returns, which aborts where there is
no memory: `mem` is always true.
-/

namespace Aosl
open Lib

/-- The heads of the lists, and the nodes. -/
inductive NetifCell where
  | bucket (hash : Nat)
  | free
  | node (n : Nat)
  deriving DecidableEq

/-- `aosl_netif_t`; the name is up to its `'\0'`. -/
structure Netif where
  ifIndex : Int
  ifType : Int
  ifName : List UInt8
  deriving DecidableEq

structure NetifSt where
  links : Links NetifCell
  netif : NetifCell → Netif
  next : Nat
  freed : List NetifCell

/-- `IFINFO_HASH_SIZE`. -/
def ifinfoHashSize : Nat := 16

/-- `&__netifs_hash [idx & (IFINFO_HASH_SIZE - 1)]`. -/
def netifBucket (idx : Nat) : NetifCell := .bucket (idx &&& (ifinfoHashSize - 1))

def netifBuckets : List NetifCell := (List.range ifinfoHashSize).map .bucket

def netifHeads : List NetifCell := netifBuckets ++ [.free]

/-- `snprintf (if_name, sizeof if_name, "%s", ifname)`. -/
def copyIfName (ifname : List UInt8) : List UInt8 := ifname.take 63

/-- `-AOSL_EINVAL`, `-AOSL_ENOENT` and `-AOSL_ENOMEM`. -/
inductive NetifErr where
  | einval
  | enoent
  | enomem
  deriving DecidableEq

namespace NetifSt

/-- The loop of `__netif_node_by_index` from `pos`, in as many rounds as there may be. -/
def findIndex (st : NetifSt) (idx : Nat) : Nat → NetifCell → Option (Option NetifCell)
  | 0, _ => none
  | fuel + 1, pos =>
    if pos ≠ netifBucket idx then
      if (st.netif pos).ifIndex = idx then some (some pos) else do
        let next ← st.links.next pos
        findIndex st idx fuel next
    else some none

def netifNodeByIndex (st : NetifSt) (idx : Nat) : Option (Option NetifCell) := do
  let pos ← st.links.next (netifBucket idx)
  st.findIndex idx (st.next + 1) pos

def netifByIndex (st : NetifSt) (idx : Int) : Option (Option Netif) :=
  if idx < 0 then some none else do
    let netif ← st.netifNodeByIndex idx.toNat
    return netif.map st.netif

/-- `update_netifs (1, ifindex)`. -/
def deleteNetif (st : NetifSt) (ifindex : Int) : Option (NetifSt × Except NetifErr Unit) :=
  if ifindex < 0 then some (st, .error .einval) else do
    match ← st.netifNodeByIndex ifindex.toNat with
    | some node =>
      let links ← aoslListDel st.links node
      let links ← aoslListAddTail links node .free
      return ({ st with links := links }, .ok ())
    | none => return (st, .error .enoent)

/-- What is left in `if_name` of a node that is told another name. -/
def renamed (old : List UInt8) : Option (List UInt8) → List UInt8
  | some ifname => if old ≠ ifname then copyIfName ifname else old
  | none => []

/-- `update_netifs (0, ifindex, ifname, iftype)`; `mem` says whether `aosl_malloc` has memory. -/
def updateNetif (mem : Bool) (st : NetifSt) (ifindex : Int) (ifname : Option (List UInt8)) (iftype : Int) :
    Option (NetifSt × Except NetifErr Unit) :=
  if ifindex < 0 then some (st, .error .einval) else do
    match ← st.netifNodeByIndex ifindex.toNat with
    | some node =>
      let netif := ⟨(st.netif node).ifIndex, iftype, renamed (st.netif node).ifName ifname⟩
      return ({ st with netif := Function.update st.netif node netif }, .ok ())
    | none =>
      let (links, node) ← aoslListRemoveHead st.links .free
      if node.isNone && !mem then return ({ st with links := links }, .error .enomem)
      let next := if node.isNone then st.next + 1 else st.next
      let node := node.getD (.node st.next)
      let netif := ⟨ifindex, iftype, (ifname.map copyIfName).getD []⟩
      let links ← aoslListAddTail links node (netifBucket ifindex.toNat)
      return (⟨links, Function.update st.netif node netif, next, st.freed⟩, .ok ())

/-- One of the loops of `netifs_hash_fini`. -/
def freeNetifs (head : NetifCell) : Nat → NetifSt → Option NetifSt
  | 0, _ => none
  | fuel + 1, st => do
    let (links, node) ← aoslListRemoveHead st.links head
    match node with
    | none => some { st with links := links }
    | some node => freeNetifs head fuel { st with links := links, freed := st.freed ++ [node] }

def netifsHashFini (st : NetifSt) : Option NetifSt :=
  netifHeads.foldlM (fun st head => freeNetifs head (st.next + 1) st) st

/-- `netifs_hash_init`, and the initialiser of `__free_netifs`. -/
def netifsHashInit (links : Links NetifCell) (netif : NetifCell → Netif) : NetifSt :=
  ⟨netifHeads.foldl aoslListHeadInit links, netif, 0, []⟩

end NetifSt

inductive NetifAct where
  | delete (ifindex : Int)
  | update (mem : Bool) (ifindex : Int) (ifname : Option (List UInt8)) (iftype : Int)
  | byIndex (idx : Int)
  | fini

inductive NetifReply where
  | err (r : Except NetifErr Unit)
  | netif (n : Option Netif)
  | done

def NetifAct.step (st : NetifSt × List NetifReply) (a : NetifAct) : Option (NetifSt × List NetifReply) :=
  match a with
  | .delete i => (st.1.deleteNetif i).map fun r => (r.1, .err r.2 :: st.2)
  | .update mem i name type => (st.1.updateNetif mem i name type).map fun r => (r.1, .err r.2 :: st.2)
  | .byIndex i => (st.1.netifByIndex i).map fun n => (st.1, .netif n :: st.2)
  | .fini => st.1.netifsHashFini.map fun st' => (st', .done :: st.2)

/-! ### The table -/

/-- The interfaces by index, how many there are, and how many nodes. -/
structure NetifTable where
  netif : Int → Option Netif
  live : Nat
  nodes : Nat

namespace NetifTable

def empty : NetifTable := ⟨fun _ => none, 0, 0⟩

def set (t : NetifTable) (i : Int) (n : Option Netif) : Int → Option Netif := Function.update t.netif i n

def delete (t : NetifTable) (i : Int) : NetifTable × Except NetifErr Unit :=
  if i < 0 then (t, .error .einval)
  else match t.netif i with
    | some _ => ({ t with netif := t.set i none, live := t.live - 1 }, .ok ())
    | none => (t, .error .enoent)

def update (mem : Bool) (t : NetifTable) (i : Int) (name : Option (List UInt8)) (type : Int) :
    NetifTable × Except NetifErr Unit :=
  let netif := ⟨i, type, (name.map copyIfName).getD []⟩
  if i < 0 then (t, .error .einval)
  else match t.netif i with
    | some _ => ({ t with netif := t.set i (some netif) }, .ok ())
    | none =>
      if t.live < t.nodes then (⟨t.set i (some netif), t.live + 1, t.nodes⟩, .ok ())
      else if mem then (⟨t.set i (some netif), t.live + 1, t.nodes + 1⟩, .ok ())
      else (t, .error .enomem)

def apply (t : NetifTable) : NetifAct → NetifTable × NetifReply
  | .delete i => ((t.delete i).1, .err (t.delete i).2)
  | .update mem i name type => ((t.update mem i name type).1, .err (t.update mem i name type).2)
  | .byIndex i => (t, .netif (t.netif i))
  | .fini => (empty, .done)

def step (t : NetifTable × List NetifReply) (a : NetifAct) : NetifTable × List NetifReply :=
  ((t.1.apply a).1, (t.1.apply a).2 :: t.2)

end NetifTable

/-- The node of an index. -/
def listed (netif : NetifCell → Netif) (ls : NetifCell → List NetifCell) (i : Int) : Option NetifCell :=
  if i < 0 then none else (ls (netifBucket i.toNat)).find? fun c => (netif c).ifIndex = i

/-- The nodes of the list of a bucket have their indices there. -/
structure Hashes (netif : NetifCell → Netif) (h : NetifCell) (l : List NetifCell) : Prop where
  index : ∀ c ∈ l, 0 ≤ (netif c).ifIndex ∧ netifBucket (netif c).ifIndex.toNat = h
  name : ∀ c ∈ l, (netif c).ifName.length ≤ 63
  distinct : (l.map fun c => (netif c).ifIndex).Nodup

/-- The nodes in the lists are the table. -/
structure NetifSt.Shows (st : NetifSt) (ls : NetifCell → List NetifCell) (t : NetifTable) : Prop where
  holds : Holds st.links (Seqs.rows netifHeads ls)
  nodes : (netifHeads.flatMap ls ++ st.freed).Perm ((List.range st.next).map .node)
  hashed : ∀ h ∈ netifBuckets, Hashes st.netif h (ls h)
  netif_eq : ∀ i, t.netif i = (listed st.netif ls i).map st.netif
  live_eq : t.live = (netifBuckets.flatMap ls).length
  nodes_eq : t.nodes = (netifHeads.flatMap ls).length

/-! ### The lists -/

theorem netifHeads_nodup : netifHeads.Nodup := by decide

theorem netifBuckets_nodup : netifBuckets.Nodup := by decide

theorem netifBucket_mem (idx : Nat) : netifBucket idx ∈ netifBuckets :=
  List.mem_map.2 ⟨_, List.mem_range.2 (Nat.lt_succ_of_le Nat.and_le_right), rfl⟩

theorem mem_netifHeads {h : NetifCell} (hh : h ∈ netifBuckets) : h ∈ netifHeads := List.mem_append_left _ hh

theorem free_mem : NetifCell.free ∈ netifHeads := by decide

theorem free_notMem : NetifCell.free ∉ netifBuckets := by decide

theorem free_ne {h : NetifCell} (hh : h ∈ netifBuckets) : h ≠ .free := fun heq => free_notMem (heq ▸ hh)

theorem node_notMem (n : Nat) : NetifCell.node n ∉ netifHeads := by
  rw [netifHeads, List.mem_append, netifBuckets]
  simp

/-! ### Looking up -/

section

variable {st st' : NetifSt} {netif netif' : NetifCell → Netif} {ls ls' : NetifCell → List NetifCell} {t : NetifTable}
  {i j : Int} {h c : NetifCell} {l l₁ l₂ : List NetifCell}

theorem findIndex_eq {idx fuel : Nat} {a : NetifCell} (hpath : st.links.Path a l (netifBucket idx))
    (hout : netifBucket idx ∉ l) (hfuel : l.length < fuel) :
    (st.links.next a).bind (st.findIndex idx fuel) = some (l.find? fun c => (st.netif c).ifIndex = idx) := by
  induction l generalizing a fuel with
  | nil =>
    obtain ⟨fuel, rfl⟩ := Nat.exists_eq_succ_of_ne_zero (Nat.ne_of_gt hfuel)
    rw [hpath.next, Option.bind_some, NetifSt.findIndex]
    exact if_neg (not_not_intro rfl)
  | cons x l ih =>
    obtain ⟨fuel, rfl⟩ := Nat.exists_eq_succ_of_ne_zero (Nat.ne_of_gt (Nat.zero_lt_of_lt hfuel))
    rw [List.mem_cons, not_or] at hout
    rw [hpath.next, Option.bind_some, List.headD_cons, NetifSt.findIndex, if_pos (Ne.symm hout.1), List.find?_cons]
    by_cases hx : (st.netif x).ifIndex = idx
    · simp [hx]
    · have hih := ih (Links.path_cons.1 hpath).2 hout.2 (Nat.lt_of_succ_lt_succ hfuel)
      simp [hx, hih]

namespace NetifSt.Shows

theorem length_le (hs : st.Shows ls t) (hh : h ∈ netifHeads) : (ls h).length ≤ st.next := by
  have hlen := hs.nodes.length_eq
  have hclear := (flatMap_clear ls netifHeads_nodup hh).length_eq
  rw [List.length_append] at hlen hclear
  rw [List.length_map, List.length_range] at hlen
  omega

theorem nodeByIndex_eq (hs : st.Shows ls t) (hi : 0 ≤ i) :
    st.netifNodeByIndex i.toNat = some (listed st.netif ls i) := by
  have hmem := mem_netifHeads (netifBucket_mem i.toNat)
  obtain ⟨rest, hrow, -⟩ := hs.holds.row netifHeads_nodup hmem
  have hfind := findIndex_eq hrow.path (List.nodup_cons.1 hrow.nodup_cons.1).1 (Nat.lt_succ_of_le (hs.length_le hmem))
  rw [Int.toNat_of_nonneg hi] at hfind
  rw [listed, if_neg (Int.not_lt.2 hi)]
  exact hfind

end NetifSt.Shows

theorem listed_some (hl : listed netif ls i = some c) :
    0 ≤ i ∧ (netif c).ifIndex = i ∧ ∃ l₁ l₂, ls (netifBucket i.toNat) = l₁ ++ c :: l₂ := by
  unfold listed at hl
  split at hl
  · cases hl
  · next hi =>
    obtain ⟨hc, l₁, l₂, heq, -⟩ := List.find?_eq_some_iff_append.1 hl
    exact ⟨Int.not_lt.1 hi, of_decide_eq_true hc, l₁, l₂, heq⟩

theorem listed_none (hl : listed netif ls i = none) (hi : 0 ≤ i) :
    ∀ c ∈ ls (netifBucket i.toNat), (netif c).ifIndex ≠ i := by
  rw [listed, if_neg (Int.not_lt.2 hi), List.find?_eq_none] at hl
  exact fun c hc => by simpa using hl c hc

theorem listed_congr (hls : ∀ k ∈ netifBuckets, k ≠ h → ls' k = ls k)
    (hnetif : ∀ k ∈ netifBuckets, k ≠ h → ∀ c ∈ ls k, (netif' c).ifIndex = (netif c).ifIndex)
    (hj : 0 ≤ j → netifBucket j.toNat = h → (ls' h).find? (fun c => (netif' c).ifIndex = j) =
      (ls h).find? fun c => (netif c).ifIndex = j) : listed netif' ls' j = listed netif ls j := by
  unfold listed
  split
  · rfl
  · next hneg =>
    by_cases hk : netifBucket j.toNat = h
    · rw [hk]
      exact hj (Int.not_lt.1 hneg) hk
    · rw [hls _ (netifBucket_mem _) hk]
      refine List.find?_congr fun c hc => ?_
      rw [hnetif _ (netifBucket_mem _) hk c hc]

theorem listed_mem (hl : listed netif ls i = some c) : c ∈ ls (netifBucket i.toNat) := by
  obtain ⟨-, -, l₁, l₂, heq⟩ := listed_some hl
  exact heq ▸ List.mem_append_right _ (List.mem_cons_self ..)

theorem listed_ne (hl : listed netif ls i = some c) (hj : j ≠ i) : listed netif ls j ≠ some c := by
  intro heq
  exact hj ((listed_some heq).2.1.symm.trans (listed_some hl).2.1)

/-! ### The operations -/

namespace Hashes

theorem congr (hl : Hashes netif h l) (hsame : ∀ c ∈ l, netif' c = netif c) : Hashes netif' h l := by
  refine ⟨fun c hc => ?_, fun c hc => ?_, ?_⟩
  · rw [hsame c hc]
    exact hl.index c hc
  · rw [hsame c hc]
    exact hl.name c hc
  · have hmap : (l.map fun c => (netif' c).ifIndex) = l.map fun c => (netif c).ifIndex :=
      List.map_congr_left fun c hc => by rw [hsame c hc]
    exact hmap ▸ hl.distinct

theorem sublist (hl : Hashes netif h l) (hsub : l₁.Sublist l) : Hashes netif h l₁ :=
  ⟨fun c hc => hl.index c (hsub.subset hc), fun c hc => hl.name c (hsub.subset hc), (hsub.map _).nodup hl.distinct⟩

theorem snoc (hl : Hashes netif h l) (hi : 0 ≤ (netif c).ifIndex ∧ netifBucket (netif c).ifIndex.toNat = h)
    (hname : (netif c).ifName.length ≤ 63) (hnew : ∀ d ∈ l, (netif d).ifIndex ≠ (netif c).ifIndex) :
    Hashes netif h (l ++ [c]) := by
  refine ⟨?_, ?_, ?_⟩
  · exact List.forall_mem_append.2 ⟨hl.index, List.forall_mem_singleton.2 hi⟩
  · exact List.forall_mem_append.2 ⟨hl.name, List.forall_mem_singleton.2 hname⟩
  · rw [List.map_append, List.nodup_append]
    refine ⟨hl.distinct, List.nodup_singleton _, fun x hx y hy => ?_⟩
    obtain ⟨d, hd, rfl⟩ := List.mem_map.1 hx
    exact List.mem_singleton.1 hy ▸ hnew d hd

end Hashes

theorem renamed_eq {old : List UInt8} (hold : old.length ≤ 63) (name : Option (List UInt8)) :
    NetifSt.renamed old name = (name.map copyIfName).getD [] := by
  cases name with
  | none => rfl
  | some name =>
    by_cases heq : old = name
    · subst heq
      simp [NetifSt.renamed, copyIfName, List.take_of_length_le hold]
    · simp [NetifSt.renamed, heq]

theorem length_copyIfName (name : Option (List UInt8)) : ((name.map copyIfName).getD []).length ≤ 63 := by
  cases name with
  | none => exact Nat.zero_le _
  | some name => exact List.length_take_le 63 name

theorem netif_set (hs : st.Shows ls t) {n : Option Netif} (hi : (listed netif' ls' i).map netif' = n)
    (hj : ∀ j ≠ i, (listed netif' ls' j).map netif' = (listed st.netif ls j).map st.netif) (j : Int) :
    t.set i n j = (listed netif' ls' j).map netif' := by
  by_cases heq : j = i
  · rw [heq, NetifTable.set, Function.update_self, hi]
  · rw [NetifTable.set, Function.update_of_ne heq, hs.netif_eq, hj j heq]

namespace NetifSt.Shows

/-- A node is told another type and name. -/
theorem set (hs : st.Shows ls t) (hc : listed st.netif ls i = some c) {netif : Netif}
    (hindex : netif.ifIndex = i) (hname : netif.ifName.length ≤ 63) :
    { st with netif := Function.update st.netif c netif }.Shows ls { t with netif := t.set i (some netif) } := by
  have hsame : ∀ d, (Function.update st.netif c netif d).ifIndex = (st.netif d).ifIndex := by
    intro d
    by_cases hd : d = c
    · rw [hd, Function.update_self, hindex, (listed_some hc).2.1]
    · rw [Function.update_of_ne hd]
  have hlisted : ∀ j, listed (Function.update st.netif c netif) ls j = listed st.netif ls j := by
    intro j
    simp only [listed, hsame]
  refine ⟨hs.holds, hs.nodes, fun h hh => ⟨?_, ?_, ?_⟩, netif_set hs ?_ fun j hj => ?_, hs.live_eq, hs.nodes_eq⟩
  · simpa only [hsame] using (hs.hashed h hh).index
  · intro d hd
    dsimp only
    by_cases hdc : d = c
    · rw [hdc, Function.update_self]
      exact hname
    · rw [Function.update_of_ne hdc]
      exact (hs.hashed h hh).name d hd
  · simpa only [hsame] using (hs.hashed h hh).distinct
  · rw [hlisted, hc]
    exact congrArg some (Function.update_self ..)
  · rw [hlisted]
    refine Option.map_congr fun d hd => Function.update_of_ne ?_ ..
    rintro rfl
    exact listed_ne hc hj hd

/-- A node of no list is put into that of its index. -/
theorem insert {links : Links NetifCell} {next n : Nat} (netif : Netif) (hs : st.Shows ls t) (hi : 0 ≤ i)
    (hnone : listed st.netif ls i = none) (hbuckets : ∀ h ∈ netifBuckets, ls' h = ls h)
    (hholds : Holds links (Seqs.rows netifHeads ls')) (hc : c ∉ Seqs.cells (Seqs.rows netifHeads ls'))
    (hnodes : (c :: netifHeads.flatMap ls' ++ st.freed).Perm ((List.range next).map .node))
    (hn : (netifHeads.flatMap ls').length + 1 = n) (hindex : netif.ifIndex = i) (hname : netif.ifName.length ≤ 63) :
    ∃ links' ls'', aoslListAddTail links c (netifBucket i.toNat) = some links' ∧
      (⟨links', Function.update st.netif c netif, next, st.freed⟩ : NetifSt).Shows ls''
        ⟨t.set i (some netif), t.live + 1, n⟩ := by
  have hb : netifBucket i.toNat ∈ netifBuckets := netifBucket_mem i.toNat
  obtain ⟨links', hadd, hholds'⟩ := hholds.addTailRow netifHeads_nodup (mem_netifHeads hb) hc
  -- the node is in none of the lists so far
  have hout : ∀ k ∈ netifBuckets, ∀ d ∈ ls k, d ≠ c := by
    rintro k hk d hd rfl
    refine hc (List.mem_flatMap.2 ⟨(k, ls' k), List.mem_map.2 ⟨k, mem_netifHeads hk, rfl⟩, ?_⟩)
    rw [hbuckets k hk]
    exact List.mem_cons_of_mem k hd
  have hsame : ∀ k ∈ netifBuckets, ∀ d ∈ ls k, Function.update st.netif c netif d = st.netif d :=
    fun k hk d hd => Function.update_of_ne (hout k hk d hd) ..
  have hother : ∀ k ∈ netifBuckets, k ≠ netifBucket i.toNat →
      Function.update ls' (netifBucket i.toNat) (ls' (netifBucket i.toNat) ++ [c]) k = ls k := fun k hk hne => by
    rw [Function.update_of_ne hne, hbuckets k hk]
  have hself : Function.update ls' (netifBucket i.toNat) (ls' (netifBucket i.toNat) ++ [c]) (netifBucket i.toNat) =
      ls (netifBucket i.toNat) ++ [c] := by
    rw [Function.update_self, hbuckets _ hb]
  have hindex' : (Function.update st.netif c netif c).ifIndex = i := by rw [Function.update_self, hindex]
  have hne := listed_none hnone hi
  refine ⟨links', _, hadd, hholds', ?_, fun k hk => ?_, netif_set hs ?_ fun j hj => ?_, ?_, ?_⟩
  · exact ((flatMap_add netifHeads_nodup (mem_netifHeads hb)).append_right _).trans hnodes
  · have hold := (hs.hashed k hk).congr (hsame k hk)
    by_cases hkb : k = netifBucket i.toNat
    · subst hkb
      rw [hself]
      refine hold.snoc ?_ (by rw [Function.update_self]; exact hname) fun d hd => ?_
      · rw [hindex']
        exact ⟨hi, rfl⟩
      · rw [hindex', hsame _ hk d hd]
        exact hne d hd
    · rw [hother k hk hkb]
      exact hold
  · have hold : (ls (netifBucket i.toNat)).find? (fun d => (Function.update st.netif c netif d).ifIndex = i) = none := by
      rw [List.find?_eq_none]
      intro d hd
      rw [hsame _ hb d hd]
      simpa using hne d hd
    have hnew : [c].find? (fun d => (Function.update st.netif c netif d).ifIndex = i) = some c :=
      List.find?_cons_of_pos (decide_eq_true hindex')
    rw [listed, if_neg (Int.not_lt.2 hi), hself, List.find?_append, hold, Option.none_or, hnew]
    exact congrArg some (Function.update_self ..)
  · have hlisted : listed (Function.update st.netif c netif) _ j = listed st.netif ls j :=
      listed_congr hother (fun k hk _ d hd => by rw [hsame k hk d hd]) fun _ _ => by
        have hnew : [c].find? (fun d => (Function.update st.netif c netif d).ifIndex = j) = none :=
          List.find?_cons_of_neg (by simpa [hindex] using Ne.symm hj)
        rw [hself, List.find?_append, hnew, Option.or_none]
        exact List.find?_congr fun d hd => by rw [hsame _ hb d hd]
    rw [hlisted]
    exact Option.map_congr fun d hd => hsame _ (netifBucket_mem _) d (listed_mem hd)
  · rw [(flatMap_add netifBuckets_nodup hb).length_eq, List.length_cons, List.flatMap_congr hbuckets, ← hs.live_eq]
  · rw [(flatMap_add netifHeads_nodup (mem_netifHeads hb)).length_eq, List.length_cons, hn]

/-- A node goes to the free list. -/
theorem delete (hs : st.Shows ls t) (hc : listed st.netif ls i = some c) :
    ∃ links links' ls', aoslListDel st.links c = some links ∧ aoslListAddTail links c .free = some links' ∧
      { st with links := links' }.Shows ls' { t with netif := t.set i none, live := t.live - 1 } := by
  obtain ⟨hi, hindex, l₁, l₂, hl⟩ := listed_some hc
  have hb : netifBucket i.toNat ∈ netifBuckets := netifBucket_mem i.toNat
  obtain ⟨links, hdel, hholds, hout⟩ := hs.holds.delRow netifHeads_nodup (mem_netifHeads hb) hl
  obtain ⟨links', hadd, hholds'⟩ := hholds.addTailRow netifHeads_nodup free_mem hout
  have hother : ∀ k ∈ netifBuckets, k ≠ netifBucket i.toNat →
      Function.update (Function.update ls (netifBucket i.toNat) (l₁ ++ l₂)) .free
        (Function.update ls (netifBucket i.toNat) (l₁ ++ l₂) .free ++ [c]) k = ls k := fun k hk hne => by
    rw [Function.update_of_ne (free_ne hk), Function.update_of_ne hne]
  have hself : Function.update (Function.update ls (netifBucket i.toNat) (l₁ ++ l₂)) .free
      (Function.update ls (netifBucket i.toNat) (l₁ ++ l₂) .free ++ [c]) (netifBucket i.toNat) = l₁ ++ l₂ := by
    rw [Function.update_of_ne (free_ne hb), Function.update_self]
  have hhash := hs.hashed _ hb
  rw [hl] at hhash
  -- the others of the list have other indices
  have hne : ∀ d ∈ l₁ ++ l₂, (st.netif d).ifIndex ≠ i := by
    intro d hd heq
    have hdist := (List.perm_middle.map fun c => (st.netif c).ifIndex).nodup_iff.1 hhash.distinct
    rw [List.map_cons, List.nodup_cons, hindex, ← heq] at hdist
    exact hdist.1 (List.mem_map.2 ⟨d, hd, rfl⟩)
  refine ⟨links, links', _, hdel, hadd, hholds', ?_, fun k hk => ?_, netif_set hs ?_ fun j hj => ?_, ?_, ?_⟩
  · have hperm := (flatMap_del netifHeads_nodup (mem_netifHeads hb) hl).symm
    exact (((flatMap_add netifHeads_nodup free_mem).trans hperm).append_right _).trans hs.nodes
  · by_cases hkb : k = netifBucket i.toNat
    · subst hkb
      rw [hself]
      exact hhash.sublist ((List.sublist_cons_self c l₂).append_left l₁)
    · rw [hother k hk hkb]
      exact hs.hashed k hk
  · rw [listed, if_neg (Int.not_lt.2 hi), hself, List.find?_eq_none.2 fun d hd => by simpa using hne d hd]
    rfl
  · refine congrArg (Option.map st.netif) (listed_congr hother (fun _ _ _ _ _ => rfl) fun _ _ => ?_)
    rw [hself, hl, List.find?_append, List.find?_append, List.find?_cons_of_neg]
    simpa [hindex] using Ne.symm hj
  · have hlen := (flatMap_del netifBuckets_nodup hb hl).length_eq
    rw [flatMap_other free_notMem, hs.live_eq, hlen]
    rfl
  · have hlen := (flatMap_del netifHeads_nodup (mem_netifHeads hb) hl).length_eq
    rw [(flatMap_add netifHeads_nodup free_mem).length_eq, hs.nodes_eq, hlen, List.length_cons]

theorem length_nodes (hs : st.Shows ls t) : t.nodes = t.live + (ls .free).length := by
  rw [hs.nodes_eq, hs.live_eq, netifHeads, List.flatMap_append, List.length_append, List.flatMap_singleton]

theorem notMem_cells (hh : c ∉ netifHeads) (hc : c ∉ netifHeads.flatMap ls) :
    c ∉ Seqs.cells (Seqs.rows netifHeads ls) := by
  intro hmem
  obtain ⟨e, he, hce⟩ := List.mem_flatMap.1 hmem
  obtain ⟨h, hin, rfl⟩ := List.mem_map.1 he
  rcases List.mem_cons.1 hce with rfl | hce
  · exact hh hin
  · exact hc (List.mem_flatMap.2 ⟨h, hin, hce⟩)

theorem update (hs : st.Shows ls t) (mem : Bool) (i : Int) (name : Option (List UInt8)) (type : Int) :
    ∃ st' ls', st.updateNetif mem i name type = some (st', (t.update mem i name type).2) ∧
      st'.Shows ls' (t.update mem i name type).1 := by
  rw [NetifTable.update, updateNetif]
  by_cases hi : i < 0
  · rw [if_pos hi, if_pos hi]
    exact ⟨st, ls, rfl, hs⟩
  · rw [if_neg hi, if_neg hi, hs.nodeByIndex_eq (Int.not_lt.1 hi), hs.netif_eq, Option.bind_eq_bind, Option.bind_some]
    have hshort := length_copyIfName name
    cases hc : listed st.netif ls i with
    | some c =>
      have hname : (st.netif c).ifName.length ≤ 63 := (hs.hashed _ (netifBucket_mem _)).name c (listed_mem hc)
      have heq : (⟨(st.netif c).ifIndex, type, renamed (st.netif c).ifName name⟩ : Netif) =
          ⟨i, type, (name.map copyIfName).getD []⟩ := by rw [renamed_eq hname, (listed_some hc).2.1]
      dsimp only [Option.map_some]
      rw [heq]
      exact ⟨_, ls, rfl, hs.set hc rfl hshort⟩
    | none =>
      have hlen := hs.length_nodes
      cases hfree : ls .free with
      | nil =>
        -- all nodes are in use
        rw [hfree] at hlen
        have hremove := hs.holds.removeHeadRow_nil netifHeads_nodup free_mem hfree
        dsimp only [Option.map_none]
        rw [hremove, if_neg (by rw [hlen]; exact Nat.lt_irrefl _)]
        cases mem with
        | false => exact ⟨st, ls, rfl, hs⟩
        | true =>
          have hnew : NetifCell.node st.next ∉ netifHeads.flatMap ls := by
            intro hmem
            have hin := hs.nodes.mem_iff.1 (List.mem_append_left _ hmem)
            obtain ⟨n, hn, heq⟩ := List.mem_map.1 hin
            obtain rfl := NetifCell.node.inj heq
            exact Nat.lt_irrefl _ (List.mem_range.1 hn)
          have hnodes : (NetifCell.node st.next :: netifHeads.flatMap ls ++ st.freed).Perm
              ((List.range (st.next + 1)).map .node) := by
            rw [List.range_succ, List.map_append, List.cons_append]
            exact (hs.nodes.cons _).trans (List.perm_append_singleton _ _).symm
          obtain ⟨links', ls', hadd, hs'⟩ := hs.insert ⟨i, type, (name.map copyIfName).getD []⟩
            (Int.not_lt.1 hi) hc (fun _ _ => rfl) hs.holds (notMem_cells (node_notMem _) hnew) hnodes
            (by rw [← hs.nodes_eq]) rfl hshort
          exact ⟨_, ls', by simp [hadd], hs'⟩
      | cons c l =>
        rw [hfree] at hlen
        obtain ⟨links, hremove, hholds, hout⟩ := hs.holds.removeHeadRow_cons netifHeads_nodup free_mem hfree
        have hdel := flatMap_del netifHeads_nodup free_mem (show ls .free = [] ++ c :: l from hfree)
        have hnodes := (hdel.symm.append_right _).trans hs.nodes
        obtain ⟨links', ls', hadd, hs'⟩ := hs.insert (n := t.nodes) ⟨i, type, (name.map copyIfName).getD []⟩
          (Int.not_lt.1 hi) hc (fun k hk => Function.update_of_ne (free_ne hk) ..) hholds hout hnodes
          (by rw [hs.nodes_eq, hdel.length_eq]; rfl) rfl hshort
        dsimp only [Option.map_none]
        rw [hremove, if_pos (by rw [hlen]; exact Nat.lt_add_of_pos_right (Nat.zero_lt_succ _))]
        exact ⟨_, ls', by simp [hadd], hs'⟩

theorem deleteNetif_eq (hs : st.Shows ls t) (i : Int) :
    ∃ st' ls', st.deleteNetif i = some (st', (t.delete i).2) ∧ st'.Shows ls' (t.delete i).1 := by
  rw [NetifTable.delete, deleteNetif]
  by_cases hi : i < 0
  · rw [if_pos hi, if_pos hi]
    exact ⟨st, ls, rfl, hs⟩
  · rw [if_neg hi, if_neg hi, hs.nodeByIndex_eq (Int.not_lt.1 hi), hs.netif_eq, Option.bind_eq_bind, Option.bind_some]
    cases hc : listed st.netif ls i with
    | none => exact ⟨st, ls, rfl, hs⟩
    | some c =>
      obtain ⟨links, links', ls', hdel, hadd, hs'⟩ := hs.delete hc
      exact ⟨_, ls', by simp [hdel, hadd], hs'⟩

theorem netifByIndex_eq (hs : st.Shows ls t) (i : Int) : st.netifByIndex i = some (t.netif i) := by
  rw [netifByIndex, hs.netif_eq]
  by_cases hi : i < 0
  · rw [if_pos hi, listed, if_pos hi]
    rfl
  · rw [if_neg hi, hs.nodeByIndex_eq (Int.not_lt.1 hi)]
    rfl

end NetifSt.Shows

/-! ### The end -/

theorem freeNetifs_eq {fuel : Nat} (st : NetifSt) (hs : Holds st.links (Seqs.rows netifHeads ls)) (hh : h ∈ netifHeads)
    (hl : ls h = l) (hfuel : l.length < fuel) :
    ∃ links, NetifSt.freeNetifs h fuel st = some { st with links := links, freed := st.freed ++ l } ∧
      Holds links (Seqs.rows netifHeads (Function.update ls h [])) := by
  induction l generalizing st ls fuel with
  | nil =>
    obtain ⟨fuel, rfl⟩ := Nat.exists_eq_succ_of_ne_zero (Nat.ne_of_gt hfuel)
    rw [NetifSt.freeNetifs, hs.removeHeadRow_nil netifHeads_nodup hh hl]
    refine ⟨st.links, by simp, ?_⟩
    rwa [← hl, Function.update_eq_self]
  | cons c l ih =>
    obtain ⟨fuel, rfl⟩ := Nat.exists_eq_succ_of_ne_zero (Nat.ne_of_gt (Nat.zero_lt_of_lt hfuel))
    obtain ⟨links, hremove, hholds, -⟩ := hs.removeHeadRow_cons netifHeads_nodup hh hl
    obtain ⟨links', hfree, hholds'⟩ := ih { st with links := links, freed := st.freed ++ [c] } hholds
      (Function.update_self ..) (Nat.lt_of_succ_lt_succ hfuel)
    rw [Function.update_idem] at hholds'
    refine ⟨links', ?_, hholds'⟩
    rw [NetifSt.freeNetifs, hremove, Option.bind_eq_bind, Option.bind_some]
    dsimp only
    rw [hfree, List.append_assoc, List.singleton_append]

/-- Some of the lists are freed. -/
theorem foldlM_freeNetifs {heads : List NetifCell} (st : NetifSt) (hsub : ∀ h ∈ heads, h ∈ netifHeads)
    (hs : Holds st.links (Seqs.rows netifHeads ls))
    (hnodes : (netifHeads.flatMap ls ++ st.freed).Perm ((List.range st.next).map .node)) :
    ∃ st' ls', heads.foldlM (fun st head => NetifSt.freeNetifs head (st.next + 1) st) st = some st' ∧
      Holds st'.links (Seqs.rows netifHeads ls') ∧
      (netifHeads.flatMap ls' ++ st'.freed).Perm ((List.range st'.next).map .node) ∧
      (∀ h ∈ heads, ls' h = []) ∧ ∀ h, ls h = [] → ls' h = [] := by
  induction heads generalizing st ls with
  | nil => exact ⟨st, ls, rfl, hs, hnodes, fun _ hh => (List.not_mem_nil hh).elim, fun _ => id⟩
  | cons h heads ih =>
    rw [List.forall_mem_cons] at hsub
    have hclear := flatMap_clear ls netifHeads_nodup hsub.1
    have hfuel : (ls h).length < st.next + 1 := by
      have hlen := hnodes.length_eq
      have hlen' := hclear.length_eq
      rw [List.length_append] at hlen hlen'
      rw [List.length_map, List.length_range] at hlen
      omega
    obtain ⟨links, hfree, hholds⟩ := freeNetifs_eq st hs hsub.1 rfl hfuel
    have hnodes' : (netifHeads.flatMap (Function.update ls h []) ++ (st.freed ++ ls h)).Perm
        ((List.range st.next).map .node) := by
      refine List.Perm.trans ?_ hnodes
      have hmove : (netifHeads.flatMap (Function.update ls h []) ++ (st.freed ++ ls h)).Perm
          (netifHeads.flatMap (Function.update ls h []) ++ (ls h ++ st.freed)) := List.perm_append_comm.append_left _
      refine hmove.trans ?_
      rw [← List.append_assoc]
      exact (List.perm_append_comm.trans hclear.symm).append_right _
    obtain ⟨st', ls', hfold, hholds', hnodes'', hempty, hkeep⟩ :=
      ih { st with links := links, freed := st.freed ++ ls h } hsub.2 hholds hnodes'
    refine ⟨st', ls', ?_, hholds', hnodes'', List.forall_mem_cons.2 ⟨hkeep h (Function.update_self ..), hempty⟩, ?_⟩
    · rw [List.foldlM_cons, hfree]
      exact hfold
    · intro k hk
      refine hkeep k ?_
      by_cases hkh : k = h
      · rw [hkh, Function.update_self]
      · rw [Function.update_of_ne hkh, hk]

theorem shows_empty (hs : Holds st.links (Seqs.rows netifHeads ls))
    (hnodes : (netifHeads.flatMap ls ++ st.freed).Perm ((List.range st.next).map .node))
    (hempty : ∀ h ∈ netifHeads, ls h = []) : st.Shows ls .empty := by
  have hbuckets : ∀ h ∈ netifBuckets, ls h = [] := fun h hh => hempty h (mem_netifHeads hh)
  refine ⟨hs, hnodes, fun h hh => ?_, fun i => ?_, ?_, ?_⟩
  · rw [hbuckets h hh]
    exact ⟨fun _ hc => (List.not_mem_nil hc).elim, fun _ hc => (List.not_mem_nil hc).elim, List.nodup_nil⟩
  · rw [listed, hbuckets _ (netifBucket_mem _)]
    split <;> rfl
  · rw [List.flatMap_congr hbuckets]
    rfl
  · rw [List.flatMap_congr hempty]
    rfl

theorem netifsHashFini_eq (hs : st.Shows ls t) :
    ∃ st' ls', st.netifsHashFini = some st' ∧ st'.Shows ls' .empty := by
  obtain ⟨st', ls', hfold, hholds, hnodes, hempty, -⟩ := foldlM_freeNetifs st (fun _ hh => hh) hs.holds hs.nodes
  exact ⟨st', ls', hfold, shows_empty hholds hnodes hempty⟩

theorem shows_init (links : Links NetifCell) (netif : NetifCell → Netif) :
    (NetifSt.netifsHashInit links netif).Shows (fun _ => []) .empty := by
  have hs := Holds.foldl_init (Holds.nil (m := links)) netifHeads_nodup fun _ _ => List.not_mem_nil
  rw [List.append_nil] at hs
  exact shows_empty hs (List.Perm.refl ([] : List NetifCell)) fun _ _ => rfl

/-! ### Runs -/

theorem netif_step (a : NetifAct) (rs : List NetifReply) (hs : st.Shows ls t) :
    ∃ st' ls', NetifAct.step (st, rs) a = some (st', (t.apply a).2 :: rs) ∧ st'.Shows ls' (t.apply a).1 := by
  cases a with
  | delete i =>
    obtain ⟨st', ls', hdel, hs'⟩ := hs.deleteNetif_eq i
    exact ⟨st', ls', by simp [NetifAct.step, hdel, NetifTable.apply], hs'⟩
  | update mem i name type =>
    obtain ⟨st', ls', hupd, hs'⟩ := hs.update mem i name type
    exact ⟨st', ls', by simp [NetifAct.step, hupd, NetifTable.apply], hs'⟩
  | byIndex i => exact ⟨st, ls, by simp [NetifAct.step, hs.netifByIndex_eq, NetifTable.apply], hs⟩
  | fini =>
    obtain ⟨st', ls', hfini, hs'⟩ := netifsHashFini_eq hs
    exact ⟨st', ls', by simp [NetifAct.step, hfini, NetifTable.apply], hs'⟩

/-- After `netifs_hash_init` every run of calls ends, replies as the table does, and leaves the nodes of the table:
those that are not in the lists have been freed, each once. -/
theorem netifs_refine (links : Links NetifCell) (netif : NetifCell → Netif) (acts : List NetifAct) :
    ∃ st ls, exec NetifAct.step (NetifSt.netifsHashInit links netif, []) acts =
        some (st, (acts.foldl NetifTable.step (.empty, [])).2) ∧
      st.Shows ls (acts.foldl NetifTable.step (.empty, [])).1 := by
  have hinit := shows_init links netif
  generalize NetifSt.netifsHashInit links netif = st, (fun _ => [] : NetifCell → List NetifCell) = ls,
    NetifTable.empty = t, ([] : List NetifReply) = rs at hinit ⊢
  induction acts generalizing st ls t rs with
  | nil => exact ⟨st, ls, rfl, hinit⟩
  | cons a acts ih =>
    obtain ⟨st', ls', hstep, hs'⟩ := netif_step a rs hinit
    rw [exec_cons, hstep, Option.bind_some]
    exact ih st' ls' _ _ hs'

end

end Aosl
