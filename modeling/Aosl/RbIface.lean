import Aosl.RbIter
import Aosl.RbReplace
import Aosl.RbWalk

/-!
# The red-black tree as a sorted sequence

What a client of `lib/rbtree.c` sees: a sequence of nodes sorted by key (`RbSeq`), into which a new node goes behind all
nodes that do not compare greater. Any sequence of calls of the interface, with whatever was in memory before, ends,
replies as the sequence allows and leaves a red-black tree of the sequence (`rb_refines`), no higher than twice the
logarithm of its size (`rb_logarithmic`). Where equal keys leave a choice (`aosl_find_rb_node`, `aosl_rb_remove`) the
reply is any of the nodes that compare equal.
-/

namespace Aosl
open Lib Lib.CTree

/-- The nodes in memory and the keys of the structures that they are part of. -/
structure RbMap (K : Type) where
  mem : RbSt
  key : Ptr → K

/-- A call of the interface. A node gets its key before it is handed to the tree. -/
inductive RbCall (K σ : Type) where
  | insert (p : Ptr) (k : K)
  | erase (p : Ptr)
  | remove (k : K)
  | replace (victim new : Ptr) (k : K)
  | find (k : K)
  | links (k : K)
  | first
  | last
  | next (p : Ptr)
  | prev (p : Ptr)
  | traverse (o : RbOrder) (f : Ptr → σ → Int × σ) (arg : σ)

/-- What comes back: nothing, a node or `NULL`, two neighbours, or the nodes visited and `arg` afterwards. -/
inductive RbReply (σ : Type) where
  | done
  | node (p : Ptr)
  | links (prev next : Ptr)
  | walked (visited : List Ptr) (arg : σ)

variable {K σ : Type} (cmp : K → K → Int)

namespace RbMap

/-- One call; `none` if it dereferences `NULL` or does not end. -/
def call (m : RbMap K) : RbCall K σ → Option (RbReply σ × RbMap K)
  | .insert p k => do
    let key := Function.update m.key p k
    let (_, mem) ← (aoslRbInsertNode (fun q => cmp (key q) (key p)) p).run m.mem
    return (.done, ⟨mem, key⟩)
  | .erase p => do
    let (_, mem) ← (aoslRbErase p).run m.mem
    return (.done, ⟨mem, m.key⟩)
  | .remove k => do
    let (p, mem) ← (aoslRbRemove fun q => cmp (m.key q) k).run m.mem
    return (.node p, ⟨mem, m.key⟩)
  | .replace victim new k => do
    let (_, mem) ← (aoslRbReplaceNode victim new).run m.mem
    return (.done, ⟨mem, Function.update m.key new k⟩)
  | .find k => do
    let (p, mem) ← (aoslFindRbNode fun q => cmp (m.key q) k).run m.mem
    return (.node p, ⟨mem, m.key⟩)
  | .links k => do
    let (r, mem) ← (aoslFindRbLinks fun q => cmp (m.key q) k).run m.mem
    return (.links r.prev r.next, ⟨mem, m.key⟩)
  | .first => do
    let (p, mem) ← aoslRbFirst.run m.mem
    return (.node p, ⟨mem, m.key⟩)
  | .last => do
    let (p, mem) ← aoslRbLast.run m.mem
    return (.node p, ⟨mem, m.key⟩)
  | .next p => do
    let (q, mem) ← (aoslRbNext p).run m.mem
    return (.node q, ⟨mem, m.key⟩)
  | .prev p => do
    let (q, mem) ← (aoslRbPrev p).run m.mem
    return (.node q, ⟨mem, m.key⟩)
  | .traverse o f arg => do
    let (_, w) ← (o.traverse (callback f)).run ⟨m.mem, arg, [], []⟩
    return (.walked (w.visits.map Prod.fst) w.arg, ⟨w.mem, m.key⟩)

/-- A call, with its reply behind the replies so far. -/
def step (c : RbMap K × List (RbReply σ)) (a : RbCall K σ) : Option (RbMap K × List (RbReply σ)) := do
  let (r, m) ← c.1.call cmp a
  return (m, c.2 ++ [r])

end RbMap

/-! ### The sequence -/

structure RbSeq (K : Type) where
  nodes : List Ptr
  key : Ptr → K

namespace RbSeq

def Sorted (a : RbSeq K) : Prop := a.nodes.Pairwise fun p q => cmp (a.key p) (a.key q) ≤ 0

/-- `new`, with the key `k`, in the place of `victim`. -/
def replace (a : RbSeq K) (victim new : Ptr) (k : K) : RbSeq K :=
  ⟨a.nodes.map fun p => if p = victim then new else p, Function.update a.key new k⟩

/-- What the functions ask of their callers. -/
def Valid (a : RbSeq K) : RbCall K σ → Prop
  | .insert p _ => p ≠ 0 ∧ p ∉ a.nodes
  | .erase p => p ∈ a.nodes
  | .replace victim new k => victim ∈ a.nodes ∧ new ≠ 0 ∧ new ∉ a.nodes ∧ (a.replace victim new k).Sorted cmp
  | .next p => p ∈ a.nodes
  | .prev p => p ∈ a.nodes
  | _ => True

instance (a : RbSeq K) : Decidable (a.Sorted cmp) := inferInstanceAs (Decidable (List.Pairwise _ _))

instance (a : RbSeq K) : (c : RbCall K σ) → Decidable (a.Valid cmp c)
  | .insert p _ => inferInstanceAs (Decidable (p ≠ 0 ∧ p ∉ a.nodes))
  | .erase p => inferInstanceAs (Decidable (p ∈ a.nodes))
  | .remove _ => .isTrue trivial
  | .replace victim new k =>
    inferInstanceAs (Decidable (victim ∈ a.nodes ∧ new ≠ 0 ∧ new ∉ a.nodes ∧ (a.replace victim new k).Sorted cmp))
  | .find _ => .isTrue trivial
  | .links _ => .isTrue trivial
  | .first => .isTrue trivial
  | .last => .isTrue trivial
  | .next p => inferInstanceAs (Decidable (p ∈ a.nodes))
  | .prev p => inferInstanceAs (Decidable (p ∈ a.nodes))
  | .traverse _ _ _ => .isTrue trivial

/-- `p` is a node with `rb_cmp = 0`, or `NULL` if there is none. -/
def Finds (a : RbSeq K) (k : K) (p : Ptr) : Prop :=
  p = 0 ∧ (∀ q ∈ a.nodes, cmp (a.key q) k ≠ 0) ∨ p ∈ a.nodes ∧ cmp (a.key p) k = 0

/-- The replies that the sequence allows. -/
def Allows (a : RbSeq K) : RbCall K σ → RbReply σ → Prop
  | .insert _ _, .done => True
  | .erase _, .done => True
  | .remove k, .node p => a.Finds cmp k p
  | .replace _ _ _, .done => True
  | .find k, .node p => a.Finds cmp k p
  | .links k, .links prev next =>
    prev = (a.nodes.filter fun q => ¬0 < cmp (a.key q) k).getLastD 0 ∧
      next = (a.nodes.filter fun q => 0 < cmp (a.key q) k).headD 0
  | .first, .node p => p = a.nodes.headD 0
  | .last, .node p => p = a.nodes.getLastD 0
  | .next p, .node q => ∃ l₁ l₂, a.nodes = l₁ ++ p :: l₂ ∧ q = l₂.headD 0
  | .prev p, .node q => ∃ l₁ l₂, a.nodes = l₁ ++ p :: l₂ ∧ q = l₁.getLastD 0
  | .traverse o f arg, .walked visited arg' =>
    ∃ t m, Balanced t .black m ∧ t.toList = a.nodes ∧ visited = (visitUntil f (o.sequence t) arg).1 ∧
      arg' = (visitUntil f (o.sequence t) arg).2.2
  | _, _ => False

/-- The sequence after a call with its reply. -/
def after (a : RbSeq K) : RbCall K σ → RbReply σ → RbSeq K
  | .insert p k, _ =>
    ⟨a.nodes.filter (fun q => ¬0 < cmp (a.key q) k) ++ p :: a.nodes.filter (fun q => 0 < cmp (a.key q) k),
      Function.update a.key p k⟩
  | .erase p, _ => ⟨a.nodes.erase p, a.key⟩
  | .remove _, .node p => ⟨a.nodes.erase p, a.key⟩
  | .replace victim new k, _ => a.replace victim new k
  | _, _ => a

/-- The sequence goes through the calls with these replies. -/
inductive Runs : RbSeq K → List (RbCall K σ) → List (RbReply σ) → RbSeq K → Prop where
  | nil {a : RbSeq K} : Runs a [] [] a
  | cons {a b : RbSeq K} {c : RbCall K σ} {r : RbReply σ} {cs : List (RbCall K σ)} {rs : List (RbReply σ)} :
      a.Allows cmp c r → Runs (a.after cmp c r) cs rs b → Runs a (c :: cs) (r :: rs) b

variable {cmp} {a : RbSeq K} {p q : Ptr} {k : K}

theorem filter_update {l : List Ptr} (key : Ptr → K) (hp : p ∉ l) (P : K → Bool) :
    l.filter (fun q => P (Function.update key p k q)) = l.filter fun q => P (key q) :=
  List.filter_congr fun q hq => by rw [Function.update_of_ne (ne_of_mem_of_not_mem hq hp)]

theorem Sorted.stable (h : a.Sorted cmp) : StableSort cmp a.key a.nodes a.nodes := ⟨.refl _, h, fun _ => rfl⟩

theorem Sorted.insert (hc : TotalPreorder cmp) (h : a.Sorted cmp) (hp : p ∉ a.nodes) :
    (a.after cmp (.insert p k : RbCall K σ) .done).Sorted cmp := by
  have hkey : ∀ q ∈ a.nodes, Function.update a.key p k q = a.key q := fun q hq =>
    Function.update_of_ne (ne_of_mem_of_not_mem hq hp) _ _
  have hins := ((h.stable.congr hkey).insert (x := p) hc).sorted
  rw [Function.update_self, filter_update a.key hp fun x => ¬0 < cmp x k,
    filter_update a.key hp fun x => 0 < cmp x k] at hins
  exact hins

theorem Sorted.erase (h : a.Sorted cmp) (p : Ptr) : (⟨a.nodes.erase p, a.key⟩ : RbSeq K).Sorted cmp :=
  h.sublist List.erase_sublist

/-- A traversal calls the callback at most once for each node, and for all of them if it is never told to stop. -/
theorem visited_prefix {o : RbOrder} {f : Ptr → σ → Int × σ} {arg arg' : σ} {v : List Ptr}
    (h : a.Allows cmp (.traverse o f arg) (.walked v arg')) :
    ∃ l, l.Perm a.nodes ∧ v <+: l ∧ ((∀ p x, (f p x).1 = 0) → v = l) := by
  obtain ⟨t, -, -, ht, rfl, -⟩ := h
  refine ⟨o.sequence t, ht ▸ o.sequence_perm t, visitUntil_prefix f _ arg, fun hgo => visitUntil_all ?_⟩
  exact visitUntil_answer hgo _ arg

end RbSeq

/-! ### The simulation -/

variable {cmp}

theorem headD_reverse (l : List Ptr) : l.reverse.headD 0 = l.getLastD 0 := by
  rw [List.headD_eq_head?_getD, List.head?_reverse, List.getLastD_eq_getLast?]

/-- The tree in memory is the sequence. -/
structure RbMap.Shows (m : RbMap K) (a : RbSeq K) : Prop where
  tree : IsRb m.mem a.nodes
  key : m.key = a.key

/-- The sequence in memory. -/
def RbMap.seq (m : RbMap K) : RbSeq K := ⟨aoslRbTraverseLdr m.mem, m.key⟩

theorem RbMap.Shows.seq_eq {m : RbMap K} {a : RbSeq K} (h : m.Shows a) : m.seq = a := by
  rw [RbMap.seq, h.tree.traverse, h.key]

namespace RbMap

variable {m : RbMap K} {a : RbSeq K} {c : RbCall K σ} {k : K} {p q : Ptr}

theorem Shows.nodup (h : m.Shows a) : a.nodes.Nodup := h.tree.nodup

theorem Shows.sign_sorted (hc : TotalPreorder cmp) (h : m.Shows a) (hs : a.Sorted cmp) (k : K) :
    SignSorted (fun q => cmp (m.key q) k) a.nodes := by
  rw [h.key]
  exact hs.stable.sign_sorted hc k

/-- What a call does when it replies as the sequence allows. -/
def Follows (cmp : K → K → Int) (m : RbMap K) (a : RbSeq K) (c : RbCall K σ) : Prop :=
  ∃ r m', m.call cmp c = some (r, m') ∧ a.Allows cmp c r ∧ m'.Shows (a.after cmp c r) ∧ (a.after cmp c r).Sorted cmp

theorem Shows.insert (hc : TotalPreorder cmp) (h : m.Shows a) (hs : a.Sorted cmp) (hp0 : p ≠ 0) (hp : p ∉ a.nodes) :
    m.Follows cmp a (.insert p k : RbCall K σ) := by
  have hkey : ∀ q ∈ a.nodes, Function.update a.key p k q = a.key q := fun q hq =>
    Function.update_of_ne (ne_of_mem_of_not_mem hq hp) _ _
  have hsign := (hs.stable.congr hkey).sign_sorted hc k
  obtain ⟨s', hrun, h'⟩ := aoslRbInsertNode_run h.tree hsign hp0 hp
  rw [RbSeq.filter_update a.key hp fun x => ¬0 < cmp x k, RbSeq.filter_update a.key hp fun x => 0 < cmp x k] at h'
  refine ⟨.done, ⟨s', Function.update m.key p k⟩, ?_, trivial, ⟨h', ?_⟩, hs.insert hc hp⟩
  · simp only [call, h.key, Function.update_self, hrun]
    rfl
  · rw [h.key]
    rfl

theorem Shows.erase (h : m.Shows a) (hs : a.Sorted cmp) (hp : p ∈ a.nodes) :
    m.Follows cmp a (.erase p : RbCall K σ) := by
  obtain ⟨s', hrun, h'⟩ := aoslRbErase_run h.tree hp
  refine ⟨.done, ⟨s', m.key⟩, ?_, trivial, ⟨h', h.key⟩, hs.erase p⟩
  simp only [call, hrun]
  rfl

theorem Shows.remove (hc : TotalPreorder cmp) (h : m.Shows a) (hs : a.Sorted cmp) :
    m.Follows cmp a (.remove k : RbCall K σ) := by
  obtain ⟨p, s', hrun, h', hp⟩ := aoslRbRemove_run h.tree (h.sign_sorted hc hs k)
  rw [h.key] at hp
  refine ⟨.node p, ⟨s', m.key⟩, ?_, hp, ⟨h', h.key⟩, hs.erase p⟩
  simp only [call, hrun]
  rfl

theorem Shows.replace (h : m.Shows a) (hp : p ∈ a.nodes) (hq0 : q ≠ 0) (hq : q ∉ a.nodes)
    (hs : (a.replace p q k).Sorted cmp) : m.Follows cmp a (.replace p q k : RbCall K σ) := by
  obtain ⟨l₁, l₂, hl⟩ := List.append_of_mem hp
  have hnodup := h.nodup
  rw [hl, List.nodup_middle, List.nodup_cons, List.mem_append, not_or] at hnodup
  have hkeep : ∀ l : List Ptr, p ∉ l → l.map (fun x => if x = p then q else x) = l := fun l hpl =>
    (List.map_congr_left fun x hx => if_neg (ne_of_mem_of_not_mem hx hpl)).trans (List.map_id' l)
  obtain ⟨s', hrun, h'⟩ := aoslRbReplaceNode_run (hl ▸ h.tree) hq0 (hl ▸ hq)
  have hnodes : (a.replace p q k).nodes = l₁ ++ q :: l₂ := by
    rw [RbSeq.replace, hl, List.map_append, List.map_cons, if_pos rfl, hkeep l₁ hnodup.1.1, hkeep l₂ hnodup.1.2]
  refine ⟨.done, ⟨s', Function.update m.key q k⟩, ?_, trivial, ⟨hnodes ▸ h', ?_⟩, hs⟩
  · simp only [call, hrun]
    rfl
  · rw [h.key]
    rfl

theorem Shows.find (hc : TotalPreorder cmp) (h : m.Shows a) (hs : a.Sorted cmp) :
    m.Follows cmp a (.find k : RbCall K σ) := by
  obtain ⟨p, hrun, hp⟩ := aoslFindRbNode_run h.tree (h.sign_sorted hc hs k)
  rw [h.key] at hp
  refine ⟨.node p, m, ?_, hp, h, hs⟩
  simp only [call, hrun]
  rfl

theorem Shows.links (hc : TotalPreorder cmp) (h : m.Shows a) (hs : a.Sorted cmp) :
    m.Follows cmp a (.links k : RbCall K σ) := by
  have hsign := h.sign_sorted hc hs k
  obtain ⟨t, n, hat, -, ht, hcount⟩ := h.tree
  rw [← ht] at hcount hsign
  obtain ⟨z, hrun, -, -, hbefore, hafter⟩ := aoslFindRbLinks_run hat hcount hsign
  refine ⟨.links (linksAt z).prev (linksAt z).next, m, ?_, ⟨?_, ?_⟩, h, hs⟩
  · simp only [call, hrun]
    rfl
  · rw [← h.key, ← ht, ← hbefore]
    rfl
  · rw [← h.key, ← ht, ← hafter]
    rfl

theorem Shows.ends (h : m.Shows a) (hs : a.Sorted cmp) :
    m.Follows cmp a (.first : RbCall K σ) ∧ m.Follows cmp a (.last : RbCall K σ) := by
  have hfirst := h.tree.rbEnd_run .right
  have hlast := h.tree.rbEnd_run .left
  refine ⟨⟨.node _, m, ?_, rfl, h, hs⟩, ⟨.node _, m, ?_, rfl, h, hs⟩⟩
  · simp only [call, aoslRbFirst]
    rw [show Side.left = Side.right.flip from rfl, hfirst]
    rfl
  · simp only [call, aoslRbLast]
    rw [show Side.right = Side.left.flip from rfl, hlast, toward, headD_reverse]
    rfl

theorem Shows.next (h : m.Shows a) (hs : a.Sorted cmp) (hp : p ∈ a.nodes) :
    m.Follows cmp a (.next p : RbCall K σ) ∧ m.Follows cmp a (.prev p : RbCall K σ) := by
  obtain ⟨l₁, l₂, hl⟩ := List.append_of_mem hp
  have hright : toward .right a.nodes = l₁ ++ p :: l₂ := hl
  have hleft : toward .left a.nodes = l₂.reverse ++ p :: l₁.reverse := by
    rw [toward, hl]
    simp
  have hnext := h.tree.rbStep_run hright
  have hprev := h.tree.rbStep_run hleft
  refine ⟨⟨.node _, m, ?_, ⟨l₁, l₂, hl, rfl⟩, h, hs⟩, ⟨.node _, m, ?_, ⟨l₁, l₂, hl, rfl⟩, h, hs⟩⟩
  · simp only [call, aoslRbNext, hnext]
    rfl
  · simp only [call, aoslRbPrev, hprev, headD_reverse]
    rfl

theorem Shows.traverse (h : m.Shows a) (hs : a.Sorted cmp) (o : RbOrder) (f : Ptr → σ → Int × σ) (arg : σ) :
    m.Follows cmp a (.traverse o f arg) := by
  obtain ⟨t, n, hat, hb, ht, hcount⟩ := h.tree
  have hheight : t.height ≤ m.mem.count := by
    rw [hcount, ← ht]
    exact height_le_length t
  have hrun : (o.traverse (callback f)).run ⟨m.mem, arg, [], []⟩ = _ := o.traverse_run hat hheight
  refine ⟨.walked _ _, m, ?_, ⟨t, n, hb, ht, rfl, rfl⟩, h, hs⟩
  simp only [call, hrun]
  simp [WalkSt.seen, Function.comp_def]

/-- Every call that the sequence permits ends and replies as the sequence allows. -/
theorem Shows.call (hc : TotalPreorder cmp) (h : m.Shows a) (hs : a.Sorted cmp) (c : RbCall K σ) (hv : a.Valid cmp c) :
    m.Follows cmp a c := by
  cases c with
  | insert p k => exact h.insert hc hs hv.1 hv.2
  | erase p => exact h.erase hs hv
  | remove k => exact h.remove hc hs
  | replace victim new k => exact h.replace hv.1 hv.2.1 hv.2.2.1 hv.2.2.2
  | find k => exact h.find hc hs
  | links k => exact h.links hc hs
  | first => exact (h.ends hs).1
  | last => exact (h.ends hs).2
  | next p => exact (h.next hs hv).1
  | prev p => exact (h.next hs hv).2
  | traverse o f arg => exact h.traverse hs o f arg

theorem Shows.run {cs : List (RbCall K σ)} {rs : List (RbReply σ)} (hc : TotalPreorder cmp) (h : m.Shows a)
    (hs : a.Sorted cmp) (hv : Along (step cmp) (fun c call => c.1.seq.Valid cmp call) (m, rs) cs) :
    ∃ m' rs', exec (step cmp) (m, rs) cs = some (m', rs ++ rs') ∧
      ∃ b, RbSeq.Runs cmp a cs rs' b ∧ m'.Shows b ∧ b.Sorted cmp := by
  induction cs generalizing m a rs with
  | nil => exact ⟨m, [], by simp, a, .nil, h, hs⟩
  | cons c cs ih =>
    rw [along_cons] at hv
    obtain ⟨hvalid, hrest⟩ := hv
    rw [h.seq_eq] at hvalid
    obtain ⟨r, m', hcall, hallows, hm', hs'⟩ := h.call hc hs c hvalid
    have hstep : step cmp (m, rs) c = some (m', rs ++ [r]) := by
      rw [step, hcall]
      rfl
    obtain ⟨m'', rs', hrun, b, hruns, hm'', hb⟩ := ih hm' hs' (hrest _ hstep)
    refine ⟨m'', r :: rs', ?_, b, .cons hallows hruns, hm'', hb⟩
    rw [exec_cons, hstep, Option.bind_some, hrun, List.append_assoc]
    rfl

end RbMap

/-- From any memory, every sequence of calls that is valid for the sequence at its time ends and replies as the sequence
allows, and the tree in memory is the sequence, sorted. -/
theorem rb_refines (hc : TotalPreorder cmp) (s : RbSt) (key : Ptr → K) (cs : List (RbCall K σ))
    (hv : Along (RbMap.step cmp) (fun c call => c.1.seq.Valid cmp call) (⟨aoslRbRootInit s, key⟩, []) cs) :
    ∃ m rs, exec (RbMap.step cmp) (⟨aoslRbRootInit s, key⟩, []) cs = some (m, rs) ∧
      RbSeq.Runs cmp ⟨[], key⟩ cs rs m.seq ∧ IsRb m.mem m.seq.nodes ∧ m.seq.Sorted cmp := by
  have hinit : RbMap.Shows ⟨aoslRbRootInit s, key⟩ (⟨[], key⟩ : RbSeq K) := ⟨isRb_init s, rfl⟩
  have hempty : (⟨[], key⟩ : RbSeq K).Sorted cmp := .nil
  obtain ⟨m, rs, hrun, b, hruns, hm, hs⟩ := hinit.run hc hempty hv
  refine ⟨m, rs, hrun, ?_⟩
  rw [hm.seq_eq]
  exact ⟨hruns, hm.tree, hs⟩

/-- Every kind of call: equal keys, a node put in the place of another one, a traversal that stops at the third node. -/
theorem rb_refines_int : ∃ m rs, exec (RbMap.step fun a b : Int => a - b)
    (⟨aoslRbRootInit ⟨fun _ => 7, fun _ _ => 9, 3, 5⟩, fun _ => 0⟩, [])
    [.insert 1 5, .insert 2 9, .insert 3 7, .insert 4 7, .replace 3 8 7, .find 7, .links 7, .erase 1, .first, .last,
      .next 8, .prev 4, .remove 9, .insert 2 5, .insert 5 1,
      .traverse .dlr (fun _ n => (if n = 2 then 1 else 0, n + 1)) 0] =
        some (m, rs) ∧
      RbSeq.Runs (fun a b : Int => a - b) ⟨[], fun _ => 0⟩
        [.insert 1 5, .insert 2 9, .insert 3 7, .insert 4 7, .replace 3 8 7, .find 7, .links 7, .erase 1, .first, .last,
          .next 8, .prev 4, .remove 9, .insert 2 5, .insert 5 1,
          .traverse .dlr (fun _ n => (if n = 2 then 1 else 0, n + 1)) 0] rs m.seq ∧
      IsRb m.mem m.seq.nodes ∧ m.seq.Sorted fun a b : Int => a - b :=
  rb_refines ⟨fun a b => by omega, fun a b c => by omega⟩ _ _ _ (by decide +kernel)

/-! ### The length of the descents -/

section
variable {s : RbSt} {z : Zip Ptr} {t : CTree Ptr}

theorem findRbNodeLoop_ends (sign : Ptr → Int) (h : At s z t) :
    ∃ p, ∀ k, t.height < k → (findRbNodeLoop sign k (rootPtr t)).run s = some (p, s) := by
  induction t generalizing z with
  | leaf =>
    refine ⟨0, fun k hk => ?_⟩
    obtain ⟨k, rfl⟩ := Nat.exists_eq_add_one_of_ne_zero (Nat.ne_of_gt hk)
    rfl
  | node l x c r ihl ihr =>
    have hx : x ≠ 0 := h.ne_zero (d := .left)
    obtain ⟨p, hp⟩ := ihl (h.near (d := .left))
    obtain ⟨q, hq⟩ := ihr (h.down_far (d := .left))
    refine ⟨if sign x = 0 then x else if sign x > 0 then p else q, fun k hk => ?_⟩
    obtain ⟨k, rfl⟩ := Nat.exists_eq_add_one_of_ne_zero (Nat.ne_of_gt (Nat.zero_lt_of_lt hk))
    rw [height] at hk
    rw [rootPtr, findRbNodeLoop, if_neg hx]
    by_cases h0 : sign x = 0
    · rw [if_pos h0, if_pos h0]
      rfl
    rw [if_neg h0, if_neg h0]
    by_cases hpos : sign x > 0
    · rw [if_pos hpos, if_pos hpos, StateT.run_bind, run_rbChild hx, h.child_near (d := .left)]
      exact hp k (by omega)
    · rw [if_neg hpos, if_neg hpos, StateT.run_bind, run_rbChild hx]
      have hfar : s.child .right x = rootPtr r := h.child_far (d := .left)
      rw [hfar]
      exact hq k (by omega)

theorem findRbLinksLoop_ends (sign : Ptr → Int) (h : At s z t) :
    ∃ r, ∀ k, t.height < k → (findRbLinksLoop sign k (linksAt z)).run s = some (r, s) := by
  induction t generalizing z with
  | leaf =>
    refine ⟨linksAt z, fun k hk => ?_⟩
    obtain ⟨k, rfl⟩ := Nat.exists_eq_add_one_of_ne_zero (Nat.ne_of_gt hk)
    rw [findRbLinksLoop, StateT.run_bind, show (linksAt z).link = linkOf z from rfl, h.run_readLink]
    rfl
  | node l x c r ihl ihr =>
    obtain ⟨a, ha⟩ := ihl (h.near (d := .left))
    obtain ⟨b, hb⟩ := ihr (h.down_far (d := .left))
    refine ⟨if sign x > 0 then a else b, fun k hk => ?_⟩
    obtain ⟨k, rfl⟩ := Nat.exists_eq_add_one_of_ne_zero (Nat.ne_of_gt (Nat.zero_lt_of_lt hk))
    rw [height] at hk
    rw [findRbLinksLoop, StateT.run_bind, show (linksAt z).link = linkOf z from rfl, h.run_readLink,
      Option.bind_eq_bind, Option.bind_some, rootPtr, if_neg (h.ne_zero (d := .left))]
    by_cases hpos : sign x > 0
    · rw [if_pos hpos, if_pos hpos, ← linksAt_cons_left x c r]
      exact ha k (by omega)
    · rw [if_neg hpos, if_neg hpos, ← linksAt_cons_right x c l]
      exact hb k (by omega)

end

/-- What a descent costs: the loops of the two searches end within `k + 1` rounds, the last of which finds `NULL` or
the node, for any `rb_cmp`, and no recursion over the tree is deeper than `k`. -/
structure Shallow (s : RbSt) (k : Nat) : Prop where
  tree : ∃ t, At s [] t ∧ t.height ≤ k
  find : ∀ sign, ∃ p, ∀ j, k < j → (findRbNodeLoop sign j s.rbNode).run s = some (p, s)
  links : ∀ sign, ∃ r, ∀ j, k < j → (findRbLinksLoop sign j ⟨.root, 0, 0, 0⟩).run s = some (r, s)

theorem IsRb.shallow {s : RbSt} {l : List Ptr} (h : IsRb s l) : Shallow s (2 * Nat.log2 (l.length + 1)) := by
  obtain ⟨t, m, hat, hb, rfl, -⟩ := h
  have hlog := hb.height_le_log
  have hroot : s.rbNode = rootPtr t := hat.zrep
  refine ⟨⟨t, hat, hlog⟩, fun sign => ?_, fun sign => ?_⟩
  · obtain ⟨p, hp⟩ := findRbNodeLoop_ends sign hat
    exact ⟨p, fun j hj => hroot ▸ hp j (by omega)⟩
  · obtain ⟨r, hr⟩ := findRbLinksLoop_ends sign hat
    exact ⟨r, fun j hj => hr j (by omega)⟩

/-- After every sequence of calls the searches are logarithmic in the number of nodes. -/
theorem rb_logarithmic (hc : TotalPreorder cmp) (s : RbSt) (key : Ptr → K) (cs : List (RbCall K σ))
    (hv : Along (RbMap.step cmp) (fun c call => c.1.seq.Valid cmp call) (⟨aoslRbRootInit s, key⟩, []) cs) :
    ∃ m rs, exec (RbMap.step cmp) (⟨aoslRbRootInit s, key⟩, []) cs = some (m, rs) ∧
      Shallow m.mem (2 * Nat.log2 (m.mem.count + 1)) := by
  have hinit : RbMap.Shows ⟨aoslRbRootInit s, key⟩ (⟨[], key⟩ : RbSeq K) := ⟨isRb_init s, rfl⟩
  have hempty : (⟨[], key⟩ : RbSeq K).Sorted cmp := .nil
  obtain ⟨m, rs, hrun, b, -, hm, -⟩ := hinit.run hc hempty hv
  have hcount : m.mem.count = b.nodes.length := by
    obtain ⟨-, -, -, -, -, hcount⟩ := hm.tree
    exact hcount
  exact ⟨m, rs, hrun, hcount ▸ hm.tree.shallow⟩

theorem rb_logarithmic_int : ∃ (m : RbMap Int) (rs : List (RbReply Nat)), exec (RbMap.step fun a b : Int => a - b)
    (⟨aoslRbRootInit ⟨fun _ => 7, fun _ _ => 9, 3, 5⟩, fun _ => 0⟩, [])
    [.insert 1 5, .insert 2 9, .insert 3 7, .insert 4 7, .replace 3 8 7, .erase 1, .insert 6 6] = some (m, rs) ∧
      Shallow m.mem (2 * Nat.log2 (m.mem.count + 1)) :=
  rb_logarithmic ⟨fun a b => by omega, fun a b c => by omega⟩ _ _ _ (by decide +kernel)

end Aosl
