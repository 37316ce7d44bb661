import Aosl.Lib.Ring
import Aosl.Lib.Steps

/-!
# Lists, `api/aosl_list.h`

A list is a ring of cells, of which one is its head. A poisoned pointer is `none`, and a call that follows one gives
nothing.

What the calls are for are sequences: `Seqs` says which cells are the heads of lists, and what is in these. A call
that may be made on sequences does to the rings of cells what it does to the sequences, and replies the same
(`list_refines`).
-/

namespace Aosl
open Lib

section

variable {α : Type} [DecidableEq α] (m : Links α)

def setNext (p : α) (v : Option α) : Links α := { m with next := Function.update m.next p v }

def setPrev (p : α) (v : Option α) : Links α := { m with prev := Function.update m.prev p v }

def aoslListHeadInit (list : α) : Links α := setPrev (setNext m list (some list)) list (some list)

def aoslListHeadPoison (list : α) : Links α := setPrev (setNext m list none) list none

/-- `__aosl_list_add`. -/
def listAdd (new prev next : α) : Links α :=
  setNext (setPrev (setNext (setPrev m next (some new)) new (some next)) new (some prev)) prev (some new)

def aoslListAdd (new head : α) : Option (Links α) := do
  let next ← m.next head
  return listAdd m new head next

def aoslListAddTail (new head : α) : Option (Links α) := do
  let prev ← m.prev head
  return listAdd m new prev head

/-- `__aosl_list_del`. -/
def listDel (prev next : α) : Links α := setNext (setPrev m next (some prev)) prev (some next)

/-- `__aosl_list_del_entry`. -/
def listDelEntry (entry : α) : Option (Links α) := do
  let prev ← m.prev entry
  let next ← m.next entry
  return listDel m prev next

def aoslListDel (entry : α) : Option (Links α) := do
  let m ← listDelEntry m entry
  return aoslListHeadPoison m entry

def aoslListDelInit (entry : α) : Option (Links α) := do
  let m ← listDelEntry m entry
  return aoslListHeadInit m entry

def aoslListMove (list head : α) : Option (Links α) := do
  let m ← listDelEntry m list
  aoslListAdd m list head

def aoslListMoveTail (list head : α) : Option (Links α) := do
  let m ← listDelEntry m list
  aoslListAddTail m list head

def aoslListEmpty (head : α) : Bool := m.next head = some head

def aoslListEmptyCareful (head : α) : Bool := m.next head = some head ∧ m.next head = m.prev head

def aoslListIsSingular (head : α) : Option Bool := do
  let next ← m.next head
  let prev ← m.prev head
  return !aoslListEmpty m head && next = prev

/-- `__aosl_list_splice`. -/
def listSplice (list prev next : α) : Option (Links α) := do
  let first ← m.next list
  let last ← m.prev list
  return setPrev (setNext (setNext (setPrev m first (some prev)) prev (some first)) last (some next)) next (some last)

def aoslListSpliceTailInit (list head : α) : Option (Links α) :=
  if !aoslListEmpty m list then do
    let prev ← m.prev head
    let m ← listSplice m list prev head
    return aoslListHeadInit m list
  else some m

/-- The cells that `aosl_list_for_each` comes to from `pos`, in as many rounds as there may be. -/
def aoslListForEach (head : α) : Nat → α → Option (List α)
  | 0, _ => none
  | fuel + 1, pos => if pos ≠ head then do
      let next ← m.next pos
      let rest ← aoslListForEach head fuel next
      return pos :: rest
    else some []

/-- The cell at one end, `NULL` if there is none. -/
def listEnd (side : Links α → α → Option α) (head : α) : Option (Option α) :=
  if !aoslListEmpty m head then (side m head).map some else some none

def aoslListHead (head : α) : Option (Option α) := listEnd m Links.next head

def aoslListTail (head : α) : Option (Option α) := listEnd m Links.prev head

/-- The next cell on one side, `NULL` behind the last one. -/
def listAside (side : Links α → α → Option α) (head node : α) : Option (Option α) := do
  let node ← side m node
  return if node ≠ head then some node else none

def aoslListNext (head node : α) : Option (Option α) := listAside m Links.next head node

def aoslListPrev (head node : α) : Option (Option α) := listAside m Links.prev head node

/-- The cell at one end is deleted. -/
def listRemove (side : Links α → α → Option α) (del : Links α → α → Option (Links α)) (head : α) :
    Option (Links α × Option α) :=
  if !aoslListEmpty m head then do
    let p ← side m head
    let m ← del m p
    return (m, some p)
  else some (m, none)

def aoslListRemoveHead (head : α) : Option (Links α × Option α) := listRemove m Links.next aoslListDel head

def aoslListRemoveHeadInit (head : α) : Option (Links α × Option α) := listRemove m Links.next aoslListDelInit head

def aoslListRemoveTail (head : α) : Option (Links α × Option α) := listRemove m Links.prev aoslListDel head

def aoslListRemoveTailInit (head : α) : Option (Links α × Option α) := listRemove m Links.prev aoslListDelInit head

end

inductive ListAct (α : Type) where
  | init (list : α)
  | add (new head : α)
  | addTail (new head : α)
  | del (entry : α)
  | delInit (entry : α)
  | move (list head : α)
  | moveTail (list head : α)
  | spliceTailInit (list head : α)
  | removeHead (head : α)
  | removeHeadInit (head : α)
  | removeTail (head : α)
  | removeTailInit (head : α)
  | empty (head : α)
  | emptyCareful (head : α)
  | isSingular (head : α)
  | head (head : α)
  | tail (head : α)
  | next (head node : α)
  | prev (head node : α)
  | forEach (head : α) (rounds : Nat)

inductive ListReply (α : Type) where
  | done
  | bool (b : Bool)
  | node (p : Option α)
  | nodes (l : List α)
  deriving DecidableEq

section

variable {α : Type} [DecidableEq α]

/-- A call, on the cells and the replies so far. -/
def ListAct.step (s : Links α × List (ListReply α)) (a : ListAct α) : Option (Links α × List (ListReply α)) :=
  let m := s.1
  let done (r : Option (Links α)) := r.map fun m => (m, .done :: s.2)
  let removed (r : Option (Links α × Option α)) := r.map fun (m, p) => (m, .node p :: s.2)
  let replied (r : Option (ListReply α)) := r.map fun r => (m, r :: s.2)
  match a with
  | .init p => done (some (aoslListHeadInit m p))
  | .add n h => done (aoslListAdd m n h)
  | .addTail n h => done (aoslListAddTail m n h)
  | .del n => done (aoslListDel m n)
  | .delInit n => done (aoslListDelInit m n)
  | .move n h => done (aoslListMove m n h)
  | .moveTail n h => done (aoslListMoveTail m n h)
  | .spliceTailInit g h => done (aoslListSpliceTailInit m g h)
  | .removeHead h => removed (aoslListRemoveHead m h)
  | .removeHeadInit h => removed (aoslListRemoveHeadInit m h)
  | .removeTail h => removed (aoslListRemoveTail m h)
  | .removeTailInit h => removed (aoslListRemoveTailInit m h)
  | .empty h => replied (some (.bool (aoslListEmpty m h)))
  | .emptyCareful h => replied (some (.bool (aoslListEmptyCareful m h)))
  | .isSingular h => replied ((aoslListIsSingular m h).map .bool)
  | .head h => replied ((aoslListHead m h).map .node)
  | .tail h => replied ((aoslListTail m h).map .node)
  | .next h n => replied ((aoslListNext m h n).map .node)
  | .prev h n => replied ((aoslListPrev m h n).map .node)
  | .forEach h rounds => replied (((m.next h).bind (aoslListForEach m h rounds)).map .nodes)

end

/-! ### Sequences -/

/-- The heads of the lists, each with what is in its list. -/
abbrev Seqs (α : Type) := List (α × List α)

namespace Seqs

variable {α : Type} [DecidableEq α]

def cells (s : Seqs α) : List α := s.flatMap fun e => e.1 :: e.2

/-- The first entry with a property, and the others. -/
def pick (p : α × List α → Bool) (s : Seqs α) : Option ((α × List α) × Seqs α) :=
  (s.find? p).map fun e => (e, s.eraseP p)

/-- The list of a head, and the other lists. -/
def listOf (h : α) (s : Seqs α) : Option (List α × Seqs α) := do
  let ((_, l), rest) ← s.pick (·.1 = h)
  return (l, rest)

/-- A cell that is in no list, and has none but an empty list of its own, is taken as new. -/
def free (n : α) (s : Seqs α) : Option (Seqs α) :=
  if n ∈ s.cells then do
    let (l, rest) ← s.listOf n
    if l = [] then some rest else none
  else some s

/-- A cell is taken out of its list. -/
def detach (n : α) (s : Seqs α) : Option (Seqs α) :=
  match s.pick (n ∈ ·.2) with
  | some ((h, l), rest) => some ((h, l.erase n) :: rest)
  | none => if n ∈ s.cells then s.free n else none

def addHead (n h : α) (s : Seqs α) : Option (Seqs α) := do
  let (l, rest) ← s.listOf h
  return (h, n :: l) :: rest

def addTail (n h : α) (s : Seqs α) : Option (Seqs α) := do
  let (l, rest) ← s.listOf h
  return (h, l ++ [n]) :: rest

/-- One end of a list: the cell there, if there is one, and the list without it. -/
def takeHead : List α → Option α × List α
  | [] => (none, [])
  | n :: l => (some n, l)

def takeTail (l : List α) : Option α × List α := (l.getLast?, l.dropLast)

/-- A cell is removed from an end of the list of `h`, and becomes the head of an empty list if `init`. -/
def remove (init : Bool) (take : List α → Option α × List α) (h : α) (s : Seqs α) :
    Option (Seqs α × ListReply α) := do
  let (l, rest) ← s.listOf h
  let (p, l') := take l
  let own := if init then p.toList.map fun n => (n, []) else []
  return (own ++ (h, l') :: rest, .node p)

/-- A question about the list of `h`. -/
def ask (f : List α → Option (ListReply α)) (h : α) (s : Seqs α) : Option (Seqs α × ListReply α) := do
  let (l, _) ← s.listOf h
  let r ← f l
  return (s, r)

def after (n : α) (l : List α) : Option α := (l.dropWhile (· ≠ n)).tail.head?

/-- What a call does to the sequences. -/
def apply (s : Seqs α) : ListAct α → Option (Seqs α × ListReply α)
  | .init n => do
    let s ← s.free n
    return ((n, []) :: s, .done)
  | .add n h => do
    let s ← s.free n
    return (← s.addHead n h, .done)
  | .addTail n h => do
    let s ← s.free n
    return (← s.addTail n h, .done)
  | .del n => do return (← s.detach n, .done)
  | .delInit n => do return ((n, []) :: (← s.detach n), .done)
  | .move n h => do
    let s ← s.detach n
    return (← s.addHead n h, .done)
  | .moveTail n h => do
    let s ← s.detach n
    return (← s.addTail n h, .done)
  | .spliceTailInit g h => do
    let (new, rest) ← s.listOf g
    let (l, rest) ← listOf h rest
    return ((g, []) :: (h, l ++ new) :: rest, .done)
  | .removeHead h => s.remove false takeHead h
  | .removeHeadInit h => s.remove true takeHead h
  | .removeTail h => s.remove false takeTail h
  | .removeTailInit h => s.remove true takeTail h
  | .empty h => s.ask (fun l => some (.bool l.isEmpty)) h
  | .emptyCareful h => s.ask (fun l => some (.bool l.isEmpty)) h
  | .isSingular h => s.ask (fun l => some (.bool (l.length = 1))) h
  | .head h => s.ask (fun l => some (.node l.head?)) h
  | .tail h => s.ask (fun l => some (.node l.getLast?)) h
  | .next h n => s.ask (fun l => if n ∈ l then some (.node (after n l)) else none) h
  | .prev h n => s.ask (fun l => if n ∈ l then some (.node (after n l.reverse)) else none) h
  | .forEach h rounds => s.ask (fun l => if l.length < rounds then some (.nodes l) else none) h

def step (s : Seqs α × List (ListReply α)) (a : ListAct α) : Option (Seqs α × List (ListReply α)) :=
  (s.1.apply a).map fun r => (r.1, r.2 :: s.2)

end Seqs

/-- The rings of cells are the sequences. -/
structure Holds {α : Type} (m : Links α) (s : Seqs α) : Prop where
  ring : ∀ e ∈ s, m.Path e.1 e.2 e.1
  nodup : s.cells.Nodup

section

variable {α : Type} {m m' : Links α} {s s' rest : Seqs α} {e : α × List α} {h n x y : α} {l l₁ l₂ : List α}

theorem Seqs.cells_perm (hs : List.Perm s s') : s.cells.Perm s'.cells := hs.flatMap_right _

theorem Seqs.pick_perm {p : α × List α → Bool} (hp : s.pick p = some (e, rest)) :
    p e = true ∧ List.Perm s (e :: rest) := by
  obtain ⟨e', hfind, heq⟩ := Option.map_eq_some_iff.1 hp
  obtain ⟨rfl, rfl⟩ := Prod.mk.inj heq
  obtain ⟨hpe, l₁, l₂, rfl, hl₁⟩ := List.find?_eq_some_iff_append.1 hfind
  refine ⟨hpe, ?_⟩
  rw [List.eraseP_append_right _ fun x hx => by simpa using hl₁ x hx, List.eraseP_cons_of_pos hpe]
  exact List.perm_middle

/-- What `take` finds at an end of a list is what `side` of its head is. -/
def IsEnd (side : Links α → α → Option α) (take : List α → Option α × List α) : Prop :=
  ∀ (m : Links α) (h : α) (l : List α), m.Path h l h → l = [] ∧ take l = (none, []) ∨
    ∃ n l₁ l₂, l = l₁ ++ n :: l₂ ∧ take l = (some n, l₁ ++ l₂) ∧ side m h = some n

theorem isEnd_head : IsEnd (α := α) Links.next Seqs.takeHead := by
  intro m h l hpath
  cases l with
  | nil => exact .inl ⟨rfl, rfl⟩
  | cons n l => exact .inr ⟨n, [], l, rfl, rfl, hpath.next⟩

theorem isEnd_tail : IsEnd (α := α) Links.prev Seqs.takeTail := by
  intro m h l hpath
  rcases List.eq_nil_or_concat' l with rfl | ⟨l, n, rfl⟩
  · exact .inl ⟨rfl, rfl⟩
  · refine .inr ⟨n, l, [], rfl, ?_, ?_⟩
    · rw [Seqs.takeTail, List.getLast?_concat, List.dropLast_concat, List.append_nil]
    · rw [hpath.prev, List.getLastD_concat]

namespace Holds

theorem nil : Holds m ([] : Seqs α) := ⟨fun _ he => (List.not_mem_nil he).elim, List.nodup_nil⟩

theorem perm (hs : Holds m s) (hp : List.Perm s s') : Holds m s' :=
  ⟨fun e he => hs.ring e (hp.mem_iff.2 he), (Seqs.cells_perm hp).nodup_iff.1 hs.nodup⟩

theorem of_cons (hs : Holds m (e :: rest)) : Holds m rest :=
  ⟨fun e he => hs.ring e (List.mem_cons_of_mem _ he), (List.nodup_append.1 (show (e.1 :: e.2 ++ _).Nodup from hs.nodup)).2.1⟩

theorem nodup_cons (hs : Holds m ((h, l) :: rest)) :
    (h :: l).Nodup ∧ (l ++ [h]).Nodup ∧ ∀ c ∈ h :: l, c ∉ Seqs.cells rest := by
  have happ := List.nodup_append.1 (show (h :: l ++ Seqs.cells rest).Nodup from hs.nodup)
  refine ⟨happ.1, ?_, fun c hc hmem => happ.2.2 c hc c hmem rfl⟩
  exact (List.perm_append_singleton h l).nodup_iff.2 happ.1

theorem path (hs : Holds m ((h, l) :: rest)) : m.Path h l h := hs.ring (h, l) (List.mem_cons_self ..)

theorem next_ne (hs : Holds m ((h, x :: l) :: rest)) : m.next h = some x ∧ x ≠ h := by
  refine ⟨hs.path.next, ?_⟩
  rintro rfl
  exact (List.nodup_cons.1 hs.nodup_cons.1).1 (List.mem_cons_self ..)

theorem congr (hs : Holds m s) (hm : ∀ c ∈ s.cells, m'.next c = m.next c ∧ m'.prev c = m.prev c) : Holds m' s := by
  refine ⟨fun e he => (hs.ring e he).congr fun c hc => hm c (List.mem_flatMap.2 ⟨e, he, ?_⟩), hs.nodup⟩
  rcases List.mem_cons.1 hc with rfl | hc
  · exact List.mem_cons_self ..
  · rcases List.mem_append.1 hc with hc | hc
    · exact List.mem_cons_of_mem _ hc
    · exact List.mem_singleton.1 hc ▸ List.mem_cons_self ..

theorem cons (hs : Holds m rest) (hpath : m.Path h l h) (hd : (h :: l).Nodup)
    (hapart : ∀ c ∈ h :: l, c ∉ Seqs.cells rest) : Holds m ((h, l) :: rest) := by
  refine ⟨List.forall_mem_cons.2 ⟨hpath, hs.ring⟩, ?_⟩
  exact List.nodup_append.2 ⟨hd, hs.nodup, fun c hc d hd' heq => hapart c hc (heq ▸ hd')⟩

variable [DecidableEq α]

theorem join (hs : Holds m s) (hx : x ∉ s.cells) (hy : y ∉ s.cells) : Holds (m.join x y) s := by
  refine hs.congr fun c hc => ⟨Function.update_of_ne ?_ .., Function.update_of_ne ?_ ..⟩
  · rintro rfl
    exact hx hc
  · rintro rfl
    exact hy hc

theorem insert (hs : Holds m ((h, l₁ ++ l₂) :: rest)) (hn : n ∉ Seqs.cells ((h, l₁ ++ l₂) :: rest)) :
    Holds (listAdd m n (l₁.getLastD h) (l₂.headD h)) ((h, l₁ ++ n :: l₂) :: rest) := by
  obtain ⟨hd, he, hapart⟩ := hs.nodup_cons
  have hn' : n ∉ h :: (l₁ ++ l₂) ∧ n ∉ Seqs.cells rest := by
    rw [← not_or, ← List.mem_append]
    exact hn
  have hlast : l₁.getLastD h ∈ h :: (l₁ ++ l₂) := List.mem_append_left _ (List.getLastD_mem_cons)
  have hhead : l₂.headD h ∈ h :: (l₁ ++ l₂) := by cases l₂ <;> simp
  have hrest := (hs.of_cons.join hn'.2 (hapart _ hhead)).join (hapart _ hlast) hn'.2
  refine hrest.cons (hs.path.insert hd he hn'.1 fun heq => hn'.1 (heq ▸ List.mem_cons_self ..)) ?_ ?_
  · have hperm : (h :: (l₁ ++ n :: l₂)).Perm (n :: h :: (l₁ ++ l₂)) := (List.perm_middle.cons h).trans (.swap ..)
    exact hperm.nodup_iff.2 (List.nodup_cons.2 ⟨hn'.1, hd⟩)
  · intro c hc
    rcases List.mem_append.1 (show c ∈ h :: l₁ ++ n :: l₂ from hc) with hc | hc
    · exact hapart c (List.mem_append_left _ hc)
    · rcases List.mem_cons.1 hc with rfl | hc
      · exact hn'.2
      · exact hapart c (List.mem_cons_of_mem h (List.mem_append_right _ hc))

theorem delEntry (hs : Holds m ((h, l₁ ++ n :: l₂) :: rest)) :
    ∃ m', listDelEntry m n = some m' ∧ Holds m' ((h, l₁ ++ l₂) :: rest) ∧
      n ∉ Seqs.cells ((h, l₁ ++ l₂) :: rest) := by
  obtain ⟨hprev, hnext⟩ := hs.path.around
  obtain ⟨hd, he, hapart⟩ := hs.nodup_cons
  have hperm : (h :: (l₁ ++ n :: l₂)).Perm (n :: h :: (l₁ ++ l₂)) := (List.perm_middle.cons h).trans (.swap ..)
  have hperm' : (l₁ ++ n :: l₂ ++ [h]).Perm (n :: (l₁ ++ l₂ ++ [h])) := by
    rw [List.append_assoc, List.append_assoc]
    exact List.perm_middle
  obtain ⟨hn, hd'⟩ := List.nodup_cons.1 (hperm.nodup_iff.1 hd)
  have hsub : ∀ c ∈ h :: (l₁ ++ l₂), c ∉ Seqs.cells rest := fun c hc =>
    hapart c (hperm.mem_iff.2 (List.mem_cons_of_mem n hc))
  have hlast : l₁.getLastD h ∈ h :: (l₁ ++ l₂) := List.mem_append_left _ (List.getLastD_mem_cons)
  have hhead : l₂.headD h ∈ h :: (l₁ ++ l₂) := by cases l₂ <;> simp
  refine ⟨listDel m (l₁.getLastD h) (l₂.headD h), by rw [listDelEntry, hprev, hnext]; rfl, ?_, ?_⟩
  · have hpath := hs.path.remove hd' (List.nodup_cons.1 (hperm'.nodup_iff.1 he)).2
    exact (hs.of_cons.join (hsub _ hlast) (hsub _ hhead)).cons hpath hd' hsub
  · intro hmem
    rcases List.mem_append.1 (show n ∈ h :: (l₁ ++ l₂) ++ Seqs.cells rest from hmem) with hmem | hmem
    · exact hn hmem
    · exact hapart n (hperm.mem_iff.2 (List.mem_cons_self ..)) hmem

theorem init (hs : Holds m s) (hn : n ∉ s.cells) : Holds (aoslListHeadInit m n) ((n, []) :: s) := by
  refine (hs.join hn hn).cons (Links.path_nil.2 Links.joined_join) (List.nodup_singleton n) fun c hc => ?_
  exact List.mem_singleton.1 hc ▸ hn

theorem poison (hs : Holds m s) (hn : n ∉ s.cells) : Holds (aoslListHeadPoison m n) s := by
  refine hs.congr fun c hc => ⟨Function.update_of_ne ?_ .., Function.update_of_ne ?_ ..⟩
  all_goals
    rintro rfl
    exact hn hc

theorem listOf_perm (hl : s.listOf h = some (l, rest)) : List.Perm s ((h, l) :: rest) := by
  obtain ⟨⟨⟨k, l'⟩, rest'⟩, hpick, heq⟩ := Option.bind_eq_some_iff.1 hl
  obtain ⟨rfl, rfl⟩ := Prod.mk.inj (Option.some.inj heq)
  obtain ⟨hk, hperm⟩ := Seqs.pick_perm hpick
  obtain rfl : k = h := of_decide_eq_true hk
  exact hperm

/-! ### What is done to lists -/

theorem free (hs : Holds m s) (hf : s.free n = some s') : Holds m s' ∧ n ∉ s'.cells := by
  unfold Seqs.free at hf
  split at hf
  · obtain ⟨⟨l, rest⟩, hl, hf⟩ := Option.bind_eq_some_iff.1 hf
    have hs := hs.perm (listOf_perm hl)
    dsimp only at hf
    split at hf
    · obtain rfl := Option.some.inj hf
      exact ⟨hs.of_cons, hs.nodup_cons.2.2 n (List.mem_cons_self ..)⟩
    · cases hf
  · next hn => exact Option.some.inj hf ▸ ⟨hs, hn⟩

theorem detach (hs : Holds m s) (hd : s.detach n = some s') :
    ∃ m', listDelEntry m n = some m' ∧ Holds m' s' ∧ n ∉ s'.cells := by
  unfold Seqs.detach at hd
  split at hd
  · next h l rest hpick =>
    obtain ⟨hn, hperm⟩ := Seqs.pick_perm hpick
    obtain rfl := Option.some.inj hd
    obtain ⟨l₁, l₂, -, rfl, herase⟩ := List.exists_erase_eq (of_decide_eq_true hn)
    rw [herase]
    exact (hs.perm hperm).delEntry
  · split at hd
    · next hmem =>
      unfold Seqs.free at hd
      rw [if_pos hmem] at hd
      obtain ⟨⟨l, rest⟩, hl, hd⟩ := Option.bind_eq_some_iff.1 hd
      have hs := hs.perm (listOf_perm hl)
      dsimp only at hd
      split at hd
      · next hnil =>
        -- the head of an empty list is its own neighbour
        obtain rfl : l = [] := hnil
        obtain rfl := Option.some.inj hd
        obtain ⟨hnext, hprev⟩ := Links.path_nil.1 hs.path
        have hout := hs.nodup_cons.2.2 n (List.mem_cons_self ..)
        exact ⟨listDel m n n, by rw [listDelEntry, hprev, hnext]; rfl, hs.of_cons.join hout hout, hout⟩
      · cases hd
    · cases hd

theorem addHead (hs : Holds m s) (ha : s.addHead n h = some s') (hn : n ∉ s.cells) :
    ∃ m', aoslListAdd m n h = some m' ∧ Holds m' s' := by
  obtain ⟨⟨l, rest⟩, hl, heq⟩ := Option.bind_eq_some_iff.1 ha
  obtain rfl := Option.some.inj heq
  have hs' := hs.perm (listOf_perm hl)
  rw [(Seqs.cells_perm (listOf_perm hl)).mem_iff] at hn
  exact ⟨listAdd m n h (l.headD h), by rw [aoslListAdd, hs'.path.next]; rfl, insert (show Holds m ((h, [] ++ l) :: rest) from hs') hn⟩

theorem addTail (hs : Holds m s) (ha : s.addTail n h = some s') (hn : n ∉ s.cells) :
    ∃ m', aoslListAddTail m n h = some m' ∧ Holds m' s' := by
  obtain ⟨⟨l, rest⟩, hl, heq⟩ := Option.bind_eq_some_iff.1 ha
  obtain rfl := Option.some.inj heq
  have hs' := hs.perm (listOf_perm hl)
  rw [(Seqs.cells_perm (listOf_perm hl)).mem_iff] at hn
  refine ⟨listAdd m n (l.getLastD h) h, by rw [aoslListAddTail, hs'.path.prev]; rfl, ?_⟩
  rw [← List.append_nil l] at hs' hn
  exact insert hs' hn

theorem empty_eq (hs : Holds m ((h, l) :: rest)) : aoslListEmpty m h = l.isEmpty := by
  rw [aoslListEmpty, hs.path.next]
  cases l with
  | nil => exact decide_eq_true rfl
  | cons x l =>
    refine decide_eq_false fun heq => ?_
    obtain rfl : x = h := Option.some.inj heq
    exact (List.nodup_cons.1 hs.nodup_cons.1).1 (List.mem_cons_self ..)

theorem splice {g : α} {new : List α} (hs : Holds m ((g, new) :: (h, l) :: rest)) :
    ∃ m', aoslListSpliceTailInit m g h = some m' ∧ Holds m' ((g, []) :: (h, l ++ new) :: rest) := by
  rw [aoslListSpliceTailInit, hs.empty_eq]
  cases new with
  | nil => exact ⟨m, rfl, by rwa [List.append_nil]⟩
  | cons x new =>
    have hs₁ := hs.of_cons
    have hperm : (Seqs.cells ((g, x :: new) :: (h, l) :: rest)).Perm (g :: (h :: (l ++ x :: new) ++ Seqs.cells rest)) := by
      refine List.Perm.cons g ?_
      rw [← List.cons_append, List.append_assoc]
      exact List.perm_append_comm_assoc ..
    obtain ⟨hg, hnodup⟩ := List.nodup_cons.1 (hperm.nodup_iff.1 hs.nodup)
    obtain ⟨hd, -, hapart⟩ := List.nodup_append.1 hnodup
    have he : (l ++ x :: new ++ [h]).Nodup := (List.perm_append_singleton ..).nodup_iff.2 hd
    have hout : ∀ c ∈ h :: (l ++ x :: new), c ∉ Seqs.cells rest := fun c hc hmem => hapart c hc c hmem rfl
    have hlast : l.getLastD h ∈ h :: (l ++ x :: new) := List.mem_append_left _ (List.getLastD_mem_cons)
    have hin : ∀ c ∈ x :: new, c ∈ h :: (l ++ x :: new) := fun c hc =>
      List.mem_cons_of_mem h (List.mem_append_right l hc)
    have hend : new.getLastD x ∈ h :: (l ++ x :: new) := hin _ List.getLastD_mem_cons
    have hrest := (hs₁.of_cons.join (hout _ hlast) (hout _ (hin x (List.mem_cons_self ..)))).join (hout _ hend)
      (hout h (List.mem_cons_self ..))
    have hring := hrest.cons (hs₁.path.splice hs.path hd he) hd hout
    refine ⟨_, ?_, hring.init hg⟩
    have hfirst : m.next g = some x := hs.path.next
    have hlast : m.prev g = some (new.getLastD x) := hs.path.prev.trans (congrArg some List.getLastD_cons)
    simp only [listSplice, hfirst, hlast, hs₁.path.prev]
    rfl

theorem remove {init : Bool} {side : Links α → α → Option α} {take : List α → Option α × List α}
    (del : Links α → α → Option (Links α)) {r : ListReply α} (hs : Holds m s) (hend : IsEnd side take)
    (hdel : del = if init then aoslListDelInit else aoslListDel) (hr : s.remove init take h = some (s', r)) :
    ∃ m' p, listRemove m side del h = some (m', p) ∧ r = .node p ∧ Holds m' s' := by
  obtain ⟨⟨l, rest⟩, hl, heq⟩ := Option.bind_eq_some_iff.1 hr
  have hs' := hs.perm (listOf_perm hl)
  rw [listRemove, hs'.empty_eq]
  rcases hend m h l hs'.path with ⟨rfl, htake⟩ | ⟨n, l₁, l₂, rfl, htake, hside⟩
  · simp only [htake] at heq
    obtain ⟨rfl, rfl⟩ := Prod.mk.inj (Option.some.inj heq)
    refine ⟨m, none, rfl, rfl, ?_⟩
    cases init <;> exact hs'
  · simp only [htake] at heq
    obtain ⟨rfl, rfl⟩ := Prod.mk.inj (Option.some.inj heq)
    obtain ⟨m', hm', hs'', hn⟩ := hs'.delEntry
    have hne : (!(l₁ ++ n :: l₂).isEmpty) = true := by cases l₁ <;> rfl
    rw [if_pos hne, hside, Option.bind_eq_bind, Option.bind_some]
    cases init with
    | false =>
      refine ⟨aoslListHeadPoison m' n, some n, ?_, rfl, hs''.poison hn⟩
      simp [hdel, aoslListDel, hm']
    | true =>
      refine ⟨aoslListHeadInit m' n, some n, ?_, rfl, hs''.init hn⟩
      simp [hdel, aoslListDelInit, hm']

/-! ### What is read off lists -/

theorem emptyCareful_eq (hs : Holds m ((h, l) :: rest)) : aoslListEmptyCareful m h = l.isEmpty := by
  unfold aoslListEmptyCareful
  cases l with
  | nil =>
    obtain ⟨hnext, hprev⟩ := Links.path_nil.1 hs.path
    simp [hnext, hprev]
  | cons x l =>
    obtain ⟨hnext, hne⟩ := hs.next_ne
    simp [hnext, hne]

theorem isSingular_eq (hs : Holds m ((h, l) :: rest)) :
    aoslListIsSingular m h = some (decide (l.length = 1)) := by
  rw [aoslListIsSingular, hs.empty_eq, hs.path.next, hs.path.prev]
  cases l with
  | nil => rfl
  | cons x l =>
    cases l with
    | nil => simp
    | cons y l =>
      have hlast : l.getLastD y ∈ y :: l := List.getLastD_mem_cons
      have hx := (List.nodup_cons.1 (List.nodup_cons.1 hs.nodup_cons.1).2).1
      have hne : x ≠ l.getLastD y := fun heq => hx (heq ▸ hlast)
      rw [List.getLastD_cons, List.getLastD_cons]
      simpa using hne

theorem head_eq (hs : Holds m ((h, l) :: rest)) : aoslListHead m h = some l.head? := by
  rw [aoslListHead, listEnd, hs.empty_eq, hs.path.next]
  cases l <;> rfl

theorem tail_eq (hs : Holds m ((h, l) :: rest)) : aoslListTail m h = some l.getLast? := by
  rw [aoslListTail, listEnd, hs.empty_eq, hs.path.prev]
  rcases List.eq_nil_or_concat' l with rfl | ⟨l, n, rfl⟩
  · rfl
  · simp

theorem after_append (hn : n ∉ l₁) : Seqs.after n (l₁ ++ n :: l₂) = l₂.head? := by
  rw [Seqs.after, List.dropWhile_append_of_pos fun x hx => ?_, List.dropWhile_cons_of_neg (by simp)]
  · rfl
  · exact decide_eq_true fun heq => hn (heq ▸ hx)

theorem aside_eq {side : Links α → α → Option α} {d : List α} (hside : side m n = some (d.headD h)) (hd : h ∉ d) :
    listAside m side h n = some d.head? := by
  rw [listAside, hside]
  cases d with
  | nil => simp
  | cons x d =>
    have hne : x ≠ h := fun heq => hd (heq ▸ List.mem_cons_self ..)
    simp [hne]

theorem next_eq (hs : Holds m ((h, l) :: rest)) (hn : n ∈ l) : aoslListNext m h n = some (Seqs.after n l) := by
  obtain ⟨l₁, l₂, rfl, hout⟩ := List.eq_append_cons_of_mem hn
  rw [after_append hout]
  refine aside_eq hs.path.around.2 fun hmem => (List.nodup_cons.1 hs.nodup_cons.1).1 ?_
  exact List.mem_append_right _ (List.mem_cons_of_mem _ hmem)

theorem prev_eq (hs : Holds m ((h, l) :: rest)) (hn : n ∈ l) :
    aoslListPrev m h n = some (Seqs.after n l.reverse) := by
  obtain ⟨l₁, l₂, rfl, hout⟩ := List.eq_append_cons_of_mem hn
  obtain ⟨hhead, hnodup⟩ := List.nodup_cons.1 hs.nodup_cons.1
  have hout : n ∉ l₂.reverse := fun hmem =>
    (List.nodup_cons.1 (List.nodup_append.1 hnodup).2.1).1 (List.mem_reverse.1 hmem)
  rw [List.reverse_append, List.reverse_cons, List.append_assoc, List.singleton_append, after_append hout]
  refine aside_eq ?_ fun hmem => hhead (List.mem_append_left _ (List.mem_reverse.1 hmem))
  rw [hs.path.around.1, List.getLastD_eq_getLast?, List.headD_eq_head?_getD, List.head?_reverse]

theorem forEach_eq {fuel : Nat} {a : α} (hpath : m.Path a l h) (hh : h ∉ l) (hfuel : l.length < fuel) :
    (m.next a).bind (aoslListForEach m h fuel) = some l := by
  induction l generalizing a fuel with
  | nil =>
    obtain ⟨fuel, rfl⟩ := Nat.exists_eq_succ_of_ne_zero (Nat.ne_of_gt hfuel)
    rw [hpath.next, Option.bind_some, aoslListForEach]
    exact if_neg (not_not_intro rfl)
  | cons x l ih =>
    obtain ⟨fuel, rfl⟩ := Nat.exists_eq_succ_of_ne_zero (Nat.ne_of_gt (Nat.zero_lt_of_lt hfuel))
    rw [List.mem_cons, not_or] at hh
    have hih := ih (Links.path_cons.1 hpath).2 hh.2 (Nat.lt_of_succ_lt_succ hfuel)
    rw [hpath.next, Option.bind_some, List.headD_cons, aoslListForEach, if_pos (Ne.symm hh.1)]
    obtain ⟨y, hy, hrest⟩ := Option.bind_eq_some_iff.1 hih
    rw [hy, Option.bind_eq_bind, Option.bind_some, hrest]
    rfl

end Holds

/-! ### Several lists -/

/-- The lists of some heads. -/
def Seqs.rows (heads : List α) (ls : α → List α) : Seqs α := heads.map fun h => (h, ls h)

section rows

variable [DecidableEq α] {heads : List α} {ls : α → List α} {c : α}

theorem Seqs.rows_update (ls : α → List α) (hd : heads.Nodup) (hh : h ∈ heads) :
    ∃ rest, ∀ l, List.Perm (rows heads (Function.update ls h l)) ((h, l) :: rest) := by
  refine ⟨rows (heads.erase h) ls, fun l => ?_⟩
  have hrest : rows (heads.erase h) (Function.update ls h l) = rows (heads.erase h) ls := by
    refine List.map_congr_left fun k hk => ?_
    rw [Function.update_of_ne]
    rintro rfl
    exact hd.not_mem_erase hk
  have hperm := (List.perm_cons_erase hh).map fun k => (k, Function.update ls h l k)
  rw [List.map_cons, Function.update_self] at hperm
  exact hrest ▸ hperm

namespace Holds

theorem row (hs : Holds m (Seqs.rows heads ls)) (hd : heads.Nodup) (hh : h ∈ heads) :
    ∃ rest, Holds m ((h, ls h) :: rest) ∧
      ∀ l, List.Perm (Seqs.rows heads (Function.update ls h l)) ((h, l) :: rest) := by
  obtain ⟨rest, hrows⟩ := Seqs.rows_update ls hd hh
  refine ⟨rest, hs.perm ?_, hrows⟩
  have hperm := hrows (ls h)
  rwa [Function.update_eq_self] at hperm

theorem delRow (hs : Holds m (Seqs.rows heads ls)) (hd : heads.Nodup) (hh : h ∈ heads) (hl : ls h = l₁ ++ n :: l₂) :
    ∃ m', aoslListDel m n = some m' ∧ Holds m' (Seqs.rows heads (Function.update ls h (l₁ ++ l₂))) ∧
      n ∉ Seqs.cells (Seqs.rows heads (Function.update ls h (l₁ ++ l₂))) := by
  obtain ⟨rest, hrow, hrows⟩ := hs.row hd hh
  rw [hl] at hrow
  obtain ⟨m', hm', hs', hn⟩ := hrow.delEntry
  refine ⟨aoslListHeadPoison m' n, by rw [aoslListDel, hm']; rfl, (hs'.poison hn).perm (hrows _).symm, ?_⟩
  rwa [(Seqs.cells_perm (hrows _)).mem_iff]

theorem addTailRow (hs : Holds m (Seqs.rows heads ls)) (hd : heads.Nodup) (hh : h ∈ heads)
    (hn : n ∉ Seqs.cells (Seqs.rows heads ls)) :
    ∃ m', aoslListAddTail m n h = some m' ∧ Holds m' (Seqs.rows heads (Function.update ls h (ls h ++ [n]))) := by
  obtain ⟨rest, hrow, hrows⟩ := hs.row hd hh
  have hcells := (Seqs.cells_perm (hrows (ls h))).mem_iff (a := n)
  rw [Function.update_eq_self] at hcells
  rw [hcells, ← List.append_nil (ls h)] at hn
  have hprev := hrow.path.prev
  rw [← List.append_nil (ls h)] at hrow
  refine ⟨listAdd m n ((ls h).getLastD h) h, by rw [aoslListAddTail, hprev]; rfl, ?_⟩
  exact (Holds.insert hrow hn).perm (hrows _).symm

theorem removeHeadRow_nil (hs : Holds m (Seqs.rows heads ls)) (hd : heads.Nodup) (hh : h ∈ heads) (hl : ls h = []) :
    aoslListRemoveHead m h = some (m, none) := by
  obtain ⟨rest, hrow, -⟩ := hs.row hd hh
  rw [aoslListRemoveHead, listRemove, hrow.empty_eq, hl]
  rfl

theorem removeHeadRow_cons (hs : Holds m (Seqs.rows heads ls)) (hd : heads.Nodup) (hh : h ∈ heads)
    (hl : ls h = n :: l) :
    ∃ m', aoslListRemoveHead m h = some (m', some n) ∧ Holds m' (Seqs.rows heads (Function.update ls h l)) ∧
      n ∉ Seqs.cells (Seqs.rows heads (Function.update ls h l)) := by
  obtain ⟨rest, hrow, -⟩ := hs.row hd hh
  obtain ⟨m', hm', hs', hn⟩ := hs.delRow hd hh (show ls h = [] ++ n :: l from hl)
  have hnext := hrow.path.next
  have hempty := hrow.empty_eq
  rw [hl] at hnext hempty
  refine ⟨m', ?_, hs', hn⟩
  simp [aoslListRemoveHead, listRemove, hempty, hnext, hm']

end Holds

theorem Holds.foldl_init (hs : Holds m s)
    (hd : heads.Nodup) (hout : ∀ h ∈ heads, h ∉ s.cells) :
    Holds (heads.foldl aoslListHeadInit m) (Seqs.rows heads (fun _ => []) ++ s) := by
  induction heads generalizing m s with
  | nil => exact hs
  | cons h heads ih =>
    rw [List.nodup_cons] at hd
    rw [List.forall_mem_cons] at hout
    have hs' := ih (hs.init hout.1) hd.2 fun k hk hmem => by
      rcases List.mem_cons.1 hmem with rfl | hmem
      · exact hd.1 hk
      · exact hout.2 k hk hmem
    exact hs'.perm List.perm_middle

/-! What is in all of the lists. -/

theorem flatMap_update (ls : α → List α) (hd : heads.Nodup) (hh : h ∈ heads) :
    ∃ rest, ∀ l, (heads.flatMap (Function.update ls h l)).Perm (l ++ rest) := by
  obtain ⟨rest, hrows⟩ := Seqs.rows_update ls hd hh
  refine ⟨rest.flatMap Prod.snd, fun l => ?_⟩
  have hperm := (hrows l).flatMap_right Prod.snd
  rwa [Seqs.rows, List.flatMap_map] at hperm

theorem flatMap_del (hd : heads.Nodup) (hh : h ∈ heads) (hl : ls h = l₁ ++ c :: l₂) :
    (heads.flatMap ls).Perm (c :: heads.flatMap (Function.update ls h (l₁ ++ l₂))) := by
  obtain ⟨rest, hrest⟩ := flatMap_update ls hd hh
  have hold := hrest (ls h)
  rw [Function.update_eq_self, hl, List.append_assoc] at hold
  have hnew := (hrest (l₁ ++ l₂)).cons c
  rw [List.append_assoc] at hnew
  exact hold.trans (List.perm_middle.trans hnew.symm)

theorem flatMap_add (hd : heads.Nodup) (hh : h ∈ heads) :
    (heads.flatMap (Function.update ls h (ls h ++ [c]))).Perm (c :: heads.flatMap ls) := by
  have hdel := flatMap_del hd hh (Function.update_self h (ls h ++ [c]) ls)
  rwa [Function.update_idem, List.append_nil, Function.update_eq_self] at hdel

theorem flatMap_clear (ls : α → List α) (hd : heads.Nodup) (hh : h ∈ heads) :
    (heads.flatMap ls).Perm (ls h ++ heads.flatMap (Function.update ls h [])) := by
  obtain ⟨rest, hrest⟩ := flatMap_update ls hd hh
  have hold := hrest (ls h)
  rw [Function.update_eq_self] at hold
  exact hold.trans ((hrest []).symm.append_left _)

theorem flatMap_other (hh : h ∉ heads) : heads.flatMap (Function.update ls h l) = heads.flatMap ls := by
  refine List.flatMap_congr fun k hk => Function.update_of_ne ?_ ..
  rintro rfl
  exact hh hk

end rows

/-! ### Runs -/

variable [DecidableEq α]

theorem Holds.ask {f : List α → Option (ListReply α)} {r : ListReply α} (hs : Holds m s) (ha : s.ask f h = some (s', r)) :
    s' = s ∧ ∃ l rest, Holds m ((h, l) :: rest) ∧ f l = some r := by
  obtain ⟨⟨l, rest⟩, hl, ha⟩ := Option.bind_eq_some_iff.1 ha
  obtain ⟨r', hr, heq⟩ := Option.bind_eq_some_iff.1 ha
  obtain ⟨rfl, rfl⟩ := Prod.mk.inj (Option.some.inj heq)
  exact ⟨rfl, l, rest, hs.perm (Holds.listOf_perm hl), hr⟩

theorem step_refines {a : ListAct α} {r : ListReply α} {rs : List (ListReply α)} (hs : Holds m s)
    (ha : s.apply a = some (s', r)) : ∃ m', ListAct.step (m, rs) a = some (m', r :: rs) ∧ Holds m' s' := by
  cases a with
  | init n =>
    obtain ⟨s₁, hfree, heq⟩ := Option.bind_eq_some_iff.1 ha
    obtain ⟨rfl, rfl⟩ := Prod.mk.inj (Option.some.inj heq)
    obtain ⟨hs₁, hn⟩ := hs.free hfree
    exact ⟨_, rfl, hs₁.init hn⟩
  | add n h =>
    obtain ⟨s₁, hfree, ha⟩ := Option.bind_eq_some_iff.1 ha
    obtain ⟨s₂, hadd, heq⟩ := Option.bind_eq_some_iff.1 ha
    obtain ⟨rfl, rfl⟩ := Prod.mk.inj (Option.some.inj heq)
    obtain ⟨hs₁, hn⟩ := hs.free hfree
    obtain ⟨m', hm', hs'⟩ := hs₁.addHead hadd hn
    exact ⟨m', by simp [ListAct.step, hm'], hs'⟩
  | addTail n h =>
    obtain ⟨s₁, hfree, ha⟩ := Option.bind_eq_some_iff.1 ha
    obtain ⟨s₂, hadd, heq⟩ := Option.bind_eq_some_iff.1 ha
    obtain ⟨rfl, rfl⟩ := Prod.mk.inj (Option.some.inj heq)
    obtain ⟨hs₁, hn⟩ := hs.free hfree
    obtain ⟨m', hm', hs'⟩ := hs₁.addTail hadd hn
    exact ⟨m', by simp [ListAct.step, hm'], hs'⟩
  | del n =>
    obtain ⟨s₁, hdetach, heq⟩ := Option.bind_eq_some_iff.1 ha
    obtain ⟨rfl, rfl⟩ := Prod.mk.inj (Option.some.inj heq)
    obtain ⟨m', hm', hs', hn⟩ := hs.detach hdetach
    exact ⟨_, by simp [ListAct.step, aoslListDel, hm'], hs'.poison hn⟩
  | delInit n =>
    obtain ⟨s₁, hdetach, heq⟩ := Option.bind_eq_some_iff.1 ha
    obtain ⟨rfl, rfl⟩ := Prod.mk.inj (Option.some.inj heq)
    obtain ⟨m', hm', hs', hn⟩ := hs.detach hdetach
    exact ⟨_, by simp [ListAct.step, aoslListDelInit, hm'], hs'.init hn⟩
  | move n h =>
    obtain ⟨s₁, hdetach, ha⟩ := Option.bind_eq_some_iff.1 ha
    obtain ⟨s₂, hadd, heq⟩ := Option.bind_eq_some_iff.1 ha
    obtain ⟨rfl, rfl⟩ := Prod.mk.inj (Option.some.inj heq)
    obtain ⟨m₁, hm₁, hs₁, hn⟩ := hs.detach hdetach
    obtain ⟨m', hm', hs'⟩ := hs₁.addHead hadd hn
    exact ⟨m', by simp [ListAct.step, aoslListMove, hm₁, hm'], hs'⟩
  | moveTail n h =>
    obtain ⟨s₁, hdetach, ha⟩ := Option.bind_eq_some_iff.1 ha
    obtain ⟨s₂, hadd, heq⟩ := Option.bind_eq_some_iff.1 ha
    obtain ⟨rfl, rfl⟩ := Prod.mk.inj (Option.some.inj heq)
    obtain ⟨m₁, hm₁, hs₁, hn⟩ := hs.detach hdetach
    obtain ⟨m', hm', hs'⟩ := hs₁.addTail hadd hn
    exact ⟨m', by simp [ListAct.step, aoslListMoveTail, hm₁, hm'], hs'⟩
  | spliceTailInit g h =>
    obtain ⟨⟨new, rest₁⟩, hg, ha⟩ := Option.bind_eq_some_iff.1 ha
    obtain ⟨⟨l, rest⟩, hh, heq⟩ := Option.bind_eq_some_iff.1 ha
    obtain ⟨rfl, rfl⟩ := Prod.mk.inj (Option.some.inj heq)
    have hs₁ := hs.perm ((Holds.listOf_perm hg).trans ((Holds.listOf_perm hh).cons _))
    obtain ⟨m', hm', hs'⟩ := hs₁.splice
    exact ⟨m', by simp [ListAct.step, hm'], hs'⟩
  | removeHead h =>
    obtain ⟨m', p, hm', rfl, hs'⟩ := hs.remove aoslListDel isEnd_head rfl ha
    exact ⟨m', by simp [ListAct.step, aoslListRemoveHead, hm'], hs'⟩
  | removeHeadInit h =>
    obtain ⟨m', p, hm', rfl, hs'⟩ := hs.remove aoslListDelInit isEnd_head rfl ha
    exact ⟨m', by simp [ListAct.step, aoslListRemoveHeadInit, hm'], hs'⟩
  | removeTail h =>
    obtain ⟨m', p, hm', rfl, hs'⟩ := hs.remove aoslListDel isEnd_tail rfl ha
    exact ⟨m', by simp [ListAct.step, aoslListRemoveTail, hm'], hs'⟩
  | removeTailInit h =>
    obtain ⟨m', p, hm', rfl, hs'⟩ := hs.remove aoslListDelInit isEnd_tail rfl ha
    exact ⟨m', by simp [ListAct.step, aoslListRemoveTailInit, hm'], hs'⟩
  | empty h =>
    rw [Seqs.apply] at ha
    obtain ⟨rfl, l, rest, hs', hr⟩ := hs.ask ha
    obtain rfl := Option.some.inj hr
    exact ⟨m, by simp [ListAct.step, hs'.empty_eq], hs⟩
  | emptyCareful h =>
    rw [Seqs.apply] at ha
    obtain ⟨rfl, l, rest, hs', hr⟩ := hs.ask ha
    obtain rfl := Option.some.inj hr
    exact ⟨m, by simp [ListAct.step, hs'.emptyCareful_eq], hs⟩
  | isSingular h =>
    rw [Seqs.apply] at ha
    obtain ⟨rfl, l, rest, hs', hr⟩ := hs.ask ha
    obtain rfl := Option.some.inj hr
    exact ⟨m, by simp [ListAct.step, hs'.isSingular_eq], hs⟩
  | head h =>
    rw [Seqs.apply] at ha
    obtain ⟨rfl, l, rest, hs', hr⟩ := hs.ask ha
    obtain rfl := Option.some.inj hr
    exact ⟨m, by simp [ListAct.step, hs'.head_eq], hs⟩
  | tail h =>
    rw [Seqs.apply] at ha
    obtain ⟨rfl, l, rest, hs', hr⟩ := hs.ask ha
    obtain rfl := Option.some.inj hr
    exact ⟨m, by simp [ListAct.step, hs'.tail_eq], hs⟩
  | next h n =>
    rw [Seqs.apply] at ha
    obtain ⟨rfl, l, rest, hs', hr⟩ := hs.ask ha
    obtain ⟨hn, heq⟩ := Option.ite_none_right_eq_some.1 hr
    obtain rfl := Option.some.inj heq
    exact ⟨m, by simp [ListAct.step, hs'.next_eq hn], hs⟩
  | prev h n =>
    rw [Seqs.apply] at ha
    obtain ⟨rfl, l, rest, hs', hr⟩ := hs.ask ha
    obtain ⟨hn, heq⟩ := Option.ite_none_right_eq_some.1 hr
    obtain rfl := Option.some.inj heq
    exact ⟨m, by simp [ListAct.step, hs'.prev_eq hn], hs⟩
  | forEach h rounds =>
    rw [Seqs.apply] at ha
    obtain ⟨rfl, l, rest, hs', hr⟩ := hs.ask ha
    obtain ⟨hn, heq⟩ := Option.ite_none_right_eq_some.1 hr
    obtain rfl := Option.some.inj heq
    have heach := Holds.forEach_eq hs'.path (List.nodup_cons.1 hs'.nodup_cons.1).1 hn
    exact ⟨m, by simp [ListAct.step, heach], hs⟩

/-- Calls that may be made one after another on sequences run on the cells, whatever was in these, with the same
replies, and leave rings that are the sequences. -/
theorem list_refines {acts : List (ListAct α)} {rs : List (ListReply α)}
    (hrun : exec Seqs.step ([], []) acts = some (s, rs)) :
    ∃ m', exec ListAct.step (m, []) acts = some (m', rs) ∧ Holds m' s := by
  have hstep : ∀ (s : Seqs α × List (ListReply α)) a s' (t : Links α × List (ListReply α)),
      Holds t.1 s.1 ∧ t.2 = s.2 → Seqs.step s a = some s' →
        ∃ t', ListAct.step t a = some t' ∧ Holds t'.1 s'.1 ∧ t'.2 = s'.2 := by
    rintro ⟨s, rs⟩ a s' ⟨m, rs'⟩ ⟨hs, hrs⟩ hstep
    obtain rfl : rs' = rs := hrs
    obtain ⟨⟨s₁, r⟩, ha, rfl⟩ := Option.map_eq_some_iff.1 hstep
    obtain ⟨m', hm', hs'⟩ := step_refines hs ha
    exact ⟨(m', r :: rs'), hm', hs', rfl⟩
  obtain ⟨⟨m', rs'⟩, hexec, hs, rfl⟩ := exec_simulates (t := (m, [])) hstep ⟨Holds.nil, rfl⟩ hrun
  exact ⟨m', hexec, hs⟩

end

theorem list_refines_splice : ∃ m', exec ListAct.step ((⟨fun _ => none, fun _ => none⟩ : Links Nat), [])
    [.init 0, .init 1, .add 2 0, .addTail 3 0, .addTail 4 1, .spliceTailInit 1 0, .move 3 1, .removeTail 0, .del 2,
      .forEach 1 2, .isSingular 0] =
      some (m', [.bool false, .nodes [3], .done, .node (some 4), .done, .done, .done, .done, .done, .done, .done]) ∧
    Holds m' [(0, []), (1, [3])] := list_refines rfl

end Aosl
