import Aosl.Lib.Tree

/-!
# The red-black tree of `lib/rbtree.c`

The code of `lib/rbtree.c` and of the inline functions in `include/kernel/rbtree.h`, over a memory
that keeps each field of `struct aosl_rb_node` as a map from node addresses. Nodes are 4-aligned, so
a `Ptr` is the address divided by 4 and `0` is `NULL`; `rb_parent_color` is kept as the packed word,
parent in the high bits and colour in bit 0. Every access through `NULL` fails (`none`), and so does
a loop that climbs or descends more often than the tree has nodes: the theorems about these
functions show that they return.

The code comes in mirrored halves (`rb_left` / `rb_right`); `child d` is `rb_left` or `rb_right`, and
the halves are one definition over a `Side`.
-/

namespace Aosl
open Lib

/-- A node address divided by 4; `0` is `NULL`. -/
abbrev Ptr := Nat

/-- The memory of the nodes and the fields `rb_node` and `count` of `struct aosl_rb_root`. -/
structure RbSt where
  rbParentColor : Ptr → Nat
  child : Side → Ptr → Ptr
  rbNode : Ptr
  count : Nat

abbrev RbM := StateT RbSt Option

/-- `AOSL_RB_RED` and `AOSL_RB_BLACK`. -/
def colorBit : Color → Nat
  | .red => 0
  | .black => 1

namespace RbSt

def setChild (s : RbSt) (d : Side) (p v : Ptr) : RbSt :=
  { s with child := fun e q => if e = d ∧ q = p then v else s.child e q }

def setPc (s : RbSt) (p : Ptr) (w : Nat) : RbSt :=
  { s with rbParentColor := fun q => if q = p then w else s.rbParentColor q }

end RbSt

/-! ### Field access -/

/-- Access through `p`: fails for `NULL`. -/
def deref (p : Ptr) : RbM Unit := if p = 0 then failure else pure ()

def rbChild (d : Side) (p : Ptr) : RbM Ptr := do
  deref p
  return (← get).child d p

def setRbChild (d : Side) (p v : Ptr) : RbM Unit := do
  deref p
  modify (·.setChild d p v)

def getParentColor (p : Ptr) : RbM Nat := do
  deref p
  return (← get).rbParentColor p

def setParentColor (p : Ptr) (w : Nat) : RbM Unit := do
  deref p
  modify (·.setPc p w)

/-- `rb_parent_color & ~3`, as a pointer. -/
def rbParent (p : Ptr) : RbM Ptr := return (← getParentColor p) / 4

/-- `rb_parent_color & 1`. -/
def rbColor (p : Ptr) : RbM Nat := return (← getParentColor p) % 2

def rbIsRed (p : Ptr) : RbM Bool := return (← rbColor p) == 0

def rbIsBlack (p : Ptr) : RbM Bool := return !((← rbColor p) == 0)

/-- `(rb_parent_color & ~1) | color`. -/
def rbSetColor (p : Ptr) (color : Nat) : RbM Unit := do
  let w ← getParentColor p
  setParentColor p (w - w % 2 + color)

def rbSetRed (p : Ptr) : RbM Unit := rbSetColor p (colorBit .red)

def rbSetBlack (p : Ptr) : RbM Unit := rbSetColor p (colorBit .black)

/-- `(rb_parent_color & 3) | p`. -/
def rbSetParent (rb p : Ptr) : RbM Unit := do
  let w ← getParentColor rb
  setParentColor rb (4 * p + w % 4)

def setRbNode (p : Ptr) : RbM Unit := modify ({ · with rbNode := p })

/-- `p && rb_is_red (p)`. -/
def nonNullRed (p : Ptr) : RbM Bool := if p = 0 then pure false else rbIsRed p

/-- `!p || rb_is_black (p)`. -/
def nullOrBlack (p : Ptr) : RbM Bool := if p = 0 then pure true else rbIsBlack p

/-- `if (rb) rb_set_parent (rb, p)`. -/
def rbSetParentOpt (rb p : Ptr) : RbM Unit := if rb = 0 then pure () else rbSetParent rb p

/-- `child` takes the place of `node` below `parent`; the field on side `d` is tested. -/
def rbReplaceChild (d : Side) (parent node child : Ptr) : RbM Unit := do
  if parent = 0 then
    setRbNode child
  else if (← rbChild d parent) = node then
    setRbChild d parent child
  else
    setRbChild d.flip parent child

/-- The half of the code for `p`, given the `rb_left` field of its parent. -/
def sideOf (p left : Ptr) : Side := if p = left then .left else .right

/-! ### Rotations -/

/-- `__rb_rotate_left` for `d = left`, `__rb_rotate_right` for `d = right`. -/
def rbRotate (d : Side) (node : Ptr) : RbM Unit := do
  let right ← rbChild d.flip node
  let parent ← rbParent node
  let rightLeft ← rbChild d right
  setRbChild d.flip node rightLeft
  rbSetParentOpt rightLeft node
  setRbChild d right node
  rbSetParent right parent
  rbReplaceChild d parent node right
  rbSetParent node right

def rbRotateLeft : Ptr → RbM Unit := rbRotate .left

def rbRotateRight : Ptr → RbM Unit := rbRotate .right

/-! ### Insertion -/

/-- The body of the `while` loop of `aosl_rb_insert_color`, for `parent` the child of `gparent` on
side `d`. Returns the `node` of the next round. -/
def rbInsertFix (d : Side) (node parent gparent : Ptr) : RbM Ptr := do
  let uncle ← rbChild d.flip gparent
  if ← nonNullRed uncle then
    rbSetBlack uncle
    rbSetBlack parent
    rbSetRed gparent
    return gparent
  let inner ← rbChild d.flip parent
  let (node, parent) ← if inner = node then do
      rbRotate d parent
      pure (parent, node)
    else
      pure (node, parent)
  rbSetBlack parent
  rbSetRed gparent
  rbRotate d.flip gparent
  return node

def rbInsertLoop : Nat → Ptr → RbM Unit
  | 0, _ => failure
  | fuel + 1, node => do
    let parent ← rbParent node
    if ← nonNullRed parent then
      let gparent ← rbParent parent
      let left ← rbChild .left gparent
      let node ← rbInsertFix (sideOf parent left) node parent gparent
      rbInsertLoop fuel node

/-- The loop climbs two levels a round, so `count + 2` rounds are more than it needs. -/
def aoslRbInsertColor (node : Ptr) : RbM Unit := do
  rbInsertLoop ((← get).count + 2) node
  rbSetBlack (← get).rbNode
  modify fun s => { s with count := s.count + 1 }

/-- A `struct aosl_rb_node **`: the address of `root->rb_node` or of a child field. -/
inductive RbLink where
  | root
  | child (p : Ptr) (d : Side)
deriving DecidableEq

/-- `*rb_link`. -/
def readLink : RbLink → RbM Ptr
  | .root => return (← get).rbNode
  | .child p d => rbChild d p

/-- `*rb_link = p`. -/
def writeLink (p : Ptr) : RbLink → RbM Unit
  | .root => setRbNode p
  | .child q d => setRbChild d q p

def rbLinkNode (node parent : Ptr) (link : RbLink) : RbM Unit := do
  setParentColor node (4 * parent)
  setRbChild .right node 0
  setRbChild .left node 0
  writeLink node link

def rbInsert (node : Ptr) (link : RbLink) (parent : Ptr) : RbM Unit := do
  rbLinkNode node parent link
  aoslRbInsertColor node

/-- What `aosl_vfind_rb_links` returns: the link and, through the pointers, the parent of the link
and the logical neighbours. -/
structure RbLinks where
  link : RbLink
  parent : Ptr
  prev : Ptr
  next : Ptr
deriving DecidableEq

/-- The `while` loop of `aosl_vfind_rb_links`; `cmp p` is `rb_cmp (p, node, args)`. -/
def findRbLinksLoop (cmp : Ptr → Int) : Nat → RbLinks → RbM RbLinks
  | 0, _ => failure
  | fuel + 1, r => do
    let p ← readLink r.link
    if p = 0 then
      return r
    if cmp p > 0 then
      findRbLinksLoop cmp fuel { r with link := .child p .left, parent := p, next := p }
    else
      findRbLinksLoop cmp fuel { r with link := .child p .right, parent := p, prev := p }

def aoslFindRbLinks (cmp : Ptr → Int) : RbM RbLinks := do
  findRbLinksLoop cmp ((← get).count + 1) ⟨.root, 0, 0, 0⟩

/-- The `while` loop of `aosl_vfind_rb_node`. -/
def findRbNodeLoop (cmp : Ptr → Int) : Nat → Ptr → RbM Ptr
  | 0, _ => failure
  | fuel + 1, p => do
    if p = 0 then
      return 0
    if cmp p = 0 then
      return p
    if cmp p > 0 then
      findRbNodeLoop cmp fuel (← rbChild .left p)
    else
      findRbNodeLoop cmp fuel (← rbChild .right p)

def aoslFindRbNode (cmp : Ptr → Int) : RbM Ptr := do
  findRbNodeLoop cmp ((← get).count + 1) (← get).rbNode

def aoslRbInsertNode (cmp : Ptr → Int) (node : Ptr) : RbM Unit := do
  let r ← aoslFindRbLinks cmp
  rbInsert node r.link r.parent

/-! ### Removal -/

/-- The end of the body of the `while` loop of `__rb_erase_color`, for `node` the child of `parent` on
side `d` and a far nephew that is red. -/
def rbEraseFar (d : Side) (parent other : Ptr) : RbM Unit := do
  rbSetColor other (← rbColor parent)
  rbSetBlack parent
  let oFar ← rbChild d.flip other
  if oFar ≠ 0 then
    rbSetBlack oFar
  rbRotate d parent

/-- The body of the loop from the test of the nephews on, where `other` is black: the `node` and
`parent` of the next round, or `none` for the `break`. -/
def rbEraseNephews (d : Side) (parent other : Ptr) : RbM (Option (Ptr × Ptr)) := do
  let oNear ← rbChild d other
  let oFar ← rbChild d.flip other
  if (← nullOrBlack oNear) && (← nullOrBlack oFar) then
    rbSetRed other
    return some (parent, ← rbParent parent)
  if ← nullOrBlack oFar then
    if oNear ≠ 0 then
      rbSetBlack oNear
    rbSetRed other
    rbRotate d.flip other
    rbEraseFar d parent (← rbChild d.flip parent)
  else
    rbEraseFar d parent other
  return none

/-- The body of the `while` loop of `__rb_erase_color`. -/
def rbEraseFix (d : Side) (parent : Ptr) : RbM (Option (Ptr × Ptr)) := do
  let other ← rbChild d.flip parent
  if ← rbIsRed other then
    rbSetBlack other
    rbSetRed parent
    rbRotate d parent
    rbEraseNephews d parent (← rbChild d.flip parent)
  else
    rbEraseNephews d parent other

/-- The `while` loop of `__rb_erase_color`; returns `node` as it is after the loop. -/
def rbEraseLoop : Nat → Ptr → Ptr → RbM Ptr
  | 0, _, _ => failure
  | fuel + 1, node, parent => do
    if (← nullOrBlack node) && node ≠ (← get).rbNode then
      let left ← rbChild .left parent
      match ← rbEraseFix (sideOf node left) parent with
      | some (node, parent) => rbEraseLoop fuel node parent
      | none => return (← get).rbNode
    else
      return node

def rbEraseColor (node parent : Ptr) : RbM Unit := do
  let node ← rbEraseLoop ((← get).count + 1) node parent
  if node ≠ 0 then
    rbSetBlack node

/-- `while ((left = node->rb_left) != NULL) node = left`. -/
def rbLeftmost : Nat → Ptr → RbM Ptr
  | 0, _ => failure
  | fuel + 1, node => do
    let left ← rbChild .left node
    if left = 0 then
      return node
    rbLeftmost fuel left

/-- `aosl_rb_erase` for a `node` with at most one child `child`: the parent of the place that became
shorter and the colour of the unlinked node. -/
def rbUnlink (node child : Ptr) : RbM (Ptr × Nat) := do
  let parent ← rbParent node
  let color ← rbColor node
  rbSetParentOpt child parent
  rbReplaceChild .left parent node child
  return (parent, color)

/-- `node` takes over the links and the colour of `old`. -/
def rbTakePlace (old node : Ptr) : RbM Unit := do
  setParentColor node (← getParentColor old)
  setRbChild .right node (← rbChild .right old)
  setRbChild .left node (← rbChild .left old)
  rbReplaceChild .left (← rbParent old) old node
  rbSetParent (← rbChild .left old) node
  rbSetParentOpt (← rbChild .right old) node

/-- `aosl_rb_erase` for a node `old` with two children: its successor takes its place. Returns
`child`, `parent` and `color`. -/
def rbSplice (old : Ptr) : RbM (Ptr × Ptr × Nat) := do
  let node ← rbLeftmost ((← get).count + 1) (← rbChild .right old)
  let child ← rbChild .right node
  let parent ← rbParent node
  let color ← rbColor node
  rbSetParentOpt child parent
  if parent = old then
    setRbChild .right parent child
    rbTakePlace old node
    return (child, node, color)
  else
    setRbChild .left parent child
    rbTakePlace old node
    return (child, parent, color)

/-- The first half of `aosl_rb_erase`: takes `node` out of the tree and returns `child`, `parent` and
`color`. -/
def rbTakeOut (node : Ptr) : RbM (Ptr × Ptr × Nat) := do
  let left ← rbChild .left node
  let right ← rbChild .right node
  if left = 0 then
    return (right, ← rbUnlink node right)
  else if right = 0 then
    return (left, ← rbUnlink node left)
  else
    rbSplice node

def aoslRbErase (node : Ptr) : RbM Unit := do
  let (child, parent, color) ← rbTakeOut node
  if color = colorBit .black then
    rbEraseColor child parent
  modify fun s => { s with count := s.count - 1 }

def aoslRbRemove (cmp : Ptr → Int) : RbM Ptr := do
  let node ← aoslFindRbNode cmp
  if node ≠ 0 then
    aoslRbErase node
  return node

/-! ### Initialisation and traversal -/

def aoslRbRootInit (s : RbSt) : RbSt := { s with rbNode := 0, count := 0 }

/-- The nodes in the order in which `__rb_traverse_ldr` calls `func`, for a `func` that never asks to
stop. -/
def rbTraverseLdr (s : RbSt) : Nat → Ptr → List Ptr
  | 0, _ => []
  | fuel + 1, node =>
    if node = 0 then []
    else rbTraverseLdr s fuel (s.child .left node) ++ node :: rbTraverseLdr s fuel (s.child .right node)

def aoslRbTraverseLdr (s : RbSt) : List Ptr := rbTraverseLdr s (s.count + 1) s.rbNode

end Aosl
