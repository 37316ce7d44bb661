import Aosl.IdPool

/-!
# Thread-local values, `lib/tls.c`

The keys are a pool of ids whose table holds one counter `seq` per slot: a slot is in use while its `seq` is odd, and
creating and deleting a key both count it up. The values are not kept with the thread but in `thread_tree`, a node per
thread id, with a table of values that are stamped with the `seq` of their slot.

A `void *` is a number, `NULL` is 0. The assertions of the file, and an access past the memory of a table, are `none`.
`seq` is an `uintptr_t`, here of 64 bits: where it has 32, the same holds with 2^32 for 2^64, at which a counter wraps.
-/

namespace Aosl
open Lib

/-- `__KEY_USED`. -/
def keyUsed (seq : BitVec 64) : Bool := seq &&& 1#64 != 0#64

/-- The checks at the start of `k_tls_key_get` and `k_tls_key_set`: the `seq` of a key that can be used. -/
def usedSlot (p : IdPool (BitVec 64)) (key : Int) : Option (BitVec 64) :=
  if key < 0 ∨ key ≥ p.table.length then none else p.table[key.toNat]?.filter keyUsed

/-- `k_tls_key_delete`. -/
def kTlsKeyDelete (key : Int) (p : IdPool (BitVec 64)) : IdPool (BitVec 64) :=
  if key < 0 then p else freeTlsKey key.toNat p

structure TlsValue where
  seq : BitVec 64
  val : Nat
deriving DecidableEq

/-- `struct tls_thread_node`; `table` is the memory `tls_key_table` points to. -/
structure TlsNode where
  tableSize : Nat
  table : List TlsValue
deriving DecidableEq

namespace TlsNode

/-- The new node of a thread. `tls_key_id_size` is read three times without its lock: `alloc` entries are allocated,
`clear` are cleared and `size` is noted. -/
def create (alloc clear size : Nat) : Option TlsNode :=
  if clear = alloc then some ⟨size, List.replicate alloc ⟨0#64, 0⟩⟩ else none

/-- The larger table of `k_tls_key_set`; one that takes over no entries would not be cleared. -/
def grow (n : TlsNode) (newSize : Nat) : Option TlsNode :=
  if n.tableSize = 0 ∨ n.tableSize > newSize ∨ n.tableSize > n.table.length then none
  else some ⟨newSize, n.table.take n.tableSize ++ List.replicate (newSize - n.tableSize) ⟨0#64, 0⟩⟩

/-- The end of `k_tls_key_set`; `newSize` is `tls_key_id_size`. -/
def put (n : TlsNode) (newSize key : Nat) (v : TlsValue) : Option TlsNode :=
  (if key ≥ n.tableSize then n.grow newSize else some n).bind fun n =>
    if key ≥ n.tableSize ∨ key ≥ n.table.length then none else some { n with table := n.table.set key v }

/-- The end of `k_tls_key_get`: the value, and the node, where a value of an older key is dropped. -/
def get (n : TlsNode) (key : Nat) (seq : BitVec 64) : Option (Nat × TlsNode) :=
  if key ≥ n.tableSize then some (0, n)
  else n.table[key]?.map fun e =>
    if e.val ≠ 0 ∧ e.seq ≠ seq then (0, { n with table := n.table.set key { e with val := 0 } }) else (e.val, n)

end TlsNode

structure TlsSt where
  keys : IdPool (BitVec 64)
  /-- `thread_tree`, by `thread_id`. -/
  nodes : Nat → Option TlsNode

namespace TlsSt

theorem init_isSome : (IdPool.init tlsPool).isSome = true := rfl

/-- `rb_tls_init`. -/
def rbTlsInit : TlsSt := ⟨(IdPool.init tlsPool).get init_isSome, fun _ => none⟩

/-- `k_tls_key_set` on the thread with id `self`, while no other thread is at work: the result and the state after it. -/
def kTlsKeySet (s : TlsSt) (self : Nat) (key : Int) (value : Nat) : Option (Int × TlsSt) :=
  match usedSlot s.keys key with
  | none => some (-1022, s)
  | some seq =>
    let size := s.keys.table.length
    let node := match s.nodes self with
      | some n => some n
      | none => TlsNode.create size size size
    (node.bind fun n => n.put size key.toNat ⟨seq, value⟩).map fun n =>
      (0, { s with nodes := Function.update s.nodes self (some n) })

end TlsSt

/-! ### What creating and deleting do to the table -/

theorem keyUsed_iff (seq : BitVec 64) : keyUsed seq = true ↔ seq.toNat % 2 = 1 := by
  have hand : (seq &&& 1#64).toNat = seq.toNat % 2 := by
    rw [BitVec.toNat_and]
    exact Nat.and_one_is_mod _
  have hne : keyUsed seq = true ↔ (seq &&& 1#64).toNat ≠ 0 := by
    rw [keyUsed, bne_iff_ne, ne_eq, ← BitVec.toNat_inj]
    rfl
  rw [hne, hand]
  omega

theorem keyUsed_add_one (seq : BitVec 64) : keyUsed (seq + 1#64) = !keyUsed seq := by
  have hnext : keyUsed (seq + 1#64) = true ↔ ¬ keyUsed seq = true := by
    rw [keyUsed_iff, keyUsed_iff, BitVec.toNat_add]
    simp only [BitVec.toNat_ofNat]
    omega
  cases h : keyUsed seq <;> simp_all

section Alloc

variable {p p' : IdPool (BitVec 64)} {used : List Nat}

/-- How the creation of a key can end: a free slot is taken and counted up, in the table as it was or one that has grown,
or the allocator has failed. -/
theorem allocTlsKey_cases (h : IdPool.Fits tlsPool p used) (memBits memTable : Bool) :
    (∃ key p' q, allocTlsKey memBits memTable p = .ok (key, p') ∧ key ∉ used ∧
      IdPool.Fits tlsPool p' (used ++ [key]) ∧ p'.table = q.table.modify key (· + 1#64) ∧ key < q.table.length ∧
      (q = p ∨ (p.bits.findFirstZeroBit = none ∧ IdPool.Fits tlsPool q used ∧
        q.table = p.table ++ List.replicate 16 0#64))) ∨
    allocTlsKey memBits memTable p = .error .enomem := by
  have hlen : ∀ q : IdPool (BitVec 64), ∀ key, (q.table.modify key (· + 1#64)).length = q.table.length :=
    fun q key => List.length_modify ..
  have hvalid : tlsPool.Valid := IdKind.cfg_valid .tls
  rcases h.getUnused_cases hvalid memBits memTable with ⟨-, key, hget, hlt, hfree⟩ |
    ⟨hfull, q, key, -, hget, hfit, htable, hlt, hfree⟩ | ⟨-, -, herr⟩
  · refine .inl ⟨key, _, p, by rw [allocTlsKey, hget], hfree, ?_, rfl, hlt, .inl rfl⟩
    have hbit := h.setBit hlt hfree
    exact ⟨hbit.retable _ (hlen _ key), by rw [hlen]; exact h.size_dvd⟩
  · refine .inl ⟨key, _, q, by rw [allocTlsKey, hget], hfree, ?_, rfl, hlt, .inr ⟨h.full_iff.2 hfull, hfit, htable⟩⟩
    have hbit := hfit.setBit hlt hfree
    exact ⟨hbit.retable _ (hlen _ key), by rw [hlen]; exact hfit.size_dvd⟩
  · exact .inr (by rw [allocTlsKey, herr])

end Alloc

end Aosl
