import Aosl.Bitmap
import Aosl.Lib.Steps
import Mathlib.Data.List.Nodup
import Mathlib.Data.List.Range
import Mathlib.Data.Fintype.Card

/-!
# Pools of ids

Queues, timers, ref objects and TLS keys each have a bitmap of the ids in use and a table indexed by
id. Both grow when no bit is left, by a fixed amount up to a maximum. The size of the table is an
`int`, the size of the bitmap a `uint8_t`: the table size is cut to 8 bits on the way to
`bitmap_create`, which refuses 0 bits. A pool that should grow to 256 ids gets `AOSL_ENOMEM` instead.

The size variable of the source is the length of `table`.
-/

namespace Aosl
open Lib

/-- The ways `get_unused_*_id` fails; `bug` is an assertion that fails. -/
inductive PoolErr where
  | eoverflow
  | enomem
  | bug
deriving DecidableEq

structure IdPool (α : Type) where
  bits : Bitmap
  table : List α

/-- The constants of a pool, with the value of a fresh table entry. -/
structure PoolCfg (α : Type) where
  initSize : Nat
  growBy : Nat
  maxSize : Nat
  zero : α

namespace IdPool

variable {α : Type}

/-- The pool of the init function, which aborts if it cannot allocate it. -/
def init (c : PoolCfg α) : Option (IdPool α) :=
  (Bitmap.create true (BitVec.ofNat 8 c.initSize)).map fun bits => ⟨bits, List.replicate c.initSize c.zero⟩

/-- The branch of `get_unused_*_id` that grows the pool; `memBits` and `memTable` say whether the
allocations of the bitmap and of the table succeed. -/
def grow (c : PoolCfg α) (memBits memTable : Bool) (p : IdPool α) : Except PoolErr (IdPool α) :=
  if p.table.length ≥ c.maxSize then .error .eoverflow
  else
    let newSize := p.table.length + c.growBy
    match Bitmap.create memBits (BitVec.ofNat 8 newSize) with
    | none => .error .enomem
    | some newBits =>
      if memTable then
        match newBits.copy p.bits with
        | none => .error .bug
        | some newBits => .ok ⟨newBits, p.table ++ List.replicate c.growBy c.zero⟩
      else .error .enomem

def setBit (p : IdPool α) (id : Nat) : IdPool α := { p with bits := p.bits.set (BitVec.ofNat 8 id) }

/-- `get_unused_mpq_id` and its siblings. Nothing has been written where they fail. -/
def getUnused (c : PoolCfg α) (memBits memTable : Bool) (p : IdPool α) : Except PoolErr (Nat × IdPool α) :=
  match p.bits.findFirstZeroBit with
  | some id => .ok (id, p.setBit id)
  | none => match p.grow c memBits memTable with
    | .error e => .error e
    | .ok p => match p.bits.findFirstZeroBit with
      | none => .error .bug
      | some id => .ok (id, p.setBit id)

/-- `__put_unused_mpq_id` and its siblings. -/
def putUnused (id : Nat) (p : IdPool α) : Option (IdPool α) :=
  if id < p.table.length then some { p with bits := p.bits.clear (BitVec.ofNat 8 id) } else none

end IdPool

/-! ### The four pools -/

def mpqPool : PoolCfg (Option Nat) := ⟨8, 8, 2048, none⟩
def timerPool : PoolCfg (Option Nat) := ⟨8, 8, 20480, none⟩
def refobjPool : PoolCfg (Option Nat) := ⟨8, 8, 20480, none⟩
def tlsPool : PoolCfg (BitVec 64) := ⟨16, 16, 512, 0#64⟩

def getUnusedMpqId := IdPool.getUnused mpqPool
def getUnusedTimerId := IdPool.getUnused timerPool
def getUnusedRefobjId := IdPool.getUnused refobjPool

/-- `alloc_tls_key`, which also counts up `seq` of the slot. -/
def allocTlsKey (memBits memTable : Bool) (p : IdPool (BitVec 64)) : Except PoolErr (Nat × IdPool (BitVec 64)) :=
  match p.getUnused tlsPool memBits memTable with
  | .error e => .error e
  | .ok (key, p) => .ok (key, { p with table := p.table.modify key (· + 1#64) })

def putUnusedMpqId := IdPool.putUnused (α := Option Nat)
def putUnusedTimerId := IdPool.putUnused (α := Option Nat)
def putUnusedRefobjId := IdPool.putUnused (α := Option Nat)

/-- `free_tls_key`; a key out of range is refused with `AOSL_EINVAL` and nothing changes. -/
def freeTlsKey (key : Nat) (p : IdPool (BitVec 64)) : IdPool (BitVec 64) :=
  if key < p.table.length then
    ⟨p.bits.clear (BitVec.ofNat 8 key), p.table.modify key (· + 1#64)⟩
  else p

inductive IdKind where
  | mpq
  | timer
  | refobj
  | tls
deriving DecidableEq

namespace IdKind

def Entry : IdKind → Type
  | mpq => Option Nat
  | timer => Option Nat
  | refobj => Option Nat
  | tls => BitVec 64

def cfg : (k : IdKind) → PoolCfg k.Entry
  | mpq => mpqPool
  | timer => timerPool
  | refobj => refobjPool
  | tls => tlsPool

def alloc : (k : IdKind) → (memBits memTable : Bool) → IdPool k.Entry → Except PoolErr (Nat × IdPool k.Entry)
  | mpq => getUnusedMpqId
  | timer => getUnusedTimerId
  | refobj => getUnusedRefobjId
  | tls => allocTlsKey

def free : (k : IdKind) → Nat → IdPool k.Entry → Option (IdPool k.Entry)
  | mpq => putUnusedMpqId
  | timer => putUnusedTimerId
  | refobj => putUnusedRefobjId
  | tls => fun key p => some (freeTlsKey key p)

end IdKind

/-- A pool and the ids that are in use: handed out and not released since. -/
structure IdSt (k : IdKind) where
  pool : IdPool k.Entry
  used : List Nat

inductive IdOp where
  | get
  | put (id : Nat)
deriving DecidableEq

namespace IdSt

variable {k : IdKind}

/-- An allocation, with an allocator that never fails, or a release. -/
def step (s : IdSt k) : IdOp → Option (IdSt k)
  | .get => match k.alloc true true s.pool with
    | .ok (id, p) => some ⟨p, s.used ++ [id]⟩
    | .error .bug => none
    | .error _ => some s
  | .put id => (k.free id s.pool).map fun p => ⟨p, s.used.erase id⟩

def run (k : IdKind) (ops : List IdOp) : Option (IdSt k) :=
  (IdPool.init k.cfg).bind fun p => exec step ⟨p, []⟩ ops

/-- An allocation returns an id that was free. -/
def Succeeds (s : IdSt k) : Prop := ∃ id p, k.alloc true true s.pool = .ok (id, p) ∧ id ∉ s.used

end IdSt

/-! ### What a pool holds -/

/-- What the proofs need of the constants: the sizes a pool takes hit 256. -/
structure PoolCfg.Valid {α : Type} (c : PoolCfg α) : Prop where
  growBy_dvd : c.growBy ∣ 256
  growBy_lt : c.growBy < 256
  initSize_pos : 0 < c.initSize
  initSize_lt : c.initSize < 256
  initSize_dvd : c.growBy ∣ c.initSize
  maxSize : 256 ≤ c.maxSize

namespace IdPool

variable {α : Type} {c : PoolCfg α} {p p' : IdPool α} {used : List Nat}

/-- The bits of a pool are the ids in use. -/
structure Holds (p : IdPool α) (used : List Nat) : Prop where
  size : p.bits.bitCnt.toNat = p.table.length
  bit : ∀ i, p.bits.bit i = true ↔ i ∈ used
  nodup : used.Nodup
  lt : ∀ i ∈ used, i < p.table.length

namespace Holds

theorem toNat_ofNat (h : p.Holds used) {id : Nat} (hid : id < p.table.length) : (BitVec.ofNat 8 id).toNat = id := by
  have hlt := p.bits.bitCnt.isLt
  have hsize := h.size
  rw [BitVec.toNat_ofNat, Nat.mod_eq_of_lt]
  omega

theorem setBit (h : p.Holds used) {id : Nat} (hid : id < p.table.length) (hfree : id ∉ used) :
    (p.setBit id).Holds (used ++ [id]) := by
  have hid' := h.toNat_ofNat hid
  refine ⟨?_, fun i => ?_, ?_, ?_⟩
  · rw [IdPool.setBit, Bitmap.set_bitCnt, h.size]
  · have hlt : (BitVec.ofNat 8 id).toNat < p.bits.bitCnt.toNat := by rw [hid', h.size]; exact hid
    rw [IdPool.setBit, Bitmap.set_bit hlt, hid']
    simp [h.bit]
  · exact List.nodup_append'.2 ⟨h.nodup, List.nodup_singleton id, by simpa using hfree⟩
  · intro i hi
    rcases List.mem_append.1 hi with hi | hi
    · exact h.lt i hi
    · rw [List.mem_singleton.1 hi]
      exact hid

theorem clear (h : p.Holds used) {id : Nat} (hid : id < p.table.length) (table : List α)
    (htable : table.length = p.table.length) :
    (IdPool.mk (p.bits.clear (BitVec.ofNat 8 id)) table).Holds (used.erase id) := by
  have hid' := h.toNat_ofNat hid
  refine ⟨?_, fun i => ?_, h.nodup.erase id, ?_⟩
  · rw [Bitmap.clear_bitCnt, h.size, htable]
  · have hlt : (BitVec.ofNat 8 id).toNat < p.bits.bitCnt.toNat := by rw [hid', h.size]; exact hid
    rw [Bitmap.clear_bit hlt, hid', h.nodup.mem_erase_iff]
    simp [h.bit, and_comm]
  · intro i hi
    rw [htable]
    exact h.lt i (List.mem_of_mem_erase hi)

theorem retable (h : p.Holds used) (table : List α) (htable : table.length = p.table.length) :
    (IdPool.mk p.bits table).Holds used :=
  ⟨by rw [h.size, htable], h.bit, h.nodup, fun i hi => by rw [htable]; exact h.lt i hi⟩

theorem length_le (h : p.Holds used) : used.length ≤ p.table.length := by
  have hsub : used ⊆ List.range p.table.length := fun i hi => List.mem_range.2 (h.lt i hi)
  simpa using (h.nodup.subperm hsub).length_le

theorem full_iff (h : p.Holds used) : p.bits.findFirstZeroBit = none ↔ used.length = p.table.length := by
  constructor
  · intro hnone
    have hsub : List.range p.table.length ⊆ used := fun i hi =>
      (h.bit i).1 (Bitmap.findFirstZeroBit_none hnone (by rw [h.size]; exact List.mem_range.1 hi))
    have hle : p.table.length ≤ used.length := by simpa using (List.nodup_range.subperm hsub).length_le
    exact Nat.le_antisymm h.length_le hle
  · intro hlen
    rcases hf : p.bits.findFirstZeroBit with _ | id
    · rfl
    · obtain ⟨hlt, hbit⟩ := Bitmap.findFirstZeroBit_some hf
      rw [h.size] at hlt
      have hfree : id ∉ used := fun hm => by simp [(h.bit id).2 hm] at hbit
      have := (h.setBit hlt hfree).length_le
      simp [IdPool.setBit] at this
      omega

theorem found (h : p.Holds used) {id : Nat} (hf : p.bits.findFirstZeroBit = some id) :
    id < p.table.length ∧ id ∉ used := by
  obtain ⟨hlt, hbit⟩ := Bitmap.findFirstZeroBit_some hf
  rw [h.size] at hlt
  exact ⟨hlt, fun hm => by simp [(h.bit id).2 hm] at hbit⟩

end Holds

/-- A pool that holds `used` and whose size is a step of the growth. -/
structure Fits (c : PoolCfg α) (p : IdPool α) (used : List Nat) : Prop extends p.Holds used where
  size_dvd : c.growBy ∣ p.table.length

namespace Fits

theorem size_lt (h : Fits c p used) : p.table.length < 256 := by
  have := p.bits.bitCnt.isLt
  have := h.size
  omega

theorem size_le (hc : c.Valid) (h : Fits c p used) : p.table.length + c.growBy ≤ 256 := by
  obtain ⟨a, ha⟩ := h.size_dvd
  obtain ⟨b, hb⟩ := hc.growBy_dvd
  have hab : a < b := by
    have hlt := h.size_lt
    rw [ha, hb] at hlt
    exact Nat.lt_of_mul_lt_mul_left hlt
  calc p.table.length + c.growBy = c.growBy * (a + 1) := by rw [ha]; rfl
    _ ≤ c.growBy * b := Nat.mul_le_mul_left _ hab
    _ = 256 := hb.symm

theorem size_lt_maxSize (hc : c.Valid) (h : Fits c p used) : ¬ p.table.length ≥ c.maxSize := by
  have := hc.maxSize
  have := h.size_lt
  omega

theorem created (h : Fits c p used) {memBits : Bool} {m : Bitmap} (hlt : p.table.length + c.growBy < 256)
    (hm : Bitmap.create memBits (BitVec.ofNat 8 (p.table.length + c.growBy)) = some m) :
    ∃ bits, m.copy p.bits = some bits ∧ Fits c ⟨bits, p.table ++ List.replicate c.growBy c.zero⟩ used := by
  have hcnt : m.bitCnt.toNat = p.table.length + c.growBy := by
    rw [Bitmap.create_bitCnt hm, BitVec.toNat_ofNat, Nat.mod_eq_of_lt hlt]
  have hroom : p.bits.bitCnt.toNat ≤ m.bitCnt.toNat := by
    rw [h.size, hcnt]
    omega
  obtain ⟨bits, hcopy⟩ := Bitmap.copy_isSome hroom
  refine ⟨bits, hcopy, ⟨?_, fun i => ?_, h.nodup, fun i hi => ?_⟩, ?_⟩
  · simp [Bitmap.copy_bitCnt hcopy, hcnt]
  · rw [Bitmap.copy_bit hcopy, h.bit]
  · have := h.lt i hi
    simp only [List.length_append, List.length_replicate]
    omega
  · simp only [List.length_append, List.length_replicate]
    exact Nat.dvd_add h.size_dvd (Nat.dvd_refl _)

theorem grow_cases (hc : c.Valid) (h : Fits c p used) (memBits memTable : Bool) :
    (p.table.length + c.growBy < 256 ∧ ∃ p', p.grow c memBits memTable = .ok p' ∧ Fits c p' used ∧
      p'.table = p.table ++ List.replicate c.growBy c.zero) ∨
    p.grow c memBits memTable = .error .enomem := by
  have hmax := h.size_lt_maxSize hc
  rcases hm : Bitmap.create memBits (BitVec.ofNat 8 (p.table.length + c.growBy)) with _ | m
  · exact .inr (by simp [grow, hmax, hm])
  · have hne : p.table.length + c.growBy ≠ 256 := by
      intro h256
      rw [h256] at hm
      cases hm
    have hlt : p.table.length + c.growBy < 256 := Nat.lt_of_le_of_ne (h.size_le hc) hne
    obtain ⟨bits, hcopy, hfit⟩ := h.created hlt hm
    cases memTable
    · exact .inr (by simp [grow, hmax, hm])
    · exact .inl ⟨hlt, _, by simp [grow, hmax, hm, hcopy], hfit, rfl⟩

/-- The growth fails at 256 ids only, if the allocator does not. -/
theorem grow_ok_iff (hc : c.Valid) (h : Fits c p used) :
    (∃ p', p.grow c true true = .ok p') ↔ p.table.length + c.growBy < 256 := by
  constructor
  · rintro ⟨p', hp'⟩
    rcases grow_cases hc h true true with ⟨hlt, -⟩ | herr
    · exact hlt
    · rw [hp'] at herr
      cases herr
  · intro hlt
    have hpos : 0 < c.growBy := Nat.pos_of_dvd_of_pos hc.growBy_dvd (by decide)
    have hne : BitVec.ofNat 8 (p.table.length + c.growBy) ≠ 0#8 := by
      intro h0
      have := congrArg BitVec.toNat h0
      rw [BitVec.toNat_ofNat, Nat.mod_eq_of_lt hlt] at this
      simp only [BitVec.toNat_zero] at this
      omega
    obtain ⟨m, hm⟩ := Bitmap.create_isSome hne
    obtain ⟨bits, hcopy, -⟩ := h.created hlt hm
    refine ⟨⟨bits, p.table ++ List.replicate c.growBy c.zero⟩, ?_⟩
    simp [grow, h.size_lt_maxSize hc, hm, hcopy]

/-- How an allocation can end. -/
theorem getUnused_cases (hc : c.Valid) (h : Fits c p used) (memBits memTable : Bool) :
    (used.length < p.table.length ∧ ∃ i, p.getUnused c memBits memTable = .ok (i, p.setBit i) ∧
      i < p.table.length ∧ i ∉ used) ∨
    (used.length = p.table.length ∧ ∃ q i, p.grow c memBits memTable = .ok q ∧
      p.getUnused c memBits memTable = .ok (i, q.setBit i) ∧ Fits c q used ∧
      q.table = p.table ++ List.replicate c.growBy c.zero ∧ i < q.table.length ∧ i ∉ used) ∨
    (used.length = p.table.length ∧ p.grow c memBits memTable = .error .enomem ∧
      p.getUnused c memBits memTable = .error .enomem) := by
  have hle := h.length_le
  rcases hf : p.bits.findFirstZeroBit with _ | i
  · have hfull := h.full_iff.1 hf
    rcases h.grow_cases hc memBits memTable with ⟨-, q, hq, hfit, htable⟩ | herr
    · -- the bits that were added are zero, so the second search finds one
      have hgrow : 0 < c.growBy := Nat.pos_of_dvd_of_pos hc.growBy_dvd (by decide)
      have hnot : ¬ q.bits.findFirstZeroBit = none := by
        rw [hfit.full_iff, htable, List.length_append, List.length_replicate]
        omega
      obtain ⟨i, hi⟩ := Option.ne_none_iff_exists'.1 hnot
      obtain ⟨hlt, hfree⟩ := hfit.found hi
      exact .inr (.inl ⟨hfull, q, i, hq, by simp [getUnused, hf, hq, hi], hfit, htable, hlt, hfree⟩)
    · exact .inr (.inr ⟨hfull, herr, by simp [getUnused, hf, herr]⟩)
  · have hne : used.length ≠ p.table.length := fun heq => by
      rw [h.full_iff.2 heq] at hf
      cases hf
    obtain ⟨hlt, hfree⟩ := h.found hf
    exact .inl ⟨by omega, i, by simp [getUnused, hf], hlt, hfree⟩

theorem getUnused_ok (hc : c.Valid) (h : Fits c p used) {memBits memTable : Bool} {id : Nat}
    (hget : p.getUnused c memBits memTable = .ok (id, p')) :
    id ∉ used ∧ id < p'.table.length ∧ Fits c p' (used ++ [id]) ∧
      (p'.table = p.table ∨ p'.table = p.table ++ List.replicate c.growBy c.zero) := by
  rcases h.getUnused_cases hc memBits memTable with ⟨-, i, hi, hlt, hfree⟩ |
    ⟨-, q, i, -, hi, hfit, htable, hlt, hfree⟩ | ⟨-, -, herr⟩
  · rw [hi] at hget
    cases hget
    exact ⟨hfree, hlt, ⟨h.setBit hlt hfree, h.size_dvd⟩, .inl rfl⟩
  · rw [hi] at hget
    cases hget
    exact ⟨hfree, hlt, ⟨hfit.setBit hlt hfree, hfit.size_dvd⟩, .inr htable⟩
  · rw [herr] at hget
    cases hget

/-- With an allocator that never fails, an allocation succeeds unless the pool is full at the last size
below 256. -/
theorem getUnused_ok_iff (hc : c.Valid) (h : Fits c p used) :
    (∃ id p', p.getUnused c true true = .ok (id, p')) ↔ used.length < 256 - c.growBy := by
  have hsize := h.size_le hc
  have hgrow := h.grow_ok_iff hc
  rcases h.getUnused_cases hc true true with ⟨hlt, i, hi, -⟩ | ⟨hfull, q, i, hq, hi, -⟩ | ⟨hfull, herr, hget⟩
  · exact iff_of_true ⟨i, _, hi⟩ (by omega)
  · have := hgrow.1 ⟨q, hq⟩
    exact iff_of_true ⟨i, _, hi⟩ (by omega)
  · have hnot : ¬ p.table.length + c.growBy < 256 := by
      rw [← hgrow, herr]
      rintro ⟨q, hq⟩
      cases hq
    refine iff_of_false ?_ (by omega)
    rintro ⟨id, p', hok⟩
    rw [hget] at hok
    cases hok

theorem putUnused (h : Fits c p used) {id : Nat} (hput : p.putUnused id = some p') : Fits c p' (used.erase id) := by
  unfold IdPool.putUnused at hput
  split_ifs at hput with hid
  cases hput
  exact ⟨h.clear hid _ rfl, h.size_dvd⟩

end Fits

theorem init_fits (hc : c.Valid) : ∃ p, init c = some p ∧ Fits c p [] := by
  have hlt := hc.initSize_lt
  have hne : BitVec.ofNat 8 c.initSize ≠ 0#8 := by
    intro h0
    have := congrArg BitVec.toNat h0
    rw [BitVec.toNat_ofNat, Nat.mod_eq_of_lt hlt] at this
    have := hc.initSize_pos
    simp_all
  obtain ⟨m, hm⟩ := Bitmap.create_isSome hne
  refine ⟨⟨m, _⟩, by rw [init, hm]; rfl, ⟨?_, fun i => ?_, List.nodup_nil, by simp⟩, ?_⟩
  · rw [Bitmap.create_bitCnt hm, BitVec.toNat_ofNat, Nat.mod_eq_of_lt hlt, List.length_replicate]
  · simp [Bitmap.create_bit hm]
  · rw [List.length_replicate]
    exact hc.initSize_dvd

end IdPool

/-! ### Histories -/

namespace IdKind

/-- The largest size below 256 that a pool takes: its size while there are ids left to grow. -/
def reach : IdKind → Nat
  | tls => 240
  | _ => 248

theorem cfg_valid (k : IdKind) : k.cfg.Valid := by
  constructor <;> cases k <;> decide

theorem reach_eq (k : IdKind) : k.reach = 256 - k.cfg.growBy := by
  cases k <;> rfl

end IdKind

section Tls

variable {p p' : IdPool (BitVec 64)} {used : List Nat}

theorem allocTlsKey_ok (h : IdPool.Fits tlsPool p used) {id : Nat} (ha : allocTlsKey true true p = .ok (id, p')) :
    id ∉ used ∧ IdPool.Fits tlsPool p' (used ++ [id]) := by
  unfold allocTlsKey at ha
  rcases hget : p.getUnused tlsPool true true with e | ⟨i, q⟩
  · simp only [hget] at ha
    cases ha
  · simp only [hget] at ha
    cases ha
    obtain ⟨hfree, -, hfit, -⟩ := h.getUnused_ok (IdKind.cfg_valid .tls) hget
    have hlen : (q.table.modify id (· + 1#64)).length = q.table.length := List.length_modify ..
    exact ⟨hfree, hfit.retable _ hlen, by rw [hlen]; exact hfit.size_dvd⟩

theorem allocTlsKey_ok_iff : (∃ id p', allocTlsKey true true p = .ok (id, p')) ↔
    ∃ id p', p.getUnused tlsPool true true = .ok (id, p') := by
  unfold allocTlsKey
  rcases p.getUnused tlsPool true true with e | ⟨i, q⟩ <;> simp

theorem freeTlsKey_fits (h : IdPool.Fits tlsPool p used) {key : Nat} :
    IdPool.Fits tlsPool (freeTlsKey key p) (used.erase key) := by
  unfold freeTlsKey
  split_ifs with hkey
  · have hlen : (p.table.modify key (· + 1#64)).length = p.table.length := List.length_modify ..
    exact ⟨h.clear hkey _ hlen, by rw [hlen]; exact h.size_dvd⟩
  · rw [List.erase_of_not_mem fun hm => hkey (h.lt key hm)]
    exact h

end Tls

namespace IdKind

variable {k : IdKind} {p p' : IdPool k.Entry} {used : List Nat}

theorem alloc_ok (h : IdPool.Fits k.cfg p used) {id : Nat} (ha : k.alloc true true p = .ok (id, p')) :
    id ∉ used ∧ IdPool.Fits k.cfg p' (used ++ [id]) := by
  cases k with
  | tls => exact allocTlsKey_ok h ha
  | _ =>
    obtain ⟨hfree, -, hfit, -⟩ := h.getUnused_ok (cfg_valid _) ha
    exact ⟨hfree, hfit⟩

theorem alloc_ok_iff (h : IdPool.Fits k.cfg p used) :
    (∃ id p', k.alloc true true p = .ok (id, p')) ↔ used.length < k.reach := by
  rw [reach_eq, ← h.getUnused_ok_iff (cfg_valid k)]
  cases k with
  | tls => exact allocTlsKey_ok_iff
  | _ => exact Iff.rfl

theorem free_fits (h : IdPool.Fits k.cfg p used) {id : Nat} (hf : k.free id p = some p') :
    IdPool.Fits k.cfg p' (used.erase id) := by
  cases k with
  | tls => exact Option.some.inj hf ▸ freeTlsKey_fits h
  | _ => exact h.putUnused hf

end IdKind

namespace IdSt

variable {k : IdKind} {s s' : IdSt k}

/-- Kept by every allocation and every release. -/
def Inv (s : IdSt k) : Prop := IdPool.Fits k.cfg s.pool s.used

theorem Inv.step {op : IdOp} (h : s.Inv) (hs : s.step op = some s') : s'.Inv := by
  cases op with
  | get =>
    simp only [IdSt.step] at hs
    rcases ha : k.alloc true true s.pool with e | ⟨id, p⟩
    · cases e <;> simp only [ha, Option.some.injEq, reduceCtorEq] at hs <;> exact hs ▸ h
    · simp only [ha, Option.some.injEq] at hs
      subst hs
      exact (k.alloc_ok h ha).2
  | put id =>
    rw [IdSt.step, Option.map_eq_some_iff] at hs
    obtain ⟨p, hp, rfl⟩ := hs
    exact k.free_fits h hp

theorem Inv.run {ops : List IdOp} (h : run k ops = some s) : s.Inv := by
  obtain ⟨p, hp, hfit⟩ := IdPool.init_fits k.cfg_valid
  rw [IdSt.run, hp, Option.bind_some] at h
  have hinv : Inv ⟨p, []⟩ := hfit
  exact exec_invariant_all (fun _ _ _ => Inv.step) hinv h

theorem Inv.succeeds_iff (h : s.Inv) : s.Succeeds ↔ s.used.length < k.reach := by
  rw [← k.alloc_ok_iff h]
  constructor
  · rintro ⟨id, p, ha, -⟩
    exact ⟨id, p, ha⟩
  · rintro ⟨id, p, ha⟩
    exact ⟨id, p, ha, (k.alloc_ok h ha).1⟩

theorem Inv.length_used_le (h : s.Inv) : s.used.length ≤ k.reach := by
  have hle := h.length_le
  have hsize := h.size_le k.cfg_valid
  rw [k.reach_eq]
  omega

/-- After any history, the declared capacity is reachable just while fewer than `reach` ids are in use. -/
theorem declared_capacity_iff {ops : List IdOp} (h : run k ops = some s) :
    (s.used.length < k.cfg.maxSize → s.Succeeds) ↔ s.used.length < k.reach := by
  have hinv := Inv.run h
  have hmax : s.used.length < k.cfg.maxSize := by
    have := hinv.length_used_le
    have := k.cfg_valid.maxSize
    have hreach : k.reach < 256 := by cases k <;> decide
    omega
  rw [hinv.succeeds_iff]
  exact ⟨fun hs => hs hmax, fun hs _ => hs⟩

theorem declared_capacity_iff_two : ∃ s : IdSt .mpq, run .mpq [.get, .get, .put 0] = some s ∧
    s.used = [1] ∧ ((s.used.length < 2048 → s.Succeeds) ↔ s.used.length < 248) :=
  ⟨_, rfl, rfl, declared_capacity_iff (k := .mpq) (show run .mpq [.get, .get, .put 0] = some _ from rfl)⟩

theorem run_get {n : Nat} (hn : n ≤ k.reach) :
    ∃ s : IdSt k, run k (List.replicate n .get) = some s ∧ s.used.length = n := by
  obtain ⟨p, hp, hfit⟩ := IdPool.init_fits k.cfg_valid
  have hfill : ∀ m (s : IdSt k), s.Inv → s.used.length + m ≤ k.reach →
      ∃ s', exec step s (List.replicate m .get) = some s' ∧ s'.used.length = s.used.length + m := by
    intro m
    induction m with
    | zero => exact fun s _ _ => ⟨s, rfl, rfl⟩
    | succ m ih =>
      intro s hinv hm
      obtain ⟨id, q, ha⟩ := (k.alloc_ok_iff hinv).2 (by omega)
      have hstep : s.step .get = some ⟨q, s.used ++ [id]⟩ := by simp [IdSt.step, ha]
      have hlen : (s.used ++ [id]).length = s.used.length + 1 := by simp
      obtain ⟨s', hs', hlen'⟩ := ih ⟨q, s.used ++ [id]⟩ (hinv.step hstep) (by simp only [hlen]; omega)
      refine ⟨s', ?_, by simp only [hlen] at hlen'; omega⟩
      rw [List.replicate_succ, exec_cons, hstep]
      exact hs'
  obtain ⟨s, hs, hlen⟩ := hfill n ⟨p, []⟩ hfit (by simpa using hn)
  exact ⟨s, by rw [run, hp]; exact hs, by simpa using hlen⟩

/-- The 249th queue is refused, though 2048 are declared. -/
theorem not_declared_capacity : ∃ s : IdSt .mpq, run .mpq (List.replicate 248 .get) = some s ∧
    s.used.length < 2048 ∧ ¬ s.Succeeds := by
  obtain ⟨s, hs, hlen⟩ := run_get (k := .mpq) (n := 248) (by decide)
  refine ⟨s, hs, by omega, ?_⟩
  rw [(Inv.run hs).succeeds_iff, hlen]
  decide

end IdSt

end Aosl
