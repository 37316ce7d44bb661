import Aosl.Tls

/-!
# TLS keys under any order of creations and deletions

The use of a slot is kept twice, as a bit and as the parity of `seq`. A deletion counts `seq` up without looking at
either, so the two stay together just while deletions name keys that exist.
-/

namespace Aosl
open Lib

/-- The slots with an odd counter are those in `used`. -/
def Counted (table : List (BitVec 64)) (used : List Nat) : Prop :=
  ∀ (key : Nat) (seq : BitVec 64), table[key]? = some seq → (key ∈ used ↔ keyUsed seq = true)

theorem getElem?_countUp {table : List (BitVec 64)} {key k : Nat} {seq : BitVec 64} :
    (table.modify key (· + 1#64))[k]? = some seq ↔
      ∃ old, table[k]? = some old ∧ seq = if key = k then old + 1#64 else old := by
  rw [List.getElem?_modify, Option.map_eq_map, Option.map_eq_some_iff]
  exact exists_congr fun old => and_congr_right fun _ => eq_comm

namespace Counted

variable {table : List (BitVec 64)} {used : List Nat} {key : Nat}

theorem grow (h : Counted table used) (hlt : ∀ i ∈ used, i < table.length) (n : Nat) :
    Counted (table ++ List.replicate n 0#64) used := by
  intro k seq hk
  by_cases hkl : k < table.length
  · rw [List.getElem?_append_left hkl] at hk
    exact h k seq hk
  · rw [List.getElem?_append_right (Nat.le_of_not_lt hkl), List.getElem?_replicate] at hk
    split_ifs at hk
    obtain rfl := Option.some.inj hk
    constructor
    · exact fun hm => absurd (hlt k hm) hkl
    · intro hodd
      cases hodd

theorem modify_iff (h : Counted table used) {used' : List Nat} (hlt : key < table.length)
    (hother : ∀ i, i ≠ key → (i ∈ used' ↔ i ∈ used)) :
    Counted (table.modify key (· + 1#64)) used' ↔ (key ∈ used' ↔ key ∉ used) := by
  have hself : table[key]? = some table[key] := List.getElem?_eq_getElem hlt
  constructor
  · intro h'
    have hodd := h' key _ (getElem?_countUp.2 ⟨_, hself, (if_pos rfl).symm⟩)
    rw [hodd, keyUsed_add_one, h key _ hself]
    simp
  · intro hkey k seq hk
    obtain ⟨old, hold, rfl⟩ := getElem?_countUp.1 hk
    by_cases hne : key = k
    · subst hne
      rw [if_pos rfl, keyUsed_add_one, hkey, h key old hold]
      simp
    · rw [if_neg hne, hother k (Ne.symm hne), h k old hold]

end Counted

inductive TlsKeyOp where
  | create (memBits memTable : Bool)
  | delete (key : Int)
deriving DecidableEq

/-- `created` is not in the code: the keys that a creation has returned and no deletion has named since. -/
structure TlsKeySt where
  tls : TlsSt
  created : List Nat

namespace TlsKeySt

def init : TlsKeySt := ⟨.rbTlsInit, []⟩

/-- A creation that fails has written nothing. -/
def step (s : TlsKeySt) : TlsKeyOp → Option TlsKeySt
  | .create memBits memTable => match allocTlsKey memBits memTable s.tls.keys with
    | .ok (key, p) => some ⟨{ s.tls with keys := p }, s.created ++ [key]⟩
    | .error .bug => none
    | .error _ => some s
  | .delete key => some ⟨{ s.tls with keys := kTlsKeyDelete key s.tls.keys },
      if key < 0 then s.created else s.created.erase key.toNat⟩

/-- The bit of every slot agrees with its counter, and every key that has been returned can be used. -/
structure Sound (s : TlsKeySt) : Prop where
  synced : ∀ (key : Nat) (seq : BitVec 64), s.tls.keys.table[key]? = some seq →
    (s.tls.keys.bits.bit key = true ↔ seq.toNat % 2 = 1)
  usable : ∀ key ∈ s.created, ∀ self value, ∃ tls, s.tls.kTlsKeySet self key value = some (0, tls)

/-- A deletion names a key that is out of range or exists. -/
def NamesKey (s : TlsKeySt) : TlsKeyOp → Prop
  | .create _ _ => True
  | .delete key => key < 0 ∨ s.tls.keys.table.length ≤ key ∨ key.toNat ∈ s.created

instance (s : TlsKeySt) : (op : TlsKeyOp) → Decidable (s.NamesKey op)
  | .create _ _ => .isTrue trivial
  | .delete key => inferInstanceAs (Decidable (key < 0 ∨ s.tls.keys.table.length ≤ key ∨ key.toNat ∈ s.created))

/-- What holds after any operations. -/
structure Inv (s : TlsKeySt) : Prop where
  fits : IdPool.Fits tlsPool s.tls.keys s.created
  nodes : ∀ self, s.tls.nodes self = none

variable {s s' : TlsKeySt}

theorem Inv.usable (h : s.Inv) (hc : Counted s.tls.keys.table s.created) {key : Nat} (hkey : key ∈ s.created)
    (self value : Nat) : ∃ tls, s.tls.kTlsKeySet self key value = some (0, tls) := by
  have hlt := h.fits.lt key hkey
  have hself : s.tls.keys.table[key]? = some s.tls.keys.table[key] := List.getElem?_eq_getElem hlt
  have hused : usedSlot s.tls.keys key = some s.tls.keys.table[key] := by
    have hrange : ¬ ((key : Int) < 0 ∨ (key : Int) ≥ s.tls.keys.table.length) := by omega
    rw [usedSlot, if_neg hrange, Int.toNat_natCast, hself, Option.filter_some, (hc key _ hself).1 hkey]
    rfl
  simp [TlsSt.kTlsKeySet, hused, h.nodes, TlsNode.create, TlsNode.put, Nat.not_le.2 hlt]

theorem Inv.sound_iff (h : s.Inv) : s.Sound ↔ Counted s.tls.keys.table s.created := by
  constructor
  · intro hs key seq hseq
    rw [← h.fits.bit key, hs.synced key seq hseq, keyUsed_iff]
  · intro hc
    refine ⟨fun key seq hseq => ?_, fun key hkey self value => h.usable hc hkey self value⟩
    rw [h.fits.bit key, hc key seq hseq, keyUsed_iff]

theorem Inv.step {op : TlsKeyOp} (h : s.Inv) (hs : s.step op = some s') : s'.Inv := by
  rcases op with ⟨memBits, memTable⟩ | key
  · simp only [TlsKeySt.step] at hs
    rcases allocTlsKey_cases h.fits memBits memTable with ⟨key, p, q, hok, -, hfit, -⟩ | herr
    · rw [hok] at hs
      cases hs
      exact ⟨hfit, h.nodes⟩
    · rw [herr] at hs
      cases hs
      exact h
  · cases hs
    refine ⟨?_, h.nodes⟩
    simp only [kTlsKeyDelete]
    split_ifs
    · exact h.fits
    · exact freeTlsKey_fits h.fits

/-- A step keeps the two records of the keys together exactly when it names a key. -/
theorem Inv.counted_iff {op : TlsKeyOp} (h : s.Inv) (hc : Counted s.tls.keys.table s.created)
    (hs : s.step op = some s') : Counted s'.tls.keys.table s'.created ↔ s.NamesKey op := by
  rcases op with ⟨memBits, memTable⟩ | key
  · simp only [TlsKeySt.step] at hs
    refine iff_of_true ?_ trivial
    rcases allocTlsKey_cases h.fits memBits memTable with ⟨key, p, q, hok, hfree, -, htable, hlt, hgrown⟩ | herr
    · rw [hok] at hs
      cases hs
      have hc' : Counted q.table s.created := by
        rcases hgrown with rfl | ⟨-, -, hmore⟩
        · exact hc
        · rw [hmore]
          exact hc.grow h.fits.lt 16
      show Counted p.table (s.created ++ [key])
      rw [htable, hc'.modify_iff hlt fun i hi => by simp [hi]]
      simp [hfree]
    · rw [herr] at hs
      cases hs
      exact hc
  · cases hs
    simp only [kTlsKeyDelete, freeTlsKey, NamesKey]
    by_cases hneg : key < 0
    · simp only [hneg, true_or, iff_true]
      exact hc
    simp only [hneg, false_or, if_false]
    by_cases hlt : key.toNat < s.tls.keys.table.length
    · rw [if_pos hlt, hc.modify_iff hlt fun i hi => List.mem_erase_of_ne hi]
      have hout : ¬ (s.tls.keys.table.length : Int) ≤ key := by omega
      have hgone : key.toNat ∉ s.created.erase key.toNat := h.fits.nodup.not_mem_erase
      simp [hgone, hout]
    · have hfree : key.toNat ∉ s.created := fun hm => hlt (h.fits.lt _ hm)
      rw [if_neg hlt, List.erase_of_not_mem hfree]
      exact iff_of_true hc (.inl (by omega))

theorem inv_init : init.Inv := by
  have hvalid : tlsPool.Valid := IdKind.cfg_valid .tls
  obtain ⟨p, hp, hfit⟩ := IdPool.init_fits hvalid
  have hget : (IdPool.init tlsPool).get TlsSt.init_isSome = p := Option.get_of_eq_some _ hp
  refine ⟨?_, fun _ => rfl⟩
  show IdPool.Fits tlsPool ((IdPool.init tlsPool).get TlsSt.init_isSome) []
  rw [hget]
  exact hfit

theorem counted_init : Counted init.tls.keys.table init.created := by
  intro key seq hseq
  have hzero : init.tls.keys.table = List.replicate 16 0#64 := rfl
  rw [hzero, List.getElem?_replicate] at hseq
  split_ifs at hseq
  obtain rfl := Option.some.inj hseq
  exact iff_of_false List.not_mem_nil (by decide)

theorem Inv.step_isSome (h : s.Inv) (op : TlsKeyOp) : ∃ s', s.step op = some s' := by
  rcases op with ⟨memBits, memTable⟩ | key
  · simp only [TlsKeySt.step]
    rcases allocTlsKey_cases h.fits memBits memTable with ⟨key, p, q, hok, -⟩ | herr
    · exact ⟨_, by rw [hok]⟩
    · exact ⟨_, by rw [herr]⟩
  · exact ⟨_, rfl⟩

/-- The keys stay sound through a sequence of creations and deletions exactly when each deletion in it names a key that
is out of range or exists. -/
theorem tls_keys_sound_iff (ops : List TlsKeyOp) :
    (∀ bs, bs <+: ops → ∃ s, exec step init bs = some s ∧ s.Sound) ↔ Along step NamesKey init ops := by
  have hiff := @along_iff_forall_reached _ _ step NamesKey Inv init ops Sound (fun s op s' h => h.step)
    (fun s op s' h hsound hs => by rw [(h.step hs).sound_iff, h.counted_iff (h.sound_iff.1 hsound) hs])
    (fun s op h hnone => by
      obtain ⟨s', hs'⟩ := h.step_isSome op
      rw [hs'] at hnone
      cases hnone)
    inv_init (inv_init.sound_iff.2 counted_init)
  rw [← hiff]
  constructor
  · intro hall bs s hbs hrun
    obtain ⟨s', hs', hsound⟩ := hall bs hbs
    exact Option.some.inj (hs'.symm.trans hrun) ▸ hsound
  · intro hall bs hbs
    obtain ⟨s, hs, -⟩ := @exec_total _ _ step (fun _ _ => True) Inv init bs (fun s op h _ => by
      obtain ⟨s', hs'⟩ := h.step_isSome op
      exact ⟨s', hs', h.step hs'⟩) inv_init (along_of_forall fun _ _ => trivial)
    exact ⟨s, hs, hall bs s hbs hs⟩

/-- A key is deleted twice; the next creation returns its slot with an even counter, and the key cannot be used. -/
theorem not_tls_keys_sound : ∃ s, exec step init [.create true true, .delete 0, .delete 0, .create true true] = some s ∧
    ¬ s.Sound ∧ s.created = [0] ∧ (s.tls.kTlsKeySet 1 0 7).map Prod.fst = some (-1022) := by
  have hany : (exec step init [.create true true, .delete 0, .delete 0, .create true true]).any (fun s =>
      decide (s.created = [0] ∧ (s.tls.kTlsKeySet 1 0 7).map Prod.fst = some (-1022))) = true := by decide +kernel
  obtain ⟨s, hs, hd⟩ := (Option.any_eq_true ..).1 hany
  obtain ⟨hcreated, hset⟩ := of_decide_eq_true hd
  refine ⟨s, hs, fun hsound => ?_, hcreated, hset⟩
  obtain ⟨tls, htls⟩ := hsound.usable 0 (by simp [hcreated]) 1 7
  rw [Int.natCast_zero] at htls
  rw [htls] at hset
  cases hset

end TlsKeySt

end Aosl
