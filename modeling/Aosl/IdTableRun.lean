import Aosl.IdTable

/-!
# Handle safety of the tables

`TblSt.Inv` is kept by every step: the bits are the ids of the objects that have not given theirs back,
an object in its slot is alive, and of all objects that ever were in a slot the one in it came last. The
last point is what a lookup needs: the life ids of two installs in one slot differ unless 65535 installs
lie between them.
-/

namespace Aosl
open Lib

/-! ### The invariant -/

theorem ObjKind.cfg_valid (k : ObjKind) : k.cfg.Valid := by
  cases k
  · exact IdKind.cfg_valid .mpq
  · exact IdKind.cfg_valid .timer
  · exact IdKind.cfg_valid .refobj

theorem ObjKind.zero_eq (k : ObjKind) : k.cfg.zero = none := by
  cases k <;> rfl

theorem ObjKind.width_ge (k : ObjKind) : 32 ≤ k.width := by
  cases k <;> decide

/-- The life id of the install with this number. -/
def lifeOf (n : Nat) : Nat := 1 + n % 65535

theorem nextLifeId_toNat {lifeId : BitVec 16} {n : Nat} (h : lifeId.toNat = lifeOf n) :
    (TblSt.nextLifeId lifeId).toNat = lifeOf (n + 1) := by
  have hadd : (lifeId + 1#16).toNat = (lifeOf n + 1) % 65536 := by rw [BitVec.toNat_add, h]; rfl
  have hzero : lifeId + 1#16 = 0#16 ↔ lifeOf n = 65535 := by
    rw [← BitVec.toNat_inj, hadd, BitVec.toNat_zero]
    unfold lifeOf
    omega
  unfold TblSt.nextLifeId
  split_ifs with h0
  · have := hzero.1 h0
    simp only [BitVec.toNat_ofNat, lifeOf] at *
    omega
  · have := mt hzero.2 h0
    rw [hadd]
    simp only [lifeOf] at *
    omega

/-- An object between its creation and the end of its life; `inTable` says whether its slot holds it. -/
structure TblObj.Ok (k : ObjKind) (r : TblObj k.width) (inTable : Bool) (installs : Nat) : Prop where
  fresh : r.serial = none → inTable = false ∧ r.drops = 0 ∧ r.dropped = false ∧ r.held = 0
  handle : ∀ n, r.serial = some n → n < installs ∧
    r.objId = makeObjId k.width (BitVec.ofNat 16 r.id) (BitVec.ofNat 16 (lifeOf n))
  /-- Once installed, the object is in the table, or about to be dropped, or dropped. -/
  stage : r.serial ≠ none → inTable.toNat + r.drops + r.dropped.toNat = 1
  usage : r.usage = r.held + if k.counted && r.dropped then 0 else 1
  dying : r.dying = true ↔ r.dropped = true ∧ r.held = 0
  sole : k.counted = false → r.dropped = true → r.held = 0
  released : r.released = true → r.dying = true

theorem TblObj.Ok.mono {k : ObjKind} {r : TblObj k.width} {b : Bool} {m n : Nat} (h : r.Ok k b m) (hmn : m ≤ n) : r.Ok k b n :=
  { h with handle := fun i hi => ⟨Nat.lt_of_lt_of_le (h.handle i hi).1 hmn, (h.handle i hi).2⟩ }

namespace TblSt

variable {k : ObjKind} {s s' : TblSt k} {o : Nat}

/-- The slot of the object holds it. -/
def inTable (s : TblSt k) (o : Nat) : Bool := s.table[(s.obj o).id]? == some (some o)

structure Inv (s : TblSt k) : Prop where
  crashed : s.crashed = false
  /-- The bits are the ids of the objects that have not given theirs back. -/
  bits : ∃ used, IdPool.Fits k.cfg s.pool used ∧
    ∀ i, i ∈ used ↔ ∃ o < s.size, (s.obj o).id = i ∧ (s.obj o).released = false
  uniq : ∀ o < s.size, ∀ o' < s.size, (s.obj o).released = false → (s.obj o').released = false →
    (s.obj o).id = (s.obj o').id → o = o'
  id_lt : ∀ o < s.size, (s.obj o).id < s.table.length
  entry : ∀ i o, s.table[i]? = some (some o) → o < s.size ∧ (s.obj o).id = i
  ok : ∀ o < s.size, (s.obj o).Ok k (s.inTable o) s.installs
  serial_inj : ∀ o < s.size, ∀ o' < s.size, ∀ n, (s.obj o).serial = some n → (s.obj o').serial = some n → o = o'
  /-- Among the objects that ever were in a slot, the one in it came last. -/
  newest : ∀ o < s.size, ∀ o' < s.size, ∀ n n', s.inTable o = true → (s.obj o).id = (s.obj o').id →
    (s.obj o).serial = some n → (s.obj o').serial = some n' → n' ≤ n
  life : s.lifeId.toNat = lifeOf s.installs

theorem inTable_iff : s.inTable o = true ↔ s.table[(s.obj o).id]? = some (some o) := by
  rw [inTable, beq_iff_eq]

@[simp] theorem modify_obj_self (g : TblObj k.width → TblObj k.width) : (s.modify o g).obj o = g (s.obj o) := by
  simp [modify]

theorem modify_obj_ne (g : TblObj k.width → TblObj k.width) {i : Nat} (h : i ≠ o) : (s.modify o g).obj i = s.obj i := by
  simp [modify, h]

theorem Inv.size_lt (h : s.Inv) : s.table.length < 256 := by
  obtain ⟨used, hfit, -⟩ := h.bits
  exact hfit.size_lt

theorem Inv.getObjId_eq (h : s.Inv) (ho : o < s.size) (hser : (s.obj o).serial ≠ none) :
    getObjId (s.obj o).objId = BitVec.ofNat 16 (s.obj o).id ∧ (BitVec.ofNat 16 (s.obj o).id).toNat = (s.obj o).id ∧
      0 ≤ (BitVec.ofNat 16 (s.obj o).id).toInt := by
  obtain ⟨n, hn⟩ := Option.ne_none_iff_exists'.1 hser
  have hid := h.id_lt o ho
  have hlt := h.size_lt
  have hnat : (BitVec.ofNat 16 (s.obj o).id).toNat = (s.obj o).id := by
    rw [BitVec.toNat_ofNat]
    omega
  refine ⟨?_, hnat, ?_⟩
  · rw [((h.ok o ho).handle n hn).2]
    exact getObjId_makeObjId k.width_ge (by omega)
  · rw [BitVec.toInt_eq_toNat_of_lt (by omega)]
    omega

/-- A change of one object and of the slots that concern it. -/
theorem Inv.change (h : s.Inv) (o : Nat) (hcrashed : s'.crashed = false)
    (hsize : ∀ i, i < s'.size ↔ i < s.size ∨ i = o) (hobj : ∀ i, i ≠ o → s'.obj i = s.obj i)
    (hlen : s.table.length ≤ s'.table.length) (hinstalls : s.installs ≤ s'.installs)
    (hslot : ∀ (i x : Nat), x ≠ o → (s'.table[i]? = some (some x) ↔ s.table[i]? = some (some x)))
    (hown : ∀ i : Nat, s'.table[i]? = some (some o) → (s'.obj o).id = i) (hid : (s'.obj o).id < s'.table.length)
    (hok : (s'.obj o).Ok k (s'.inTable o) s'.installs)
    (hbits : ∃ used, IdPool.Fits k.cfg s'.pool used ∧
      ∀ i, i ∈ used ↔ ∃ o < s'.size, (s'.obj o).id = i ∧ (s'.obj o).released = false)
    (huniq : ∀ i < s.size, i ≠ o → (s.obj i).released = false → (s'.obj o).released = false →
      (s.obj i).id ≠ (s'.obj o).id)
    (hserial : ∀ i < s.size, i ≠ o → ∀ n, (s.obj i).serial = some n → (s'.obj o).serial ≠ some n)
    (hnewest : ∀ i < s.size, i ≠ o → ∀ n n', (s.obj i).id = (s'.obj o).id → (s.obj i).serial = some n →
      (s'.obj o).serial = some n' → (s.inTable i = true → n' ≤ n) ∧ (s'.inTable o = true → n ≤ n'))
    (hlife : s'.lifeId.toNat = lifeOf s'.installs) : s'.Inv := by
  have hin : ∀ i, i ≠ o → s'.inTable i = s.inTable i := by
    intro i hi
    rw [Bool.eq_iff_iff, inTable_iff, inTable_iff, hobj i hi, hslot _ _ hi]
  have hold : ∀ i < s'.size, i ≠ o → i < s.size := fun i hi hne => ((hsize i).1 hi).resolve_right hne
  refine ⟨hcrashed, hbits, ?_, ?_, ?_, ?_, ?_, ?_, hlife⟩
  · intro i hi j hj hri hrj hij
    by_cases hio : i = o <;> by_cases hjo : j = o
    · rw [hio, hjo]
    · subst hio
      rw [hobj j hjo] at hrj hij
      exact absurd hij.symm (huniq j (hold j hj hjo) hjo hrj hri)
    · subst hjo
      rw [hobj i hio] at hri hij
      exact absurd hij (huniq i (hold i hi hio) hio hri hrj)
    · rw [hobj i hio] at hri hij
      rw [hobj j hjo] at hrj hij
      exact h.uniq i (hold i hi hio) j (hold j hj hjo) hri hrj hij
  · intro i hi
    by_cases hio : i = o
    · rw [hio]
      exact hid
    · rw [hobj i hio]
      exact Nat.lt_of_lt_of_le (h.id_lt i (hold i hi hio)) hlen
  · intro i x hx
    by_cases hxo : x = o
    · subst hxo
      exact ⟨(hsize x).2 (.inr rfl), hown i hx⟩
    · obtain ⟨hlt, hid⟩ := h.entry i x ((hslot i x hxo).1 hx)
      exact ⟨(hsize x).2 (.inl hlt), by rw [hobj x hxo, hid]⟩
  · intro i hi
    by_cases hio : i = o
    · rw [hio]
      exact hok
    · rw [hobj i hio, hin i hio]
      exact (h.ok i (hold i hi hio)).mono hinstalls
  · intro i hi j hj n hn hn'
    by_cases hio : i = o <;> by_cases hjo : j = o
    · rw [hio, hjo]
    · subst hio
      rw [hobj j hjo] at hn'
      exact absurd hn (hserial j (hold j hj hjo) hjo n hn')
    · subst hjo
      rw [hobj i hio] at hn
      exact absurd hn' (hserial i (hold i hi hio) hio n hn)
    · rw [hobj i hio] at hn
      rw [hobj j hjo] at hn'
      exact h.serial_inj i (hold i hi hio) j (hold j hj hjo) n hn hn'
  · intro i hi j hj n n' hi' hij hn hn'
    by_cases hio : i = o <;> by_cases hjo : j = o
    · subst hio hjo
      rw [hn] at hn'
      exact Nat.le_of_eq (Option.some.inj hn').symm
    · subst hio
      rw [hobj j hjo] at hij hn'
      exact (hnewest j (hold j hj hjo) hjo n' n hij.symm hn' hn).2 hi'
    · subst hjo
      rw [hobj i hio] at hij hn
      rw [hin i hio] at hi'
      exact (hnewest i (hold i hi hio) hio n n' hij hn hn').1 hi'
    · rw [hobj i hio] at hij hn
      rw [hobj j hjo] at hij hn'
      rw [hin i hio] at hi'
      exact h.newest i (hold i hi hio) j (hold j hj hjo) n n' hi' hij hn hn'

/-- A write to the counters of an object. -/
theorem Inv.modify (h : s.Inv) (ho : o < s.size) {g : TblObj k.width → TblObj k.width}
    (hid : (g (s.obj o)).id = (s.obj o).id) (hser : (g (s.obj o)).serial = (s.obj o).serial)
    (hrel : (g (s.obj o)).released = (s.obj o).released)
    (hok : (g (s.obj o)).Ok k (s.inTable o) s.installs) : (s.modify o g).Inv := by
  have hid' : ((s.modify o g).obj o).id = (s.obj o).id := by rw [modify_obj_self, hid]
  have hin : (s.modify o g).inTable o = s.inTable o := by rw [inTable, inTable, hid']; rfl
  refine h.change o h.crashed (fun i => ⟨.inl, fun hi => hi.elim id (· ▸ ho)⟩) (fun i hi => modify_obj_ne g hi)
    (Nat.le_refl _) (Nat.le_refl _) (fun _ _ _ => Iff.rfl) ?_ ?_ ?_ ?_ ?_ ?_ ?_ h.life
  · intro i hi
    rw [hid']
    exact (h.entry i o hi).2
  · rw [hid']
    exact h.id_lt o ho
  · rw [hin, modify_obj_self]
    exact hok
  · obtain ⟨used, hfit, hmem⟩ := h.bits
    refine ⟨used, hfit, fun i => ?_⟩
    rw [hmem]
    have hfield : ∀ j, ((s.modify o g).obj j).id = (s.obj j).id ∧ ((s.modify o g).obj j).released = (s.obj j).released := by
      intro j
      by_cases hj : j = o
      · subst hj
        rw [modify_obj_self]
        exact ⟨hid, hrel⟩
      · rw [modify_obj_ne g hj]
        exact ⟨rfl, rfl⟩
    simp only [hfield]
    exact Iff.rfl
  · intro i hi hio hri hro
    rw [modify_obj_self, hrel] at hro
    rw [hid']
    exact fun heq => hio (h.uniq i hi o ho hri hro heq)
  · intro i hi hio n hn hn'
    rw [modify_obj_self, hser] at hn'
    exact hio (h.serial_inj i hi o ho n hn hn')
  · intro i hi hio n n' hij hn hn'
    rw [hid'] at hij
    rw [modify_obj_self, hser] at hn'
    rw [hin]
    exact ⟨fun hin => h.newest i hi o ho n n' hin hij hn hn', fun hin => h.newest o ho i hi n' n hin hij.symm hn' hn⟩

theorem Inv.alive (h : s.Inv) (ho : o < s.size) (hin : s.inTable o = true) :
    (s.obj o).serial ≠ none ∧ (s.obj o).drops = 0 ∧ (s.obj o).dropped = false ∧ (s.obj o).dying = false ∧
      (s.obj o).released = false := by
  have hok := h.ok o ho
  have hser : (s.obj o).serial ≠ none := fun hn => by
    have := (hok.fresh hn).1
    simp [hin] at this
  have hstage := hok.stage hser
  rw [hin] at hstage
  have hdropped : (s.obj o).dropped = false := by
    rcases hd : (s.obj o).dropped
    · rfl
    · simp [hd] at hstage
  have hdying : (s.obj o).dying = false := by
    rw [Bool.eq_false_iff, Ne, hok.dying, hdropped]
    simp
  refine ⟨hser, by simp [hdropped] at hstage; omega, hdropped, hdying, ?_⟩
  rw [Bool.eq_false_iff]
  intro hrel
  simp [hok.released hrel] at hdying

theorem Inv.fresh (h : s.Inv) (ho : o < s.size) (hser : (s.obj o).serial = none) :
    s.inTable o = false ∧ (s.obj o).released = false := by
  have hok := h.ok o ho
  obtain ⟨hin, -, hdropped, -⟩ := hok.fresh hser
  refine ⟨hin, ?_⟩
  rw [Bool.eq_false_iff]
  intro hrel
  have := (hok.dying.1 (hok.released hrel)).1
  simp [hdropped] at this

theorem Inv.slot_empty (h : s.Inv) (ho : o < s.size) (hser : (s.obj o).serial = none) (o' : Nat) :
    s.table[(s.obj o).id]? ≠ some (some o') := by
  intro hslot
  obtain ⟨ho', hid⟩ := h.entry _ _ hslot
  have hin' : s.inTable o' = true := inTable_iff.2 (by rw [hid]; exact hslot)
  have heq : o' = o := h.uniq o' ho' o ho (h.alive ho' hin').2.2.2.2 (h.fresh ho hser).2 hid
  rw [heq] at hin'
  simp [(h.fresh ho hser).1] at hin'

theorem grown_slots {t t' : List (Option Nat)} (h : t' = t ∨ t' = t ++ List.replicate k.cfg.growBy k.cfg.zero) :
    t.length ≤ t'.length ∧ ∀ i o : Nat, t'[i]? = some (some o) ↔ t[i]? = some (some o) := by
  rcases h with rfl | rfl
  · exact ⟨Nat.le_refl _, fun _ _ => Iff.rfl⟩
  · refine ⟨by rw [List.length_append]; exact Nat.le_add_right .., fun i o => ?_⟩
    by_cases hi : i < t.length
    · rw [List.getElem?_append_left hi]
    · rw [List.getElem?_append_right (Nat.not_lt.1 hi), List.getElem?_replicate, k.zero_eq,
        List.getElem?_eq_none (Nat.not_lt.1 hi)]
      split_ifs <;> simp

theorem add_obj_self (id : Nat) (p : IdPool (Option Nat)) :
    (s.add id p).obj s.size = ⟨id, -1, 1, none, 0, 0, false, false, false⟩ := by
  simp [add]

theorem add_obj_ne (id : Nat) (p : IdPool (Option Nat)) {i : Nat} (h : i ≠ s.size) : (s.add id p).obj i = s.obj i := by
  simp [add, h]

theorem Inv.add (h : s.Inv) {memBits memTable : Bool} {id : Nat} {p : IdPool (Option Nat)}
    (hget : s.pool.getUnused k.cfg memBits memTable = .ok (id, p)) : (s.add id p).Inv := by
  obtain ⟨used, hfit, hmem⟩ := h.bits
  obtain ⟨hfree, hlt, hfit', htable⟩ := hfit.getUnused_ok k.cfg_valid hget
  obtain ⟨hlen, hslot⟩ := grown_slots htable
  have hnew : ∀ i : Nat, p.table[i]? ≠ some (some s.size) := fun i hi =>
    absurd (h.entry i _ ((hslot i _).1 hi)).1 (Nat.lt_irrefl _)
  refine h.change s.size h.crashed (fun i => Nat.lt_succ_iff_lt_or_eq) (fun i hi => add_obj_ne id p hi)
    hlen (Nat.le_refl _) (fun i x _ => hslot i x) (fun i hi => absurd hi (hnew i)) ?_ ?_ ?_ ?_ ?_ ?_ h.life
  · rw [add_obj_self]
    exact hlt
  · rw [add_obj_self]
    refine ⟨fun _ => ⟨?_, rfl, rfl, rfl⟩, fun n hn => ?_, fun hn => absurd rfl hn, ?_, ?_, nofun, nofun⟩
    · rw [Bool.eq_false_iff]
      exact fun hin => hnew _ (inTable_iff.1 hin)
    · cases hn
    · simp
    · simp
  · refine ⟨used ++ [id], hfit', fun i => ?_⟩
    rw [List.mem_append, hmem, List.mem_singleton]
    constructor
    · rintro (⟨o, ho, hid, hrel⟩ | rfl)
      · refine ⟨o, Nat.lt_succ_of_lt ho, ?_⟩
        rw [add_obj_ne _ _ (Nat.ne_of_lt ho)]
        exact ⟨hid, hrel⟩
      · exact ⟨s.size, Nat.lt_succ_self _, by rw [add_obj_self]; exact ⟨rfl, rfl⟩⟩
    · rintro ⟨o, ho, hid, hrel⟩
      rcases Nat.lt_succ_iff_lt_or_eq.1 ho with ho | rfl
      · rw [add_obj_ne _ _ (Nat.ne_of_lt ho)] at hid hrel
        exact .inl ⟨o, ho, hid, hrel⟩
      · rw [add_obj_self] at hid
        exact .inr hid.symm
  · intro i hi hio hri hro hij
    rw [add_obj_self] at hij
    exact hfree ((hmem id).2 ⟨i, hi, hij, hri⟩)
  · intro i hi hio n hn hn'
    rw [add_obj_self] at hn'
    cases hn'
  · intro i hi hio n n' hij hn hn'
    rw [add_obj_self] at hn'
    cases hn'

theorem Inv.alloc (h : s.Inv) (memBits memTable : Bool) : (s.alloc memBits memTable).Inv := by
  obtain ⟨used, hfit, -⟩ := h.bits
  rcases hfit.getUnused_cases k.cfg_valid memBits memTable with ⟨-, i, hi, -⟩ | ⟨-, q, i, -, hi, -⟩ | ⟨-, -, herr⟩
  · simp only [TblSt.alloc, hi]
    exact h.add hi
  · simp only [TblSt.alloc, hi]
    exact h.add hi
  · simp only [TblSt.alloc, herr]
    exact h

theorem setSlot_slot {i : Nat} {v : Option Nat} (hold : ∀ x, x ≠ o → s.table[i]? ≠ some (some x))
    (hv : ∀ x, v = some x → x = o) (j x : Nat) (hx : x ≠ o) :
    (s.setSlot i v).table[j]? = some (some x) ↔ s.table[j]? = some (some x) := by
  have htable : (s.setSlot i v).table = s.table.set i v := rfl
  rw [htable, List.getElem?_set]
  split_ifs with hij hlt
  · subst hij
    exact iff_of_false (fun heq => hx (hv x (Option.some.inj heq))) (hold x hx)
  · subst hij
    exact iff_of_false (by simp) (hold x hx)
  · exact Iff.rfl

theorem setSlot_length (i : Nat) (v : Option Nat) : (s.setSlot i v).table.length = s.table.length := List.length_set ..

theorem setSlot_self {i : Nat} (hi : i < s.table.length) (v : Option Nat) : (s.setSlot i v).table[i]? = some v := by
  have htable : (s.setSlot i v).table = s.table.set i v := rfl
  rw [htable, List.getElem?_set_self hi]

theorem Inv.setSlot_bits (h : s.Inv) (i : Nat) (v : Option Nat) {obj' : Nat → TblObj k.width}
    (hobj : ∀ j, (obj' j).id = (s.obj j).id ∧ (obj' j).released = (s.obj j).released) :
    ∃ used, IdPool.Fits k.cfg (s.setSlot i v).pool used ∧
      ∀ i, i ∈ used ↔ ∃ o < s.size, (obj' o).id = i ∧ (obj' o).released = false := by
  obtain ⟨used, hfit, hmem⟩ := h.bits
  have hlen := setSlot_length (s := s) i v
  refine ⟨used, ⟨hfit.retable _ hlen, ?_⟩, fun j => ?_⟩
  · have hdvd := hfit.size_dvd
    rw [show s.pool.table.length = (s.setSlot i v).pool.table.length from hlen.symm] at hdvd
    exact hdvd
  · simp only [hobj]
    exact hmem j

theorem place_obj_self : (s.place o).obj o = { s.obj o with
    objId := makeObjId k.width (BitVec.ofNat 16 (s.obj o).id) s.lifeId, serial := some s.installs } := by
  simp [place]

theorem place_obj_ne {i : Nat} (h : i ≠ o) : (s.place o).obj i = s.obj i := by
  simp [place, h]

theorem Inv.place_inTable (h : s.Inv) (ho : o < s.size) : (s.place o).inTable o = true := by
  rw [inTable_iff, place_obj_self]
  exact setSlot_self (h.id_lt o ho) (some o)

theorem Inv.place (h : s.Inv) (ho : o < s.size) (hser : (s.obj o).serial = none) : (s.place o).Inv := by
  have hlt := h.id_lt o ho
  have hempty := h.slot_empty ho hser
  obtain ⟨hin, hdrops, hdropped, hheld⟩ := (h.ok o ho).fresh hser
  have hslot := setSlot_slot (s := s) (v := some o) (fun x _ => hempty x) (fun x hx => (Option.some.inj hx).symm)
  refine h.change o h.crashed (fun i => ⟨.inl, fun hi => hi.elim id (· ▸ ho)⟩) (fun _ => place_obj_ne)
    (Nat.le_of_eq (setSlot_length _ _).symm) (Nat.le_succ _) (fun i x hx => hslot i x hx) ?_ ?_ ?_ ?_ ?_ ?_ ?_
    (nextLifeId_toNat h.life)
  · intro i hi
    rw [place_obj_self]
    by_contra hne
    have htable : (s.place o).table = s.table.set (s.obj o).id (some o) := rfl
    rw [htable, List.getElem?_set_ne hne] at hi
    exact hne (h.entry i o hi).2
  · rw [place_obj_self]
    exact Nat.lt_of_lt_of_eq hlt (setSlot_length _ _).symm
  · rw [place_obj_self, h.place_inTable ho]
    refine ⟨nofun, ?_, fun _ => ?_, (h.ok o ho).usage, (h.ok o ho).dying, (h.ok o ho).sole, (h.ok o ho).released⟩
    · intro n hn
      obtain rfl := Option.some.inj hn
      refine ⟨Nat.lt_succ_self _, ?_⟩
      rw [← h.life, BitVec.ofNat_toNat, BitVec.setWidth_eq]
    · simp [hdrops, hdropped]
  · refine h.setSlot_bits _ _ fun j => ?_
    by_cases hj : j = o
    · subst hj
      rw [place_obj_self]
      exact ⟨rfl, rfl⟩
    · rw [place_obj_ne hj]
      exact ⟨rfl, rfl⟩
  · intro i hi hio hri hro
    rw [place_obj_self] at hro ⊢
    exact fun heq => hio (h.uniq i hi o ho hri hro heq)
  · intro i hi hio n hn hn'
    rw [place_obj_self] at hn'
    obtain rfl := Option.some.inj hn'
    exact absurd ((h.ok i hi).handle _ hn).1 (Nat.lt_irrefl _)
  · intro i hi hio n n' hij hn hn'
    rw [place_obj_self] at hij hn'
    obtain rfl := Option.some.inj hn'
    refine ⟨fun hin' => ?_, fun _ => Nat.le_of_lt ((h.ok i hi).handle _ hn).1⟩
    have hslot' := inTable_iff.1 hin'
    rw [hij] at hslot'
    exact absurd hslot' (hempty i)

/-- An install meets an empty slot: neither the `abort` nor the assertions are reached. -/
theorem Inv.install_eq (h : s.Inv) (ho : o < s.size) (hser : (s.obj o).serial = none) : s.install o = s.place o := by
  have hempty := h.slot_empty ho hser
  unfold TblSt.install
  rw [if_neg (Nat.not_le.2 (h.id_lt o ho))]
  rcases hslot : s.table[(s.obj o).id]? with _ | _ | o'
  · rfl
  · rfl
  · exact absurd hslot (hempty o')

theorem Inv.install (h : s.Inv) (ho : o < s.size) (hser : (s.obj o).serial = none) : (s.install o).Inv := by
  rw [h.install_eq ho hser]
  exact h.place ho hser

theorem Inv.unplace (h : s.Inv) (ho : o < s.size) (hin : s.inTable o = true) :
    ((s.setSlot (s.obj o).id none).modify o fun r => { r with drops := r.drops + 1 }).Inv := by
  have hlt := h.id_lt o ho
  obtain ⟨hser, hdrops, hdropped, hdying, hrel⟩ := h.alive ho hin
  have hslot' := inTable_iff.1 hin
  have hslot := setSlot_slot (s := s) (i := (s.obj o).id) (v := none) (o := o)
    (fun x hx heq => hx (Option.some.inj (Option.some.inj (heq.symm.trans hslot')))) nofun
  have hempty : ∀ i : Nat, (s.setSlot (s.obj o).id none).table[i]? ≠ some (some o) := by
    intro i hi
    by_cases hio : (s.obj o).id = i
    · subst hio
      rw [setSlot_self hlt] at hi
      cases hi
    · have htable : (s.setSlot (s.obj o).id none).table = s.table.set (s.obj o).id none := rfl
      rw [htable, List.getElem?_set_ne hio] at hi
      exact hio (h.entry i o hi).2
  refine h.change o h.crashed (fun i => ⟨.inl, fun hi => hi.elim id (· ▸ ho)⟩) (fun i hi => modify_obj_ne _ hi)
    (Nat.le_of_eq (setSlot_length _ _).symm) (Nat.le_refl _) (fun i x hx => hslot i x hx)
    (fun i hi => absurd hi (hempty i)) ?_ ?_ ?_ ?_ ?_ ?_ h.life
  · rw [modify_obj_self]
    exact Nat.lt_of_lt_of_eq hlt (setSlot_length _ _).symm
  · rw [modify_obj_self]
    have hout : ((s.setSlot (s.obj o).id none).modify o fun r => { r with drops := r.drops + 1 }).inTable o = false := by
      rw [Bool.eq_false_iff, Ne, inTable_iff]
      exact hempty _
    rw [hout]
    have hok := h.ok o ho
    exact ⟨fun hn => absurd hn hser, hok.handle, fun _ => by simp [hdrops, hdropped, setSlot], hok.usage, hok.dying, hok.sole,
      hok.released⟩
  · refine h.setSlot_bits _ _ fun j => ?_
    by_cases hj : j = o
    · subst hj
      exact modify_obj_self (s := s.setSlot _ _) _ ▸ ⟨rfl, rfl⟩
    · exact modify_obj_ne (s := s.setSlot _ _) _ hj ▸ ⟨rfl, rfl⟩
  · intro i hi hio hri hro
    rw [modify_obj_self] at hro ⊢
    exact fun heq => hio (h.uniq i hi o ho hri hro heq)
  · intro i hi hio n hn hn'
    rw [modify_obj_self] at hn'
    exact hio (h.serial_inj i hi o ho n hn hn')
  · intro i hi hio n n' hij hn hn'
    rw [modify_obj_self] at hij hn'
    refine ⟨fun hin => h.newest i hi o ho n n' hin hij hn hn', fun hin => ?_⟩
    rw [inTable_iff] at hin
    exact absurd hin (hempty _)

theorem Inv.uninstall_eq (h : s.Inv) (ho : o < s.size) (hser : (s.obj o).serial ≠ none) :
    s.uninstall o = if s.inTable o then
      (s.setSlot (s.obj o).id none).modify o fun r => { r with drops := r.drops + 1 } else s := by
  obtain ⟨hget, hnat, hpos⟩ := h.getObjId_eq ho hser
  have hlt := h.id_lt o ho
  unfold TblSt.uninstall
  simp only [hget, hnat]
  rw [if_neg (by omega)]
  simp only [← inTable_iff]

theorem Inv.uninstall (h : s.Inv) (ho : o < s.size) (hser : (s.obj o).serial ≠ none) : (s.uninstall o).Inv := by
  rw [h.uninstall_eq ho hser]
  split_ifs with hin
  · exact h.unplace ho hin
  · exact h

theorem find_eq_some {x : BitVec k.width} (hf : s.find x = some o) :
    s.table[(getObjId x).toNat]? = some (some o) ∧ (s.obj o).objId = x := by
  simp only [find] at hf
  split_ifs at hf
  rcases hslot : s.table[(getObjId x).toNat]? with _ | _ | o'
  · simp [hslot] at hf
  · simp [hslot] at hf
  · simp only [hslot] at hf
    split_ifs at hf with hid
    cases hf
    exact ⟨rfl, hid⟩

theorem Inv.find_inTable (h : s.Inv) {x : BitVec k.width} (hf : s.find x = some o) : o < s.size ∧ s.inTable o = true := by
  obtain ⟨hslot, -⟩ := find_eq_some hf
  obtain ⟨ho, hid⟩ := h.entry _ _ hslot
  exact ⟨ho, inTable_iff.2 (by rw [hid]; exact hslot)⟩

theorem Inv.find_self (h : s.Inv) (ho : o < s.size) (hin : s.inTable o = true) : s.find (s.obj o).objId = some o := by
  obtain ⟨hget, hnat, hpos⟩ := h.getObjId_eq ho (h.alive ho hin).1
  simp only [find, hget, hnat, inTable_iff.1 hin]
  rw [if_neg (by omega), if_pos trivial]

theorem Inv.lookup (h : s.Inv) (x : BitVec k.width) : (s.lookup x).Inv := by
  unfold TblSt.lookup
  rcases hf : s.find x with _ | o
  · exact h
  · obtain ⟨ho, hin⟩ := h.find_inTable hf
    obtain ⟨hser, -, hdropped, hdying, -⟩ := h.alive ho hin
    have hok := h.ok o ho
    refine h.modify ho rfl rfl rfl ⟨fun hn => absurd hn hser, hok.handle, hok.stage, ?_, ?_, ?_, hok.released⟩
    · have := hok.usage
      simp only [hdropped, Bool.and_false] at *
      omega
    · simp [hdropped, hdying]
    · simp [hdropped]

theorem Inv.usage_counted (h : s.Inv) (ho : o < s.size) (hk : k.counted = true) :
    (s.obj o).usage = (s.obj o).held + if (s.obj o).dropped then 0 else 1 := by
  rw [(h.ok o ho).usage, hk, Bool.true_and]

theorem Inv.put (h : s.Inv) (ho : o < s.size) (hheld : (s.obj o).held > 0) : (s.put o).Inv := by
  have hok := h.ok o ho
  have husage := hok.usage
  have hser : (s.obj o).serial ≠ none := fun hn => by
    have := (hok.fresh hn).2.2.2
    omega
  have hdying : (s.obj o).dying = false := by
    rw [Bool.eq_false_iff, Ne, hok.dying]
    omega
  refine h.modify ho rfl rfl rfl ⟨fun hn => absurd hn hser, hok.handle, hok.stage, ?_, ?_, ?_, ?_⟩
  · dsimp only
    omega
  · rcases hk : k.counted
    · -- the thread of a queue has not dropped it yet
      have hdropped : (s.obj o).dropped = false := by
        rw [Bool.eq_false_iff]
        intro hd
        have := hok.sole hk hd
        omega
      simp [hdying, hdropped]
    · rw [h.usage_counted ho hk]
      rcases hd : (s.obj o).dropped
      · simp [hdying]
        omega
      · simp [hdying]
  · intro hk hd
    have := hok.sole hk hd
    dsimp only
    omega
  · intro hrel
    simp [hok.released hrel] at hdying

theorem Inv.drop (h : s.Inv) (ho : o < s.size) (hdrops : (s.obj o).drops > 0) (hs : s.drop o = some s') : s'.Inv := by
  have hok := h.ok o ho
  have hser : (s.obj o).serial ≠ none := fun hn => by
    have := (hok.fresh hn).2.1
    omega
  have hstage := hok.stage hser
  have hdropped : (s.obj o).dropped = false := by
    rcases hd : (s.obj o).dropped
    · rfl
    · simp [hd] at hstage
      omega
  have hdying : (s.obj o).dying = false := by
    rw [Bool.eq_false_iff, Ne, hok.dying, hdropped]
    simp
  have husage := hok.usage
  simp only [hdropped, Bool.and_false, Bool.false_eq_true, if_false] at husage
  have hstage' : (s.inTable o).toNat + ((s.obj o).drops - 1) + true.toNat = 1 := by
    simp only [hdropped, Bool.toNat_false, Bool.toNat_true] at *
    omega
  unfold TblSt.drop at hs
  rcases hk : k.counted
  · rw [hk] at hs
    simp only [Bool.false_eq_true, if_false] at hs
    split_ifs at hs with hu
    cases hs
    have hheld : (s.obj o).held = 0 := by omega
    refine h.modify ho rfl rfl rfl ⟨fun hn => absurd hn hser, hok.handle, fun _ => hstage', ?_, ?_, ?_, ?_⟩
    · simp [hk, husage]
    · simp [hheld]
    · exact fun _ _ => hheld
    · simp
  · rw [hk] at hs
    simp only [if_true, Option.some.injEq] at hs
    subst hs
    refine h.modify ho rfl rfl rfl ⟨fun hn => absurd hn hser, hok.handle, fun _ => hstage', ?_, ?_, ?_, ?_⟩
    · simp [hk, husage]
    · simp [husage]
    · intro hf
      simp [hk] at hf
    · intro hrel
      simp [hok.released hrel] at hdying

theorem Inv.release_eq (h : s.Inv) (ho : o < s.size) (hser : (s.obj o).serial ≠ none) : s.release o =
    { s with pool := { s.pool with bits := s.pool.bits.clear (BitVec.ofNat 8 (s.obj o).id) } }.modify o
      fun r => { r with released := true } := by
  obtain ⟨hget, hnat, hpos⟩ := h.getObjId_eq ho hser
  have hput : s.pool.putUnused (s.obj o).id =
      some { s.pool with bits := s.pool.bits.clear (BitVec.ofNat 8 (s.obj o).id) } := if_pos (h.id_lt o ho)
  unfold TblSt.release
  simp only [hget, hnat, hput]
  rw [if_neg (by omega)]

theorem Inv.release (h : s.Inv) (ho : o < s.size) (hdying : (s.obj o).dying = true)
    (hrel : (s.obj o).released = false) : (s.release o).Inv := by
  have hok := h.ok o ho
  have hser : (s.obj o).serial ≠ none := fun hn => by
    have := (hok.fresh hn).2.2.1
    simp [(hok.dying.1 hdying).1] at this
  have hlt := h.id_lt o ho
  rw [h.release_eq ho hser]
  refine h.change o h.crashed (fun i => ⟨.inl, fun hi => hi.elim id (· ▸ ho)⟩) (fun i hi => modify_obj_ne _ hi)
    (Nat.le_refl _) (Nat.le_refl _) (fun _ _ _ => Iff.rfl) ?_ ?_ ?_ ?_ ?_ ?_ ?_ h.life
  · intro i hi
    rw [modify_obj_self]
    exact (h.entry i o hi).2
  · rw [modify_obj_self]
    exact hlt
  · rw [inTable, modify_obj_self]
    exact ⟨hok.fresh, hok.handle, hok.stage, hok.usage, hok.dying, hok.sole, fun _ => hdying⟩
  · obtain ⟨used, hfit, hmem⟩ := h.bits
    refine ⟨used.erase (s.obj o).id, ⟨hfit.clear hlt _ rfl, hfit.size_dvd⟩, fun i => ?_⟩
    rw [hfit.nodup.mem_erase_iff, hmem]
    constructor
    · rintro ⟨hne, j, hj, rfl, hrj⟩
      have hjo : j ≠ o := fun heq => hne (by rw [heq])
      exact ⟨j, hj, by rw [modify_obj_ne _ hjo]; exact ⟨rfl, hrj⟩⟩
    · rintro ⟨j, hj, hid, hrj⟩
      have hjo : j ≠ o := fun heq => by
        subst heq
        rw [modify_obj_self] at hrj
        cases hrj
      rw [modify_obj_ne _ hjo] at hid hrj
      exact ⟨fun heq => hjo (h.uniq j hj o ho hrj hrel (hid.trans heq)), j, hj, hid, hrj⟩
  · intro i hi hio hri hro
    rw [modify_obj_self] at hro
    cases hro
  · intro i hi hio n hn hn'
    rw [modify_obj_self] at hn'
    exact hio (h.serial_inj i hi o ho n hn hn')
  · intro i hi hio n n' hij hn hn'
    rw [modify_obj_self] at hij hn'
    refine ⟨fun hin => h.newest i hi o ho n n' hin hij hn hn', fun hin => ?_⟩
    rw [inTable, modify_obj_self] at hin
    exact h.newest o ho i hi n' n hin hij.symm hn' hn

/-- Every step keeps the invariant. -/
theorem Inv.step {a : TblAct k} (h : s.Inv) (hs : s.step a = some s') : s'.Inv := by
  simp only [TblSt.step, h.crashed, Bool.false_eq_true, if_false] at hs
  cases a with
  | alloc memBits memTable => exact Option.some.inj hs ▸ h.alloc memBits memTable
  | install o =>
    dsimp only at hs
    split_ifs at hs with hc
    exact Option.some.inj hs ▸ h.install hc.1 hc.2
  | uninstall o =>
    dsimp only at hs
    split_ifs at hs with hc
    exact Option.some.inj hs ▸ h.uninstall hc.1 hc.2.1
  | lookup x => exact Option.some.inj hs ▸ h.lookup x
  | put o =>
    dsimp only at hs
    split_ifs at hs with hc
    exact Option.some.inj hs ▸ h.put hc.1 hc.2
  | drop o =>
    dsimp only at hs
    split_ifs at hs with hc
    exact h.drop hc.1 hc.2 hs
  | release o =>
    dsimp only at hs
    split_ifs at hs with hc
    exact Option.some.inj hs ▸ h.release hc.1 hc.2.1 (by simpa using hc.2.2)

theorem Inv.run {acts : List (TblAct k)} (h : TblSt.run k acts = some s) : s.Inv := by
  obtain ⟨p, hp, hfit⟩ := IdPool.init_fits k.cfg_valid
  rw [TblSt.run, hp, Option.bind_some] at h
  refine exec_invariant_all (I := Inv) (fun _ _ _ hi => hi.step) ?_ h
  have hempty : ∀ i o : Nat, p.table[i]? ≠ some (some o) := by
    intro i o hi
    rw [IdPool.init, Option.map_eq_some_iff] at hp
    obtain ⟨bits, -, rfl⟩ := hp
    rw [List.getElem?_replicate, k.zero_eq] at hi
    split_ifs at hi
    cases hi
  refine ⟨rfl, ⟨[], hfit, fun i => ?_⟩, ?_, ?_, fun i o hi => absurd hi (hempty i o), ?_, ?_, ?_, rfl⟩
  · simp
  all_goals exact fun o ho => absurd ho (Nat.not_lt_zero o)

/-! ### Safety -/

/-- The handle `x` was issued to the object `o` by the install with number `n`. -/
def Issued (s : TblSt k) (x : BitVec k.width) (o n : Nat) : Prop :=
  o < s.size ∧ (s.obj o).serial = some n ∧ (s.obj o).objId = x

structure Safe (s : TblSt k) : Prop where
  /-- No `abort` and no assertion that fails. -/
  crashed : s.crashed = false
  /-- A slot that is not empty has its bit set and holds a live object. -/
  slot : ∀ i o : Nat, s.table[i]? = some (some o) → s.pool.bits.bit i = true ∧ o < s.size ∧
    (s.obj o).dying = false ∧ (s.obj o).released = false
  /-- An id has one owner until it is given back. -/
  owner : ∀ o < s.size, ∀ o' < s.size, (s.obj o).released = false → (s.obj o').released = false →
    (s.obj o).id = (s.obj o').id → o = o'
  /-- A bit is cleared only by the thread that frees its object, which has been uninstalled and dropped. -/
  cleared : ∀ a s', s.step a = some s' → ∀ i, s.pool.bits.bit i = true → s'.pool.bits.bit i = false →
    ∃ o < s.size, a = .release o ∧ (s.obj o).id = i ∧ (s.obj o).serial ≠ none ∧ s.inTable o = false ∧
      (s.obj o).dropped = true ∧ (s.obj o).dying = true
  /-- A handle leads to the object it was issued to or to nothing, until the life ids wrap. -/
  lookup : ∀ x o n, s.Issued x o n → s.installs - (n + 1) < 65535 → s.find x = none ∨ s.find x = some o

theorem Inv.bit_iff (h : s.Inv) (i : Nat) : s.pool.bits.bit i = true ↔
    ∃ o < s.size, (s.obj o).id = i ∧ (s.obj o).released = false := by
  obtain ⟨used, hfit, hmem⟩ := h.bits
  rw [hfit.bit, hmem]

theorem Inv.dying (h : s.Inv) (ho : o < s.size) (hd : (s.obj o).dying = true) :
    (s.obj o).serial ≠ none ∧ s.inTable o = false ∧ (s.obj o).dropped = true := by
  have hok := h.ok o ho
  have hdropped := (hok.dying.1 hd).1
  have hser : (s.obj o).serial ≠ none := fun hn => by
    have := (hok.fresh hn).2.2.1
    simp [hdropped] at this
  refine ⟨hser, ?_, hdropped⟩
  have hstage := hok.stage hser
  rcases hin : s.inTable o
  · rfl
  · simp [hin, hdropped] at hstage

/-- Nobody's id changes, and nobody gives it back. -/
def SameIds (s s' : TblSt k) : Prop := s.size ≤ s'.size ∧ ∀ o < s.size, (s'.obj o).id = (s.obj o).id ∧
  (s'.obj o).released = (s.obj o).released

theorem SameIds.refl : SameIds s s := ⟨Nat.le_refl _, fun _ _ => ⟨rfl, rfl⟩⟩

theorem SameIds.modify (h : SameIds s s') {j : Nat} {g : TblObj k.width → TblObj k.width}
    (hg : ∀ r, (g r).id = r.id ∧ (g r).released = r.released) : SameIds s (s'.modify j g) := by
  refine ⟨h.1, fun o ho => ?_⟩
  by_cases hoj : o = j
  · subst hoj
    rw [modify_obj_self, (hg _).1, (hg _).2]
    exact h.2 o ho
  · rw [modify_obj_ne g hoj]
    exact h.2 o ho

/-- Only a release gives an id back. -/
theorem step_sameIds {a : TblAct k} (ha : ∀ o, a ≠ .release o) (hs : s.step a = some s') : SameIds s s' := by
  unfold TblSt.step at hs
  split_ifs at hs
  cases a with
  | alloc memBits memTable =>
    obtain rfl := Option.some.inj hs
    unfold TblSt.alloc
    split
    · exact SameIds.refl
    · exact SameIds.refl
    · exact ⟨Nat.le_succ _, fun o ho => by rw [add_obj_ne _ _ (Nat.ne_of_lt ho)]; exact ⟨rfl, rfl⟩⟩
  | install j =>
    dsimp only at hs
    split_ifs at hs
    obtain rfl := Option.some.inj hs
    unfold TblSt.install
    split_ifs
    · exact SameIds.refl
    · split
      · exact SameIds.refl
      · refine ⟨Nat.le_refl _, fun o ho => ?_⟩
        by_cases hoj : o = j <;> simp [TblSt.place, hoj]
  | uninstall j =>
    dsimp only at hs
    split_ifs at hs
    obtain rfl := Option.some.inj hs
    unfold TblSt.uninstall
    dsimp only
    split_ifs
    · exact SameIds.refl
    · apply SameIds.modify
      · exact ⟨Nat.le_refl _, fun _ _ => ⟨rfl, rfl⟩⟩
      · exact fun _ => ⟨rfl, rfl⟩
    · exact SameIds.refl
  | lookup x =>
    obtain rfl := Option.some.inj hs
    unfold TblSt.lookup
    split
    · exact SameIds.refl
    · exact SameIds.refl.modify fun _ => ⟨rfl, rfl⟩
  | put j =>
    dsimp only at hs
    split_ifs at hs
    obtain rfl := Option.some.inj hs
    exact SameIds.refl.modify fun _ => ⟨rfl, rfl⟩
  | drop j =>
    dsimp only [TblSt.drop] at hs
    split_ifs at hs
    · obtain rfl := Option.some.inj hs
      exact SameIds.refl.modify fun _ => ⟨rfl, rfl⟩
    · obtain rfl := Option.some.inj hs
      exact SameIds.refl.modify fun _ => ⟨rfl, rfl⟩
  | release j => exact absurd rfl (ha j)

theorem Inv.cleared (h : s.Inv) {a : TblAct k} (hs : s.step a = some s') {i : Nat} (hbit : s.pool.bits.bit i = true)
    (hbit' : s'.pool.bits.bit i = false) : ∃ o < s.size, a = .release o ∧ (s.obj o).id = i ∧ (s.obj o).dying = true := by
  obtain ⟨o, ho, hid, hrel⟩ := (h.bit_iff i).1 hbit
  have hgone : ¬ ∃ o < s'.size, (s'.obj o).id = i ∧ (s'.obj o).released = false := by
    rw [← (h.step hs).bit_iff, hbit']
    simp
  by_cases ha : ∀ j, a ≠ .release j
  · -- then the owner of the bit still has it
    obtain ⟨hsize, hsame⟩ := step_sameIds ha hs
    obtain ⟨hid', hrel'⟩ := hsame o ho
    exact absurd ⟨o, Nat.lt_of_lt_of_le ho hsize, by rw [hid', hid], by rw [hrel', hrel]⟩ hgone
  · push Not at ha
    obtain ⟨j, rfl⟩ := ha
    simp only [TblSt.step, h.crashed, Bool.false_eq_true, if_false] at hs
    split_ifs at hs with hc
    obtain rfl := Option.some.inj hs
    refine ⟨j, hc.1, rfl, ?_, hc.2.1⟩
    have hjo : j = o := by
      by_contra hne
      rw [h.release_eq hc.1 (h.dying hc.1 hc.2.1).1] at hgone
      exact hgone ⟨o, ho, by rw [modify_obj_ne _ (Ne.symm hne)]; exact ⟨hid, hrel⟩⟩
    rw [hjo, hid]

theorem lifeOf_inj {m n : Nat} (hmn : m ≤ n) (hlt : n - m < 65535) (h : lifeOf m = lifeOf n) : m = n := by
  unfold lifeOf at h
  omega

theorem Inv.find_issued (h : s.Inv) {x : BitVec k.width} {n : Nat} (hx : s.Issued x o n)
    (hlife : s.installs - (n + 1) < 65535) {o' : Nat} (hf : s.find x = some o') : o' = o := by
  obtain ⟨ho, hser, hobj⟩ := hx
  obtain ⟨ho', hin⟩ := h.find_inTable hf
  obtain ⟨n', hser'⟩ := Option.ne_none_iff_exists'.1 (h.alive ho' hin).1
  obtain ⟨hn, hid⟩ := (h.ok o ho).handle n hser
  obtain ⟨hn', hid'⟩ := (h.ok o' ho').handle n' hser'
  have hlt := h.size_lt
  have hto : ∀ i < s.size, (BitVec.ofNat 16 (s.obj i).id).toNat = (s.obj i).id := by
    intro i hi
    have := h.id_lt i hi
    rw [BitVec.toNat_ofNat]
    omega
  have hidlt := h.id_lt o ho
  have hidlt' := h.id_lt o' ho'
  obtain ⟨heq, hlives⟩ := makeObjId_inj k.width_ge (by rw [hto o' ho']; omega) (by rw [hto o ho]; omega)
    (hid'.symm.trans ((find_eq_some hf).2.trans (hobj.symm.trans hid)))
  have hslot : (s.obj o').id = (s.obj o).id := by rw [← hto o' ho', heq, hto o ho]
  have hle := h.newest o' ho' o ho n' n hin hslot hser' hser
  have hl : lifeOf n = lifeOf n' := by
    have := congrArg BitVec.toNat hlives
    rw [BitVec.toNat_ofNat, BitVec.toNat_ofNat] at this
    unfold lifeOf at *
    omega
  obtain rfl := lifeOf_inj hle (by omega) hl
  exact h.serial_inj o' ho' o ho n hser' hser

theorem Inv.safe (h : s.Inv) : s.Safe := by
  refine ⟨h.crashed, ?_, h.uniq, ?_, ?_⟩
  · intro i o hslot
    obtain ⟨ho, hid⟩ := h.entry i o hslot
    obtain ⟨-, -, -, hdying, hrel⟩ := h.alive ho (inTable_iff.2 (by rw [hid]; exact hslot))
    exact ⟨(h.bit_iff i).2 ⟨o, ho, hid, hrel⟩, ho, hdying, hrel⟩
  · intro a s' hs i hbit hbit'
    obtain ⟨o, ho, ha, hid, hdying⟩ := h.cleared hs hbit hbit'
    obtain ⟨hser, hin, hdropped⟩ := h.dying ho hdying
    exact ⟨o, ho, ha, hid, hser, hin, hdropped, hdying⟩
  · intro x o n hx hlife
    rcases hf : s.find x with _ | o'
    · exact .inl rfl
    · exact .inr (by rw [h.find_issued hx hlife hf])

/-- Over any interleaving of allocations, installs, uninstalls, lookups, puts and final frees. -/
theorem handles_safe (k : ObjKind) (acts : List (TblAct k)) (s : TblSt k) (h : run k acts = some s) : s.Safe :=
  (Inv.run h).safe

/-- A timer is created, looked up, killed and freed, and its slot is taken again. -/
def slotReused : List (TblAct .timer) :=
  [.alloc true true, .install 0, .lookup 0x10000, .uninstall 0, .drop 0, .put 0, .release 0, .alloc true true, .install 1]

/-- The old handle leads to nothing, the new one to the new timer. -/
theorem handles_safe_slotReused : ∃ s, run .timer slotReused = some s ∧ s.Safe ∧
    s.find 0x10000 = none ∧ s.find 0x20000 = some 1 := by
  have hrun : ((run .timer slotReused).any fun s => s.find 0x10000 == none && s.find 0x20000 == some 1) = true := by
    decide +kernel
  rw [Option.any_eq_true] at hrun
  obtain ⟨s, hs, hfind⟩ := hrun
  refine ⟨s, hs, handles_safe .timer slotReused s hs, ?_⟩
  simpa using hfind

end TblSt

end Aosl
