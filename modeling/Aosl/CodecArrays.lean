import Aosl.Codec

/-!
# The loops over a fixed array

`smart_init_typed_obj` and `smart_fini_typed_obj` go over the elements of a `FIXED_ARRAY` with a `size_t`, `_____marshal`
and `_____unmarshal` with an `uint16_t`. `noting` keeps an account of the elements that a loop comes to: up to 65535 of
them are the same in all four loops, and a longer array is only left where one of the first 65536 elements fails.
-/

namespace Aosl
open Lib Attempt Machine

/-- `for (v = 0; v < n; v++)` with a `size_t v`. -/
def sizeCalls {π : Type} (n : Nat) (p : Nat → π) : Nat → Option π := fun k => if k < n then some (p k) else none

namespace Codec

section
variable {π : Type}

/-- `FIXED_ARRAY` of `smart_init_typed_obj`. -/
def initFixedArray (size : Except Halt Nat) (arraySize : UInt32) (p : Nat → Nat → π) : Nat → Option π :=
  match size with
  | .ok objSize => sizeCalls arraySize.toNat (p objSize)
  | .error _ => noCall

/-- `FIXED_ARRAY` of `smart_fini_typed_obj`. -/
def finiFixedArray (size : Except Halt Nat) (arraySize : UInt32) (p : Nat → Nat → π) : Nat → Option π :=
  match size with
  | .ok objSize => sizeCalls arraySize.toNat (p objSize)
  | .error _ => noCall

end

section
variable {ε σ : Type}

/-- `f`, with a note of its element. -/
def noting (f : Nat → Attempt ε σ Nat) (i : Nat) : Attempt (Stop ε) (σ × List Nat) Nat := ⟨fun s =>
  match (f i).run s.1 with
  | (.ok l, s') => (.ok l, s', s.2 ++ [i])
  | (.error x, s') => (.error (.fail x), s', s.2 ++ [i])⟩

/-- A loop whose `k`-th turn is for the element `calls k`, where `f` is what the call for an element does. -/
def visits (f : Nat → Attempt ε σ Nat) (calls : Nat → Option Nat) (turns : Nat) (s : σ) :
    Except (Stop ε) Nat × σ × List Nat := (loop (noting f) calls turns 0 0).run (s, [])

/-- It ends, and has come to each of `n` elements once and in order, up to one that fails. -/
def VisitsAll (n : Nat) (out : Except (Stop ε) Nat × σ × List Nat) : Prop :=
  ∃ m ≤ n, out.2.2 = List.range m ∧ ((∃ l, out.1 = .ok l) ∧ m = n ∨ ∃ x, out.1 = .error (.fail x))

variable {f : Nat → Attempt ε σ Nat} {next : Nat → Option Nat} {n m i j k turns : Nat} {s s' t : σ} {l l' : List Nat}
  {x : ε}

theorem noting_log (h : Gives (noting f) i (s, l) (s', l')) : l' = l ++ [i] := by
  obtain ⟨len, hrun⟩ := h
  unfold noting at hrun
  rcases hf : (f i).run s with ⟨x | len', s₁⟩ <;> simp [hf] at hrun
  exact hrun.2.2.symm

theorem noting_fails (h : (noting f i).run (s, l) = (.error (.fail x), s', l')) :
    (f i).run s = (.error x, s') ∧ l' = l ++ [i] := by
  unfold noting at h
  rcases hf : (f i).run s with ⟨y | len, s₁⟩ <;> simp [hf] at h
  obtain ⟨rfl, rfl, rfl⟩ := h
  exact ⟨rfl, rfl⟩

theorem walk_log {idx : Nat → Nat} (hnext : ∀ k q, next k = some q → q = idx k) {p p' : σ × List Nat}
    (h : Walks (Gives (noting f)) next k p j p') : p'.2 = p.2 ++ (List.range' k (j - k)).map idx := by
  induction h with
  | nil => simp
  | @cons k j q p p₁ p' hq hp hrest ih =>
    have hle := hrest.le
    have hj : j - k = j - (k + 1) + 1 := by omega
    rw [ih, noting_log hp, hnext k q hq, hj, List.range'_succ]
    simp

/-- The `j`-th element is the first that fails. -/
def FailsAt (f : Nat → Attempt ε σ Nat) (s : σ) (j : Nat) (x : ε) (s' : σ) : Prop :=
  ∃ t, Walks (Gives (noting f)) some 0 (s, []) j (t, List.range j) ∧ (f j).run t = (.error x, s')

theorem walk_or_fails (m : Nat) (f : Nat → Attempt ε σ Nat) (s : σ) :
    (∃ s', Walks (Gives (noting f)) some 0 (s, []) m (s', List.range m)) ∨ ∃ j < m, ∃ x s', FailsAt f s j x s' := by
  induction m with
  | zero => exact .inl ⟨s, .nil⟩
  | succ m ih =>
    obtain ⟨t, hwalk⟩ | ⟨j, hj, hfail⟩ := ih
    · rcases hf : (f m).run t with ⟨x | len, s'⟩
      · exact .inr ⟨m, Nat.lt_succ_self m, x, s', t, hwalk, hf⟩
      · refine .inl ⟨s', hwalk.snoc rfl ⟨len, ?_⟩⟩
        simp [noting, hf, List.range_succ]
    · exact .inr ⟨j, Nat.lt_succ_of_lt hj, hfail⟩

theorem FailsAt.visits (h : FailsAt f s j x s') (hnext : ∀ k ≤ j, next k = some k) (hj : j < turns) :
    visits f next turns s = (.error (.fail x), s', List.range (j + 1)) := by
  obtain ⟨t, hwalk, hf⟩ := h
  have hwalk' : Walks (Gives (noting f)) next 0 (s, []) j (t, List.range j) :=
    hwalk.congr fun i _ hi => (hnext i (Nat.le_of_lt hi)).symm
  refine loop_walk_error hwalk' (hnext j (Nat.le_refl j)) ?_ hj
  simp [noting, hf, List.range_succ]

theorem sizeCalls_lt (h : k < n) : sizeCalls n id k = some k := if_pos h

theorem uint16Calls_lt (h : k < 65536) (hn : k < n) : uint16Calls n id k = some k := by
  rw [uint16Calls, Nat.mod_eq_of_lt h, if_pos hn, id]

theorem uint16Calls_wraps {π : Type} {p : Nat → π} (h : 65535 < n) : uint16Calls n p k = some (p (k % 65536)) := by
  have hlt := Nat.mod_lt k (show 65536 > 0 by decide)
  exact if_pos (by omega)

theorem sizeCalls_cases (n : Nat) (f : Nat → Attempt ε σ Nat) (s : σ) :
    (∃ len s', visits f (sizeCalls n id) n s = (.ok len, s', List.range n)) ∨
      ∃ j < n, ∃ x s', FailsAt f s j x s' ∧
        visits f (sizeCalls n id) n s = (.error (.fail x), s', List.range (j + 1)) := by
  obtain ⟨s', hwalk⟩ | ⟨j, hj, x, s', hfail⟩ := walk_or_fails n f s
  · have hwalk' : Walks (Gives (noting f)) (sizeCalls n id) 0 (s, []) n (s', List.range n) :=
      hwalk.congr fun i _ hi => (sizeCalls_lt hi).symm
    obtain ⟨len, hloop⟩ := loop_walk 0 0 hwalk'
    have hend : sizeCalls n id n = none := if_neg (Nat.lt_irrefl n)
    rw [Nat.zero_add, Nat.sub_zero, loop_none hend] at hloop
    exact .inl ⟨len, s', hloop⟩
  · exact .inr ⟨j, hj, x, s', hfail, hfail.visits (fun k hk => sizeCalls_lt (Nat.lt_of_le_of_lt hk hj)) hj⟩

theorem sizeCalls_all (n : Nat) (f : Nat → Attempt ε σ Nat) (s : σ) : VisitsAll n (visits f (sizeCalls n id) n s) := by
  obtain ⟨len, s', hout⟩ | ⟨j, hj, x, s', -, hout⟩ := sizeCalls_cases n f s
  · rw [hout]
    exact ⟨n, Nat.le_refl n, rfl, .inl ⟨⟨len, rfl⟩, rfl⟩⟩
  · rw [hout]
    exact ⟨j + 1, hj, rfl, .inr ⟨x, rfl⟩⟩

theorem visits_short (h : n ≤ 65535) : visits f (uint16Calls n id) n s = visits f (sizeCalls n id) n s := by
  unfold visits
  rw [loop_next_congr fun i _ hi => ?_]
  rw [uint16Calls, Nat.mod_eq_of_lt (by omega)]
  rfl

theorem wraps_late (h : List.range m = (List.range (j + 1)).map (· % 65536)) : j < 65536 := by
  have hlen := congrArg List.length h
  rw [List.length_map, List.length_range, List.length_range] at hlen
  by_contra hge
  have hat := congrArg (fun l => l[65536]?) h
  have hleft : (List.range m)[65536]? = some 65536 := List.getElem?_range (by omega)
  have hright : (List.range (j + 1))[65536]? = some 65536 := List.getElem?_range (by omega)
  simp only [List.getElem?_map, hleft, hright, Option.map_some] at hat
  exact absurd (Option.some.inj hat) (by decide)

/-- The index is 0 again after 65535, so a long array is only left where one of the first elements fails. -/
theorem uint16Calls_long (h : 65535 < n) {turns : Nat} (hout : VisitsAll n (visits f (uint16Calls n id) turns s)) :
    ∃ j < 65536, ∃ x s', FailsAt f s j x s' := by
  have hnext : ∀ k, uint16Calls n id k = some (k % 65536) := fun k => uint16Calls_wraps h
  rcases hrun : visits f (uint16Calls n id) turns s with ⟨y | len, s', l⟩
  · rw [hrun] at hout
    obtain ⟨m, -, rfl, ⟨⟨len, hok⟩, -⟩ | ⟨x, hx⟩⟩ := hout
    · exact absurd hok nofun
    · obtain rfl := Except.error.inj hx
      obtain ⟨j, q, ⟨t, log⟩, hwalk, hq, hfail⟩ := loop_fails hrun
      obtain rfl : j % 65536 = q := Option.some.inj ((hnext j).symm.trans hq)
      have hlog : log = [] ++ (List.range' 0 (j - 0)).map (· % 65536) :=
        walk_log (fun k q hq => (Option.some.inj ((hnext k).symm.trans hq)).symm) hwalk
      rw [List.nil_append, Nat.sub_zero, ← List.range_eq_range'] at hlog
      obtain ⟨hf, hm⟩ := noting_fails hfail
      have hlt : j < 65536 := wraps_late (by rw [hm, hlog, List.range_succ, List.map_append, List.map_singleton])
      have hrange : log = List.range j := hlog.trans <| by
        conv => rhs; rw [← List.map_id (List.range j)]
        refine List.map_congr_left fun i hi => ?_
        have := List.mem_range.1 hi
        exact Nat.mod_eq_of_lt (by omega)
      rw [Nat.mod_eq_of_lt hlt] at hf
      rw [hrange] at hwalk
      exact ⟨j, hlt, x, s', t, hwalk.congr fun i _ hi => uint16Calls_lt (by omega) (by omega), hf⟩
  · obtain ⟨j, -, hj⟩ := loop_returns hrun
    exact absurd ((hnext j).symm.trans hj) nofun

theorem uint16Calls_iff {n : UInt32} :
    (∃ turns, VisitsAll n.toNat (visits f (uint16Calls n.toNat id) turns s)) ↔
      n.toNat ≤ 65535 ∨ ∃ j < 65536, ∃ x s', FailsAt f s j x s' := by
  constructor
  · rintro ⟨turns, h⟩
    rcases Nat.lt_or_ge 65535 n.toNat with hn | hn
    · exact .inr (uint16Calls_long hn h)
    · exact .inl hn
  · rintro (hn | ⟨j, hj, x, s', hfail⟩)
    · exact ⟨n.toNat, by rw [visits_short hn]; exact sizeCalls_all n.toNat f s⟩
    · rcases Nat.lt_or_ge 65535 n.toNat with hn | hn
      · have hout := hfail.visits (fun k hk => uint16Calls_lt (n := n.toNat) (by omega) (by omega)) hj
        exact ⟨65536, j + 1, by omega, by rw [hout], .inr ⟨x, by rw [hout]⟩⟩
      · exact ⟨n.toNat, by rw [visits_short hn]; exact sizeCalls_all n.toNat f s⟩

end

section
variable {σ τ : Type} {A : Arch} {e : Endian} {g : Table} {d : Desc} {objSize : Nat}

theorem unmarshal_fixedArray {S : Tape σ} {mem : Nat → Bool} {G : Place → Mem σ → Garbage} {p : Place} {s : Mem σ}
    (hd : g[p.desc]? = some d) (ht : d.typeId = .fixedArray) (hsize : typeSize A g d.child = .ok objSize)
    (hhave : d.absent s.writes p.region (p.addr + d.objAddr) = false) :
    ((unmarshal S A e mem G g).enter p).run s = (.ok (0, uint16Calls d.arraySize.toNat fun i =>
      ⟨d.child, p.region, p.addr + d.objAddr + objSize * i % A.sizeMod⟩), s) := by
  rw [unmarshal, unmarshalEnter_present hd hhave]
  simp only [unmarshalCase, ht, hsize]
  rfl

theorem marshal_fixedArray {S : Sink τ} {img : Image} {G : Spot → τ → Garbage} {p : Spot} {s : τ}
    (hd : g[p.desc]? = some d) (ht : d.typeId = .fixedArray) (hsize : typeSize A g d.child = .ok objSize)
    (hhave : d.absent [] .object (p.addr + d.objAddr) = false) :
    ((marshal S A e img G g).enter p).run s = (.ok (0, uint16Calls d.arraySize.toNat fun i =>
      ⟨d.child, p.addr + d.objAddr + objSize * i % A.sizeMod⟩), s) := by
  rw [marshal, marshalEnter_present hd hhave]
  simp only [marshalCase, ht, hsize]
  rfl

variable {ρ ε : Type}

/-- Whatever the calls for the elements do, the loops of the codec end at the right elements if and only if there are at
most 65535 of them, or one of the first 65536 fails. -/
theorem fixed_arrays_iff (ht : d.typeId = .fixedArray) (hsize : typeSize A g d.child = .ok objSize) :
    (∀ (S : Tape σ) (mem : Nat → Bool) (G : Place → Mem σ → Garbage) (p : Place) (s : Mem σ), g[p.desc]? = some d →
      d.absent s.writes p.region (p.addr + d.objAddr) = false →
      ((unmarshal S A e mem G g).enter p).run s = (.ok (0, uint16Calls d.arraySize.toNat fun i =>
        ⟨d.child, p.region, p.addr + d.objAddr + objSize * i % A.sizeMod⟩), s)) ∧
    (∀ (S : Sink τ) (img : Image) (G : Spot → τ → Garbage) (p : Spot) (s : τ), g[p.desc]? = some d →
      d.absent [] .object (p.addr + d.objAddr) = false →
      ((marshal S A e img G g).enter p).run s = (.ok (0, uint16Calls d.arraySize.toNat fun i =>
        ⟨d.child, p.addr + d.objAddr + objSize * i % A.sizeMod⟩), s)) ∧
    (∀ (f : Nat → Attempt ε ρ Nat) (s : ρ),
      VisitsAll d.arraySize.toNat (visits f (initFixedArray (typeSize A g d.child) d.arraySize fun _ i => i)
        d.arraySize.toNat s) ∧
      VisitsAll d.arraySize.toNat (visits f (finiFixedArray (typeSize A g d.child) d.arraySize fun _ i => i)
        d.arraySize.toNat s) ∧
      ((∃ turns, VisitsAll d.arraySize.toNat (visits f (uint16Calls d.arraySize.toNat id) turns s)) ↔
        d.arraySize.toNat ≤ 65535 ∨ ∃ j < 65536, ∃ x s', FailsAt f s j x s')) := by
  refine ⟨fun S mem G p s hd hhave => unmarshal_fixedArray hd ht hsize hhave,
    fun S img G p s hd hhave => marshal_fixedArray hd ht hsize hhave, fun f s => ⟨?_, ?_, uint16Calls_iff⟩⟩
  · rw [hsize]
    exact sizeCalls_all d.arraySize.toNat f s
  · rw [hsize]
    exact sizeCalls_all d.arraySize.toNat f s

def voids (arraySize : UInt32) : Table := [.plain .fixedArray arraySize 1, .plain .void 0 0]

theorem fixed_arrays_three : ∃ turns, VisitsAll 3
    (visits (fun _ => pure 1 : Nat → Attempt Unit Unit Nat) (uint16Calls 3 id) turns ()) :=
  ((fixed_arrays_iff (σ := Unit) (τ := Unit) (e := .little) (g := voids 3) (d := .plain .fixedArray 3 1) (A := .lp64)
    rfl rfl).2.2 (fun _ => pure 1) ()).2.2.2 (.inl (by decide))

theorem voids_spin (turns depth : Nat) (s : Mem Feed) :
    ((unmarshal Feed.tape .lp64 .little (fun _ => true) (fun _ _ => .null) (voids 65536)).call turns depth
      ⟨0, .object, 0⟩).run s = (.error .spins, s) := by
  obtain - | depth := depth
  · rfl
  · have henter := @unmarshal_fixedArray Feed .lp64 .little (voids 65536) (.plain .fixedArray 65536 1) 0 Feed.tape
      (fun _ => true) (fun _ _ => .null) ⟨0, .object, 0⟩ s rfl rfl rfl rfl
    have hlong : 65535 < (Desc.plain .fixedArray 65536 1).arraySize.toNat := by decide
    rw [call_ok henter]
    refine loop_forever (fun k => ?_) fun k q hq => ?_
    · rw [uint16Calls_wraps hlong]
      exact nofun
    · rw [uint16Calls_wraps hlong] at hq
      obtain rfl := Option.some.inj hq
      obtain - | depth := depth
      · exact .inl rfl
      · refine .inr ⟨0, ?_⟩
        rw [call_ok (show _ = (Except.ok (0, noCall), s) from rfl), loop_none rfl]
        rfl

/-- 65536 elements that take no bytes are decoded without an end. -/
theorem fixed_array_spins : ¬ ∃ turns depth,
    (((unmarshal Feed.tape .lp64 .little (fun _ => true) (fun _ _ => .null) (voids 65536)).call turns depth
      ⟨0, .object, 0⟩).run ⟨⟨[], ⟨[], 0, none⟩, []⟩, [], []⟩).1 ≠ .error .spins := by
  rintro ⟨turns, depth, h⟩
  rw [voids_spin] at h
  exact h rfl

end

end Codec
end Aosl
