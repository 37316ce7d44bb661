import Mathlib.Data.List.Perm.Subperm
import Mathlib.Tactic.Common

/-!
# What is allocated and what is freed

A computation that numbers its allocations takes the numbers from `b` up to `b'`. What a later clean-up
frees is a list of numbers, or nothing at all if the clean-up goes wrong. `Accounts freed b b' clean` says
that the clean-up frees no more than was taken, and exactly what was taken if and only if `clean` holds.

A step of a longer run takes numbers, frees some and hands others on. `Passes freed b b' old new` says that what it has
freed and what is held after it are, each once, from what was held before and what it took; so in the whole run nothing
is held twice or after it was freed (`Owned`).
-/

namespace Lib

structure Accounts (freed : Option (List Nat)) (b b' : Nat) (clean : Bool) : Prop where
  le : b ≤ b'
  fits : ∀ fs, freed = some fs → fs.Subperm (List.range' b (b' - b))
  clean : clean = true ↔ ∃ fs, freed = some fs ∧ fs.Perm (List.range' b (b' - b))

namespace Accounts
variable {x y : Option (List Nat)} {b b' b'' : Nat} {p q : Bool}

theorem none (h : b ≤ b') : Accounts none b b' false := ⟨h, nofun, by simp⟩

theorem nil : Accounts (some []) b b true := ⟨Nat.le_refl b, by simp, by simp⟩

theorem single : Accounts (some [b]) b (b + 1) true := ⟨Nat.le_succ b, by simp, by simp⟩

theorem leak : Accounts (some []) b (b + 1) false := ⟨Nat.le_succ b, by simp, by simp⟩

theorem range'_split (h : b ≤ b') (h' : b' ≤ b'') :
    List.range' b (b' - b) ++ List.range' b' (b'' - b') = List.range' b (b'' - b) := by
  have hb : b' = b + (b' - b) := by omega
  have hlen : b'' - b = (b' - b) + (b'' - b') := by omega
  rw [hlen, ← List.range'_append_1, ← hb]

/-- Two computations one after the other, cleaned up in the same order. -/
theorem append (hx : Accounts x b b' p) (hy : Accounts y b' b'' q) :
    Accounts (x.bind fun fs => y.map (fs ++ ·)) b b'' (p && q) := by
  have hle := Nat.le_trans hx.le hy.le
  have hsplit := range'_split hx.le hy.le
  refine ⟨hle, fun fs hfs => ?_, ?_⟩
  · obtain ⟨xs, hxs, hfs⟩ := Option.bind_eq_some_iff.1 hfs
    obtain ⟨ys, hys, rfl⟩ := Option.map_eq_some_iff.1 hfs
    rw [← hsplit]
    exact (hx.fits xs hxs).append (hy.fits ys hys)
  · rw [Bool.and_eq_true, hx.clean, hy.clean]
    constructor
    · rintro ⟨⟨xs, hxs, hpx⟩, ys, hys, hpy⟩
      refine ⟨xs ++ ys, by simp [hxs, hys], ?_⟩
      rw [← hsplit]
      exact hpx.append hpy
    · rintro ⟨fs, hfs, hperm⟩
      obtain ⟨xs, hxs, hfs⟩ := Option.bind_eq_some_iff.1 hfs
      obtain ⟨ys, hys, rfl⟩ := Option.map_eq_some_iff.1 hfs
      -- neither part frees more than its own, and together they free all
      have hlx := (hx.fits xs hxs).length_le
      have hly := (hy.fits ys hys).length_le
      have hlen := hperm.length_eq
      rw [← hsplit] at hlen
      simp only [List.length_append] at hlen
      exact ⟨⟨xs, hxs, (hx.fits xs hxs).perm_of_length_le (by omega)⟩,
        ys, hys, (hy.fits ys hys).perm_of_length_le (by omega)⟩

theorem block (hx : Accounts x (b + 1) b' p) : Accounts (x.map (· ++ [b])) b b' p := by
  have hall := single.append hx
  refine ⟨hall.le, fun fs hfs => ?_, ?_⟩
  · obtain ⟨xs, hxs, rfl⟩ := Option.map_eq_some_iff.1 hfs
    exact List.perm_append_comm.subperm.trans (hall.fits ([b] ++ xs) (by simp [hxs]))
  · rw [← Bool.true_and p, hall.clean]
    constructor
    · rintro ⟨fs, hfs, hperm⟩
      obtain ⟨xs, hxs, rfl⟩ := Option.map_eq_some_iff.1 hfs
      exact ⟨xs ++ [b], by simp [hxs], List.perm_append_comm.trans hperm⟩
    · rintro ⟨fs, hfs, hperm⟩
      obtain ⟨xs, hxs, rfl⟩ := Option.map_eq_some_iff.1 hfs
      exact ⟨[b] ++ xs, by simp [hxs], List.perm_append_comm.trans hperm⟩

end Accounts

structure Passes (freed : List Nat) (b b' : Nat) (old new : List Nat) : Prop where
  le : b ≤ b'
  fits : (freed ++ new).Subperm (List.range' b (b' - b) ++ old)

/-- What has been freed and what is held are numbers below `next`, each once. -/
structure Owned (freed held : List Nat) (next : Nat) : Prop where
  nodup : (freed ++ held).Nodup
  lt : ∀ b ∈ freed ++ held, b < next

namespace Passes
variable {freed old new rest old' new' : List Nat} {b b' : Nat}

theorem of_subperm (h : (freed ++ new).Subperm old) : Passes freed b b old new :=
  ⟨Nat.le_refl b, by simpa using h⟩

theorem refl : Passes [] b b old old := of_subperm (List.Subperm.refl old)

theorem frame (h : Passes freed b b' old new) : Passes freed b b' (old ++ rest) (new ++ rest) := by
  refine ⟨h.le, ?_⟩
  rw [← List.append_assoc, ← List.append_assoc]
  exact h.fits.append (List.Subperm.refl rest)

theorem perm (h : Passes freed b b' old new) (hold : old.Perm old') (hnew : new.Perm new') :
    Passes freed b b' old' new' :=
  ⟨h.le, ((hnew.append_left freed).symm.subperm.trans h.fits).trans (hold.append_left _).subperm⟩

end Passes

namespace Owned
variable {freed freed' held old new : List Nat} {b b' next : Nat}

theorem nil : Owned [] [] next := ⟨List.nodup_nil, by simp⟩

theorem not_freed (h : Owned freed held next) {b : Nat} (hb : b ∈ held) : b ∉ freed :=
  fun hf => (List.nodup_append.1 h.nodup).2.2 b hf b hb rfl

theorem step (h : Owned freed old b) (hp : Passes freed' b b' old new) : Owned (freed ++ freed') new b' := by
  have hall : ((freed ++ freed') ++ new).Subperm (List.range' b (b' - b) ++ (freed ++ old)) := by
    rw [List.append_assoc, ← List.append_assoc _ freed old]
    refine ((List.Subperm.refl freed).append hp.fits).trans ?_
    rw [← List.append_assoc]
    exact (List.perm_append_comm.append_right old).subperm
  have hnodup : (List.range' b (b' - b) ++ (freed ++ old)).Nodup := by
    refine List.nodup_append.2 ⟨List.nodup_range', h.nodup, fun k hk l hold => ?_⟩
    have hlt := h.lt l hold
    have hge := (List.mem_range'_1.1 hk).1
    omega
  refine ⟨?_, fun k hk => ?_⟩
  · obtain ⟨l, hl, hsub⟩ := hall
    exact hl.nodup_iff.1 (hnodup.sublist hsub)
  · rcases List.mem_append.1 (hall.subset hk) with hk | hk
    · have hlt := (List.mem_range'_1.1 hk).2
      have hle := hp.le
      omega
    · exact Nat.lt_of_lt_of_le (h.lt k hk) hp.le

end Owned

end Lib
