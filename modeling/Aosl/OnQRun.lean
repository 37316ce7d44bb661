import Aosl.OnQ

/-!
# What reaches the target queue

`target_argv` says what arrives through the vector. For all functions but one it is what was packed, in its order.
`aosl_mpq_connect_on_q` packs the user's arguments one slot behind the parameters and passes the number of slots without
that gap: the last argument is dropped, and with none at all `argc - 9` wraps around.

The vector is checked against `MPQ_ARGC_MAX` as the user's arguments are, so the parameters count twice; and only the
plain form of the one-shot timer looks at `expire_time`.
-/

namespace Aosl

namespace OnQReq

variable {r : OnQReq} {junk : Nat} {args : List Nat}

theorem passOn_of_le {what : OnQMade} {skip argc : Nat} {argv : List Slot} (hle : skip ≤ argc)
    (hlt : argc < 18446744073709551616) (hlen : argc ≤ argv.length) :
    passOn what skip argc argv = .made what ((argv.drop skip).take (argc - skip)) := by
  have hn : (argc + 18446744073709551616 - skip) % 18446744073709551616 = argc - skip := by omega
  unfold passOn
  simp only [hn]
  rw [if_pos (by omega)]

theorem target_fixed (r : OnQReq) (argc : Nat) (rest : List Slot) :
    r.target argc (r.fixed ++ rest) = passOn r.makes r.packAt argc (r.fixed ++ rest) := by
  cases r <;> rfl

theorem argv_eq (r : OnQReq) (junk : Nat) (args : List Nat) :
    r.argv junk args = r.fixed ++ (List.replicate (r.packAt - r.slots) (.word junk) ++ args.map .word) := by
  cases r <;> rfl

theorem length_argv (r : OnQReq) (junk : Nat) (args : List Nat) :
    (r.argv junk args).length = r.packAt + args.length := by
  cases r <;> simp [argv, fixed, packAt] <;> omega

theorem drop_argv (r : OnQReq) (junk : Nat) (args : List Nat) : (r.argv junk args).drop r.packAt = args.map .word := by
  cases r <;> rfl

theorem packAt_eq (r : OnQReq) : r.packAt = if r.isConnect then r.slots + 1 else r.slots := by
  cases r <;> rfl

/-- What arrives: the arguments, as far as the number of slots goes beyond the place where they begin. -/
theorem target_argv (hlt : r.slots + args.length ≤ argcMax) (hle : r.packAt ≤ r.slots + args.length) :
    r.target (r.slots + args.length) (r.argv junk args) =
      .made r.makes ((args.map .word).take (r.slots + args.length - r.packAt)) := by
  have hmax : argcMax = 64 := rfl
  have hpack := r.packAt_eq
  have hlen := r.length_argv junk args
  rw [argv_eq, target_fixed, ← argv_eq, passOn_of_le hle (by omega), drop_argv]
  rw [hlen, hpack]
  split <;> omega

theorem target_connect_nil (hc : r.isConnect) : r.target (r.slots + 0) (r.argv junk []) = .fault := by
  have hpack : r.packAt = 9 ∧ r.slots = 8 := by
    cases r with
    | connect => exact ⟨rfl, rfl⟩
    | _ => cases hc
  have hlen := r.length_argv junk []
  rw [argv_eq, target_fixed, ← argv_eq, passOn, hpack.1, hpack.2]
  rw [hpack.1, List.length_nil] at hlen
  exact if_neg (by omega)

theorem onQ_eq (hcheck : r.checkParams = none) (hlt : r.slots + args.length ≤ argcMax) :
    r.onQ junk args = r.target (r.slots + args.length) (r.argv junk args) := by
  have hmax : argcMax = 64 := rfl
  unfold onQ callArgv
  rw [hcheck]
  simp only
  rw [if_neg (by omega), if_neg (by omega)]

theorem onQ_rejected (hgt : argcMax < r.slots + args.length) : (r.onQ junk args).isRejected := by
  unfold onQ callArgv
  rw [if_pos hgt]
  split
  · rfl
  · split
    · rfl
    · rfl

theorem onQ_checked {err : Int} (hcheck : r.checkParams = some err) : r.onQ junk args = .rejected err ∧
    r.here args = .rejected err := by
  simp [onQ, here, hcheck]

theorem here_userArgs {a : List Slot} (h : (r.here args).userArgs = some a) : a = args.map .word := by
  unfold here at h
  split at h
  · cases h
  · split at h
    · cases h
    · split at h
      · cases h
      · exact (Option.some.inj h).symm

theorem here_made : (r.here args).isMade ↔ r.checkParams = none ∧ args.length ≤ argcMax ∧ r.expireOk := by
  unfold here
  split
  case h_1 err hcheck => simp [OnQOut.isMade, hcheck]
  case h_2 hcheck =>
    split
    case isTrue hgt => simp [OnQOut.isMade, hcheck, Nat.not_le.2 hgt]
    case isFalse hle =>
      cases hexp : r.expireOk with
      | false => simp [OnQOut.isMade]
      | true => simp [OnQOut.isMade, hcheck, Nat.not_lt.1 hle]

theorem expireOk_of_connect (hc : r.isConnect) : r.expireOk := by
  cases r with
  | connect => rfl
  | _ => cases hc

/-- The call for another queue is made, as far as it is for the arguments to say. -/
theorem onQ_made : (r.onQ junk args).isMade ↔
    r.checkParams = none ∧ r.slots + args.length ≤ argcMax ∧ (r.isConnect → args ≠ []) := by
  cases hcheck : r.checkParams with
  | some err => simp [(onQ_checked hcheck).1, OnQOut.isMade]
  | none =>
    by_cases hle : r.slots + args.length ≤ argcMax
    · rw [onQ_eq hcheck hle]
      by_cases hnil : r.isConnect ∧ args = []
      · obtain ⟨hc, rfl⟩ := hnil
        simp only [List.length_nil, target_connect_nil hc]
        simp [OnQOut.isMade, hc]
      · have hpack : r.packAt ≤ r.slots + args.length := by
          rw [packAt_eq]
          split
          case isTrue hc =>
            have := List.length_pos_iff.2 fun he => hnil ⟨hc, he⟩
            omega
          case isFalse => omega
        rw [target_argv hle hpack]
        simp only [OnQOut.isMade, true_iff]
        exact ⟨trivial, hle, fun hc he => hnil ⟨hc, he⟩⟩
    · have hrej : (r.onQ junk args).isRejected := onQ_rejected (Nat.not_le.1 hle)
      have hmade : (r.onQ junk args).isMade = false := by
        cases hout : r.onQ junk args with
        | rejected => rfl
        | fault => rfl
        | made => simp [hout, OnQOut.isRejected] at hrej
      simp [hmade, hle]

/-- For every call that the form for another queue takes: the arguments that arrive are those of the plain form if and
only if the call is not `aosl_mpq_connect_on_q`. -/
theorem on_q_args_iff (r : OnQReq) (junk : Nat) (args : List Nat) (hacc : (r.onQ junk args).isRejected = false) :
    (∀ a, (r.here args).userArgs = some a → (r.onQ junk args).userArgs = some a) ↔ r.isConnect = false := by
  have hcheck : r.checkParams = none := by
    cases hc : r.checkParams with
    | none => rfl
    | some err =>
      rw [(onQ_checked hc).1] at hacc
      cases hacc
  have hle : r.slots + args.length ≤ argcMax := by
    by_contra hgt
    have hrej : (r.onQ junk args).isRejected := onQ_rejected (Nat.not_le.1 hgt)
    rw [hacc] at hrej
    cases hrej
  rw [onQ_eq hcheck hle]
  have hpack := r.packAt_eq
  constructor
  · intro hsame
    cases hc : r.isConnect with
    | false => rfl
    | true =>
      have hlen : args.length ≤ argcMax := by omega
      have hhere : (r.here args).userArgs = some (args.map .word) := by
        rw [here, hcheck]
        simp only
        rw [if_neg (Nat.not_lt.2 hlen), if_neg (by simp [expireOk_of_connect hc])]
        rfl
      have harrive := hsame _ hhere
      rw [hc, if_pos rfl] at hpack
      cases args with
      | nil =>
        rw [List.length_nil, target_connect_nil hc] at harrive
        cases harrive
      | cons a args =>
        rw [target_argv hle (by simp [hpack])] at harrive
        have hlens := congrArg List.length (Option.some.inj harrive)
        simp only [List.length_take, List.length_map, hpack, List.length_cons] at hlens
        omega
  · intro hc a ha
    rw [here_userArgs ha]
    rw [hc, if_neg Bool.false_ne_true] at hpack
    rw [target_argv hle (by omega), hpack, Nat.add_sub_cancel_left]
    exact congrArg some (List.take_of_length_le (by simp))

theorem on_q_args_iff_stream : ((addStreamSocket 3 2048 0 1 1).onQ 7 [11, 12]).isRejected = false ∧
    ((∀ a, ((addStreamSocket 3 2048 0 1 1).here [11, 12]).userArgs = some a →
      ((addStreamSocket 3 2048 0 1 1).onQ 7 [11, 12]).userArgs = some a) ↔
      (addStreamSocket 3 2048 0 1 1).isConnect = false) :=
  ⟨by decide, on_q_args_iff _ _ _ (by decide)⟩

/-- The second of two arguments does not arrive. -/
theorem not_on_q_args : ((connect 3 9 0 2048 0 1 1).onQ 7 [11, 12]).isRejected = false ∧
    ((connect 3 9 0 2048 0 1 1).here [11, 12]).userArgs = some [.word 11, .word 12] ∧
    ((connect 3 9 0 2048 0 1 1).onQ 7 [11, 12]).userArgs = some [.word 11] := by
  decide

/-- The condition under which both forms take a call, or none does. -/
def AcceptedAlike (r : OnQReq) (args : List Nat) : Prop :=
  r.checkParams ≠ none ∨ argcMax < args.length ∨
  (r.expireOk ∧ r.slots + args.length ≤ argcMax ∧ (r.isConnect → args ≠ [])) ∨
  (r.expireOk = false ∧ argcMax < r.slots + args.length)

theorem on_q_accepted_iff (r : OnQReq) (junk : Nat) (args : List Nat) :
    ((r.onQ junk args).isMade ↔ (r.here args).isMade) ↔ r.AcceptedAlike args := by
  have hmax : argcMax = 64 := rfl
  rw [onQ_made, here_made, AcceptedAlike]
  by_cases hcheck : r.checkParams = none
  · have hconnect : r.expireOk = false → r.isConnect = false := by
      intro he
      by_contra hc
      rw [expireOk_of_connect (by simpa using hc)] at he
      cases he
    simp only [hcheck, true_and, ne_eq, not_true, false_or]
    by_cases hle : r.slots + args.length ≤ argcMax
    · have hlen : args.length ≤ argcMax := by omega
      cases he : r.expireOk with
      | true => simp [hle, hlen, Nat.not_lt.2 hlen]
      | false => simp [hle, hlen, hconnect he]
    · cases he : r.expireOk with
      | true => simp [hle]
      | false => simp [Nat.not_le.1 hle, hle]
  · simp [hcheck]

/-- An argument vector of 60 words is too long for another queue, and an `expire_time` of 0 is not refused there. -/
theorem not_on_q_accepted :
    ((setTimer 10 1 0).here (List.replicate 60 5)).isMade = true ∧
    ((setTimer 10 1 0).onQ 7 (List.replicate 60 5)).isMade = false ∧
    ((setOneshotTimer 0 1 0).here []).isMade = false ∧ ((setOneshotTimer 0 1 0).onQ 7 []).isMade = true := by
  decide

end OnQReq

end Aosl
