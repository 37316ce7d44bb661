import Aosl.Marshal

/-!
# Marshalling and unmarshalling give the same value back

`TypeInfo.value` reads an object as the value it stands for, `TypeInfo.enc` is the wire format of a
value. `marshal` appends the wire format of the object's value to its chain (`marshal_spec`), and
`unmarshal` of a chain that starts with the wire format of a value makes an object with this value out of
any object of the right shape (`unmarshal_spec`). Both go by recursion on the type.
-/

namespace Aosl

/-- The values of typed objects. -/
inductive Val where
  | null
  | bytes (bs : List UInt8)
  | some (v : Val)
  | list (vs : List Val)

namespace Cells

theorem length_of_read {n : Nat} {cells : Cells} {bs : List UInt8} (h : read n cells = some bs) :
    bs.length = n := by
  induction n generalizing cells bs with
  | zero =>
    rw [read, Option.some.injEq] at h
    rw [← h, List.length_nil]
  | succ n ih =>
    rcases cells with - | ⟨- | b, cells⟩
    · simp [read] at h
    · simp [read] at h
    · rw [read, Option.map_eq_some_iff] at h
      obtain ⟨t, ht, rfl⟩ := h
      rw [List.length_cons, ih ht]

theorem read_map_append (bs : List UInt8) (cells : Cells) :
    read bs.length (bs.map some ++ cells) = some bs := by
  induction bs with
  | nil => rfl
  | cons b bs ih => simp [read, ih]

theorem read_write {n : Nat} {bs : List UInt8} (cells : Cells) (h : bs.length = n) :
    read n (cells.write bs) = some bs := by
  rw [← h, write, read_map_append]

theorem not_mem_of_str {cells : Cells} {bs : List UInt8} (h : str cells = some bs) : 0 ∉ bs := by
  induction cells generalizing bs with
  | nil => simp [str] at h
  | cons c cells ih =>
    rcases c with - | b
    · simp [str] at h
    · rw [str] at h
      split at h
      · rw [← Option.some.inj h]
        exact List.not_mem_nil
      · next hb =>
        rw [Option.map_eq_some_iff] at h
        obtain ⟨t, ht, rfl⟩ := h
        rw [List.mem_cons, not_or]
        exact ⟨Ne.symm hb, ih ht⟩

theorem str_write {bs : List UInt8} (cells : Cells) (h : 0 ∉ bs) : str (cells.write (bs ++ [0])) = some bs := by
  rw [write]
  generalize cells.drop (bs ++ [0]).length = rest
  induction bs with
  | nil => rfl
  | cons b bs ih =>
    rw [List.mem_cons, not_or] at h
    simp only [List.cons_append, List.map_cons, str, if_neg (Ne.symm h.1)]
    rw [ih h.2]
    rfl

end Cells

theorem Endian.val_bytes (e : Endian) (v : UInt16) : e.val (e.bytes v) = v := by
  have hv : v.toNat < 65536 := v.toNat_lt
  have hsum : v.toNat % 256 + 256 * (v.toNat / 256 % 256) = v.toNat := by omega
  cases e with
  | little => simp [bytes, val, hsum]
  | big =>
    rw [Nat.add_comm] at hsum
    simp [bytes, val, hsum]

namespace TypeInfo

/-! ## Values and their wire format -/

/-- The values of the first `n` elements. -/
def valueElems (value : Obj → Option Val) : Nat → List Obj → Option (List Val)
  | 0, _ => some []
  | _ + 1, [] => none
  | n + 1, o :: os => (value o).bind fun v => (valueElems value n os).map (v :: ·)

def valueStr (max : Nat) (cells : Cells) : Option Val :=
  (Cells.str cells).bind fun bs => if bs.length + 1 ≤ max then some (.bytes bs) else none

def valueDyn (n : UInt16) (vs : Obj) : Option Val :=
  if n = 0 then some (.bytes [])
  else match vs with
    | .ptr _ (.raw cells) => (Cells.read n.toNat cells).map .bytes
    | _ => none

mutual

/-- The value of an object, if it has one within the bounds of its type. -/
def value : TypeInfo → Obj → Option Val
  | void, _ => some (.list [])
  | scalar k, .raw cells => (Cells.read k.size cells).map .bytes
  | pointer _, .null => some .null
  | pointer t, .ptr _ o => (value t o).map .some
  | reference t, o => value t o
  | string, .null => some .null
  | string, .ptr _ (.raw cells) => valueStr 65535 cells
  | struct fs, .list os => (valueFields fs os).map .list
  | fixedBytes n, .raw cells => (Cells.read n cells).map .bytes
  | varBytes max, .var (some n) (.raw cells) =>
    if n.toNat ≤ max then (Cells.read n.toNat cells).map .bytes else none
  | bytesWithNil max, .raw cells => valueStr (min max 65535) cells
  | dynamicBytes, .dyn (some n) _ vs => valueDyn n vs
  | dynamicString, .dyn (some n) _ vs => if n.toNat ≤ 65534 then valueDyn n vs else none
  | fixedArray n t, .list os => (valueElems (value t) n.toNat os).map .list
  | varArray max t, .var (some n) (.list os) =>
    if n.toNat ≤ max then (valueElems (value t) n.toNat os).map .list else none
  | dynamicArray t, .dyn (some n) _ vs =>
    if n = 0 then some (.list [])
    else match vs with
      | .ptr _ (.list os) => (valueElems (value t) n.toNat os).map .list
      | _ => none
  | _, _ => none

def valueFields : List TypeInfo → List Obj → Option (List Val)
  | [], _ => some []
  | _ :: _, [] => none
  | f :: fs, o :: os => (value f o).bind fun v => (valueFields fs os).map (v :: ·)

end

mutual

/-- The bytes of a value on the wire. -/
def enc (e : Endian) : TypeInfo → Val → List UInt8
  | scalar _, .bytes bs => bs
  | pointer _, .null => [0]
  | pointer t, .some v => [1] ++ enc e t v
  | reference t, v => enc e t v
  | string, .null => [0]
  | string, .bytes bs => [1] ++ (bs ++ [0])
  | struct fs, .list vs => encFields e fs vs
  | fixedBytes _, .bytes bs => bs
  | varBytes _, .bytes bs => e.bytes (UInt16.ofNat bs.length) ++ bs
  | bytesWithNil _, .bytes bs => bs ++ [0]
  | dynamicBytes, .bytes bs => e.bytes (UInt16.ofNat bs.length) ++ bs
  | dynamicString, .bytes bs => e.bytes (UInt16.ofNat bs.length) ++ bs
  | fixedArray _ t, .list vs => vs.flatMap (enc e t)
  | varArray _ t, .list vs => e.bytes (UInt16.ofNat vs.length) ++ vs.flatMap (enc e t)
  | dynamicArray t, .list vs => e.bytes (UInt16.ofNat vs.length) ++ vs.flatMap (enc e t)
  | _, _ => []

def encFields (e : Endian) : List TypeInfo → List Val → List UInt8
  | f :: fs, v :: vs => enc e f v ++ encFields e fs vs
  | _, _ => []

end

theorem length_of_valueElems {value : Obj → Option Val} {n : Nat} {os : List Obj} {vs : List Val}
    (h : valueElems value n os = some vs) : vs.length = n := by
  induction n generalizing os vs with
  | zero =>
    rw [valueElems, Option.some.injEq] at h
    rw [← h, List.length_nil]
  | succ n ih =>
    cases os with
    | nil => simp [valueElems] at h
    | cons o os =>
      simp only [valueElems, Option.bind_eq_some_iff, Option.map_eq_some_iff] at h
      obtain ⟨v, -, t, ht, rfl⟩ := h
      rw [List.length_cons, ih ht]

theorem valueStr_eq_some {max : Nat} {cells : Cells} {v : Val} (h : valueStr max cells = some v) :
    ∃ bs, Cells.str cells = some bs ∧ bs.length + 1 ≤ max ∧ v = .bytes bs := by
  rw [valueStr, Option.bind_eq_some_iff] at h
  obtain ⟨bs, hbs, h⟩ := h
  split at h
  · next hle => exact ⟨bs, hbs, hle, (Option.some.inj h).symm⟩
  · exact absurd h nofun

theorem valueStr_write {max : Nat} {bs : List UInt8} (cells : Cells) (hz : 0 ∉ bs) (hle : bs.length + 1 ≤ max) :
    valueStr max (cells.write (bs ++ [0])) = some (.bytes bs) := by
  rw [valueStr, Cells.str_write cells hz, Option.bind_some, if_pos hle]

theorem valueDyn_eq_some {n : UInt16} {vs : Obj} {v : Val} (h : valueDyn n vs = some v) :
    ∃ bs, bs.length = n.toNat ∧ v = .bytes bs ∧
      (n = 0 ∨ 0 < n ∧ ∃ b cells, vs = .ptr b (.raw cells) ∧ Cells.read n.toNat cells = some bs) := by
  unfold valueDyn at h
  split at h
  · next h0 => exact ⟨[], by simp [h0], (Option.some.inj h).symm, .inl h0⟩
  · next h0 =>
    split at h
    · next b cells =>
      rw [Option.map_eq_some_iff] at h
      obtain ⟨bs, hbs, rfl⟩ := h
      exact ⟨bs, Cells.length_of_read hbs, rfl, .inr ⟨UInt16.pos_iff_ne_zero.2 h0, b, cells, rfl, hbs⟩⟩
    · exact absurd h nofun

section
variable {o : Obj} {v : Val} {t : TypeInfo}

theorem value_scalar {k : Scalar} (h : value (scalar k) o = some v) :
    ∃ cells bs, o = .raw cells ∧ Cells.read k.size cells = some bs ∧ v = .bytes bs := by
  match o, h with
  | .raw cells, h =>
    obtain ⟨bs, hbs, rfl⟩ := Option.map_eq_some_iff.1 h
    exact ⟨cells, bs, rfl, hbs, rfl⟩

theorem value_pointer (h : value (pointer t) o = some v) :
    o = .null ∧ v = .null ∨ ∃ b o' v', o = .ptr b o' ∧ value t o' = some v' ∧ v = .some v' := by
  match o, h with
  | .null, h => exact .inl ⟨rfl, (Option.some.inj h).symm⟩
  | .ptr b o, h =>
    obtain ⟨v', hv, rfl⟩ := Option.map_eq_some_iff.1 h
    exact .inr ⟨b, o, v', rfl, hv, rfl⟩

theorem value_string (h : value string o = some v) :
    o = .null ∧ v = .null ∨ ∃ b cells bs, o = .ptr b (.raw cells) ∧ Cells.str cells = some bs ∧
      bs.length + 1 ≤ 65535 ∧ v = .bytes bs := by
  match o, h with
  | .null, h => exact .inl ⟨rfl, (Option.some.inj h).symm⟩
  | .ptr b (.raw cells), h =>
    obtain ⟨bs, hbs, hle, rfl⟩ := valueStr_eq_some h
    exact .inr ⟨b, cells, bs, rfl, hbs, hle, rfl⟩

theorem value_struct {fs : List TypeInfo} (h : value (struct fs) o = some v) :
    ∃ os vs, o = .list os ∧ valueFields fs os = some vs ∧ v = .list vs := by
  match o, h with
  | .list os, h =>
    obtain ⟨vs, hvs, rfl⟩ := Option.map_eq_some_iff.1 h
    exact ⟨os, vs, rfl, hvs, rfl⟩

theorem value_fixedBytes {n : Nat} (h : value (fixedBytes n) o = some v) :
    ∃ cells bs, o = .raw cells ∧ Cells.read n cells = some bs ∧ v = .bytes bs := by
  match o, h with
  | .raw cells, h =>
    obtain ⟨bs, hbs, rfl⟩ := Option.map_eq_some_iff.1 h
    exact ⟨cells, bs, rfl, hbs, rfl⟩

theorem value_varBytes {max : Nat} (h : value (varBytes max) o = some v) :
    ∃ n cells bs, o = .var (some n) (.raw cells) ∧ n.toNat ≤ max ∧ Cells.read n.toNat cells = some bs ∧
      v = .bytes bs := by
  match o, h with
  | .var (some n) (.raw cells), h =>
    obtain ⟨hle, h⟩ := Option.ite_none_right_eq_some.1 h
    obtain ⟨bs, hbs, rfl⟩ := Option.map_eq_some_iff.1 h
    exact ⟨n, cells, bs, rfl, hle, hbs, rfl⟩

theorem value_bytesWithNil {max : Nat} (h : value (bytesWithNil max) o = some v) :
    ∃ cells bs, o = .raw cells ∧ Cells.str cells = some bs ∧ bs.length + 1 ≤ min max 65535 ∧ v = .bytes bs := by
  match o, h with
  | .raw cells, h =>
    obtain ⟨bs, hbs, hle, rfl⟩ := valueStr_eq_some h
    exact ⟨cells, bs, rfl, hbs, hle, rfl⟩

theorem value_dynamicBytes (h : value dynamicBytes o = some v) :
    ∃ n a vs, o = .dyn (some n) a vs ∧ valueDyn n vs = some v := by
  match o, h with
  | .dyn (some n) a vs, h => exact ⟨n, a, vs, rfl, h⟩

theorem value_dynamicString (h : value dynamicString o = some v) :
    ∃ n a vs, o = .dyn (some n) a vs ∧ n.toNat ≤ 65534 ∧ valueDyn n vs = some v := by
  match o, h with
  | .dyn (some n) a vs, h =>
    exact ⟨n, a, vs, rfl, Option.ite_none_right_eq_some.1 h⟩

theorem value_fixedArray {n : UInt16} (h : value (fixedArray n t) o = some v) :
    ∃ os vs, o = .list os ∧ valueElems (value t) n.toNat os = some vs ∧ v = .list vs := by
  match o, h with
  | .list os, h =>
    obtain ⟨vs, hvs, rfl⟩ := Option.map_eq_some_iff.1 h
    exact ⟨os, vs, rfl, hvs, rfl⟩

theorem value_varArray {max : Nat} (h : value (varArray max t) o = some v) :
    ∃ n os vs, o = .var (some n) (.list os) ∧ n.toNat ≤ max ∧ valueElems (value t) n.toNat os = some vs ∧
      v = .list vs := by
  match o, h with
  | .var (some n) (.list os), h =>
    obtain ⟨hle, h⟩ := Option.ite_none_right_eq_some.1 h
    obtain ⟨vs, hvs, rfl⟩ := Option.map_eq_some_iff.1 h
    exact ⟨n, os, vs, rfl, hle, hvs, rfl⟩

theorem value_dynamicArray (h : value (dynamicArray t) o = some v) :
    ∃ n a vs, o = .dyn (some n) a vs ∧ (n = 0 ∧ v = .list [] ∨ 0 < n ∧ ∃ b os vals, vs = .ptr b (.list os) ∧
      valueElems (value t) n.toNat os = some vals ∧ v = .list vals) := by
  match o, h with
  | .dyn (some n) a vs, h =>
    refine ⟨n, a, vs, rfl, ?_⟩
    unfold value at h
    split at h
    · next h0 => exact .inl ⟨h0, (Option.some.inj h).symm⟩
    · next h0 =>
      split at h
      · next b os =>
        rw [Option.map_eq_some_iff] at h
        obtain ⟨vals, hvals, rfl⟩ := h
        exact .inr ⟨UInt16.pos_iff_ne_zero.2 h0, b, os, vals, rfl, hvals, rfl⟩
      · exact absurd h nofun

end

/-! ## Marshalling appends the wire format -/

/-- `f` appends `bs` to what a chain holds. -/
def Appends (f : Writer → Except Err (Nat × Writer)) (bs : List UInt8) : Prop :=
  ∀ pre acc w, Writer.Holds pre acc w → ∃ w', f w = .ok (bs.length, w') ∧ w'.Holds pre (acc ++ bs)

theorem Appends.base {f g : Writer → Except Err (Nat × Writer)} {bs xs : List UInt8} {n : Nat}
    (hf : Appends f bs) (hn : xs.length = n)
    (hg : ∀ w, g w = (f (w.encodeBase xs)).map fun (l, w) => (n + l, w)) : Appends g (xs ++ bs) := by
  intro pre acc w hw
  obtain ⟨w', hw', hh⟩ := hf pre _ _ (hw.encodeBase xs)
  refine ⟨w', ?_, List.append_assoc acc xs bs ▸ hh⟩
  rw [hg, hw', List.length_append, hn]
  rfl

theorem Appends.append {f g h : Writer → Except Err (Nat × Writer)} {xs ys : List UInt8}
    (hf : Appends f xs) (hg : Appends g ys)
    (hh : ∀ w, h w = do let (l, w) ← f w; let (l', w) ← g w; return (l + l', w)) : Appends h (xs ++ ys) := by
  intro pre acc w hw
  obtain ⟨w₁, hw₁, hh₁⟩ := hf pre acc w hw
  obtain ⟨w₂, hw₂, hh₂⟩ := hg pre _ w₁ hh₁
  refine ⟨w₂, ?_, List.append_assoc acc xs ys ▸ hh₂⟩
  rw [hh, hw₁, List.length_append]
  simp only [bind, Except.bind, hw₂]
  rfl

theorem appends_nil : Appends (fun w => .ok (0, w)) [] :=
  fun _ acc w hw => ⟨w, rfl, (List.append_nil acc).symm ▸ hw⟩

theorem appends_base {n : Nat} (xs : List UInt8) (hn : xs.length = n) :
    Appends (fun w => .ok (n, w.encodeBase xs)) xs :=
  fun _ _ _ hw => ⟨_, by rw [hn], hw.encodeBase xs⟩

theorem appends_bytes {n : Nat} (xs : List UInt8) (hn : xs.length = n) :
    Appends (fun w => .ok (n, w.encodeBytes xs)) xs :=
  fun _ _ _ hw => ⟨_, by rw [hn], hw.encodeBytes xs⟩

theorem marshalStr_spec {cells : Cells} {bs : List UInt8} {max : Nat} (hbs : Cells.str cells = some bs)
    (hmax : bs.length + 1 ≤ max) (h16 : bs.length + 1 ≤ 65535) : Appends (marshalStr cells max) (bs ++ [0]) := by
  have hval : (bs.length + 1) % 65536 = (bs ++ [0]).length := by
    rw [List.length_append]
    exact Nat.mod_eq_of_lt (by omega)
  have hle : ¬ (bs ++ [0]).length > max := by
    rw [List.length_append]
    exact Nat.not_lt.2 hmax
  intro pre acc w hw
  refine ⟨w.encodeBytes (bs ++ [0]), ?_, hw.encodeBytes _⟩
  simp only [marshalStr, hbs, orFault, bind, Except.bind, hval, if_neg hle, List.take_length]
  rfl

theorem marshalBytes_spec {e : Endian} {n : UInt16} {cells : Cells} {bs : List UInt8}
    (hbs : Cells.read n.toNat cells = some bs) :
    Appends (marshalBytes e n cells) (e.bytes (UInt16.ofNat bs.length) ++ bs) := by
  have hn := Cells.length_of_read hbs
  refine (appends_bytes bs hn).base (e.length_bytes _) fun w => ?_
  rw [marshalBytes, hbs, hn, UInt16.ofNat_toNat]
  rfl

theorem marshalDyn_spec {e : Endian} {n : UInt16} {vs : Obj} {v : Val} (h : valueDyn n vs = some v) :
    ∃ bs, v = .bytes bs ∧ Appends (marshal.marshalDyn e n vs) (e.bytes (UInt16.ofNat bs.length) ++ bs) := by
  obtain ⟨bs, hlen, rfl, rfl | ⟨hpos, b, cells, rfl, hbs⟩⟩ := valueDyn_eq_some h
  · obtain rfl : bs = [] := List.eq_nil_of_length_eq_zero hlen
    refine ⟨[], rfl, ?_⟩
    rw [List.append_nil]
    exact appends_base _ (e.length_bytes _)
  · have heq : marshal.marshalDyn e n (.ptr b (.raw cells)) = marshalBytes e n cells := by
      funext w
      rw [marshal.marshalDyn, if_pos hpos]
    exact ⟨bs, rfl, heq ▸ marshalBytes_spec hbs⟩

theorem marshalElems_spec {e : Endian} {t : TypeInfo}
    (ht : ∀ o v, value t o = some v → Appends (marshal e t o) (enc e t v)) {n : Nat} {os : List Obj}
    {vs : List Val} (h : valueElems (value t) n os = some vs) :
    Appends (marshalElems (marshal e t) n os) (vs.flatMap (enc e t)) := by
  induction n generalizing os vs with
  | zero =>
    rw [valueElems, Option.some.injEq] at h
    subst h
    exact appends_nil
  | succ n ih =>
    cases os with
    | nil => simp [valueElems] at h
    | cons o os =>
      simp only [valueElems, Option.bind_eq_some_iff, Option.map_eq_some_iff] at h
      obtain ⟨v, hv, vs, hvs, rfl⟩ := h
      exact (ht o v hv).append (ih hvs) fun _ => rfl

mutual

theorem marshal_spec (e : Endian) : ∀ (t : TypeInfo) (o : Obj) (v : Val), value t o = some v →
    Appends (marshal e t o) (enc e t v)
  | void, o, v, h => by
    simp only [value, Option.some.injEq] at h
    subst h
    exact appends_nil
  | scalar k, o, v, h => by
    obtain ⟨cells, bs, rfl, hbs, rfl⟩ := value_scalar h
    have heq : marshal e (scalar k) (.raw cells) = fun w => .ok (k.size, w.encodeBase bs) := by
      funext w
      rw [marshal, hbs]
      rfl
    exact heq ▸ appends_base bs (Cells.length_of_read hbs)
  | pointer t, o, v, h => by
    rcases value_pointer h with ⟨rfl, rfl⟩ | ⟨b, o, v, rfl, hv, rfl⟩
    · exact appends_base [0] rfl
    · exact (marshal_spec e t o v hv).base rfl fun w => rfl
  | reference t, o, v, h => by
    simp only [value] at h
    exact marshal_spec e t o v h
  | string, o, v, h => by
    rcases value_string h with ⟨rfl, rfl⟩ | ⟨b, cells, bs, rfl, hbs, hle, rfl⟩
    · exact appends_base [0] rfl
    · exact (marshalStr_spec hbs hle hle).base rfl fun w => rfl
  | struct fs, o, v, h => by
    obtain ⟨os, vs, rfl, hvs, rfl⟩ := value_struct h
    exact marshalFields_spec e fs os vs hvs
  | fixedBytes n, o, v, h => by
    obtain ⟨cells, bs, rfl, hbs, rfl⟩ := value_fixedBytes h
    have heq : marshal e (fixedBytes n) (.raw cells) = fun w => .ok (n, w.encodeBytes bs) := by
      funext w
      rw [marshal, hbs]
      rfl
    exact heq ▸ appends_bytes bs (Cells.length_of_read hbs)
  | varBytes max, o, v, h => by
    obtain ⟨n, cells, bs, rfl, -, hbs, rfl⟩ := value_varBytes h
    exact marshalBytes_spec hbs
  | bytesWithNil max, o, v, h => by
    obtain ⟨cells, bs, rfl, hbs, hle, rfl⟩ := value_bytesWithNil h
    exact marshalStr_spec hbs (by omega) (by omega)
  | dynamicBytes, o, v, h => by
    obtain ⟨n, a, vs, rfl, hv⟩ := value_dynamicBytes h
    obtain ⟨bs, rfl, happ⟩ := marshalDyn_spec hv
    exact happ
  | dynamicString, o, v, h => by
    obtain ⟨n, a, vs, rfl, -, hv⟩ := value_dynamicString h
    obtain ⟨bs, rfl, happ⟩ := marshalDyn_spec hv
    exact happ
  | fixedArray n t, o, v, h => by
    obtain ⟨os, vs, rfl, hvs, rfl⟩ := value_fixedArray h
    exact marshalElems_spec (marshal_spec e t) hvs
  | varArray max t, o, v, h => by
    obtain ⟨n, os, vs, rfl, -, hvs, rfl⟩ := value_varArray h
    refine (marshalElems_spec (marshal_spec e t) hvs).base (e.length_bytes _) fun w => ?_
    rw [length_of_valueElems hvs, UInt16.ofNat_toNat]
    rfl
  | dynamicArray t, o, v, h => by
    obtain ⟨n, a, vs, rfl, ⟨rfl, rfl⟩ | ⟨hpos, b, os, vals, rfl, hvals, rfl⟩⟩ := value_dynamicArray h
    · exact appends_nil.base (e.length_bytes 0) fun w => rfl
    · refine (marshalElems_spec (marshal_spec e t) hvals).base (e.length_bytes _) fun w => ?_
      rw [length_of_valueElems hvals, UInt16.ofNat_toNat, marshal, if_pos hpos]
      rfl

theorem marshalFields_spec (e : Endian) : ∀ (fs : List TypeInfo) (os : List Obj) (vs : List Val),
    valueFields fs os = some vs → Appends (marshalFields e fs os) (encFields e fs vs)
  | [], os, vs, h => by
    simp only [valueFields, Option.some.injEq] at h
    subst h
    exact appends_nil
  | _ :: _, [], vs, h => by simp [valueFields] at h
  | f :: fs, o :: os, vs, h => by
    simp only [valueFields, Option.bind_eq_some_iff, Option.map_eq_some_iff] at h
    obtain ⟨v, hv, vs, hvs, rfl⟩ := h
    exact (marshal_spec e f o v hv).append (marshalFields_spec e fs os vs hvs) fun _ => rfl

end

/-! ## Unmarshalling takes it off again -/

/-- `f` takes `bs` off a chain, reports `l` bytes and leaves what meets `P`. -/
def Takes {α : Type} (f : Chain → Nat → Out α) (l : Nat) (bs : List UInt8) (P : α → Prop) : Prop :=
  ∀ m c extra b, Chain.Readable (bs.length + m) c → c.contents = bs ++ extra →
    ∃ c' o b', f c b = ⟨.ok (l, c'), o, b'⟩ ∧ P o ∧ c'.contents = extra ∧ c'.Readable m

section
variable {α β : Type} {f g : Chain → Nat → Out α} {l k : Nat} {bs xs : List UInt8} {P : α → Prop} {Q : β → Prop}

theorem takes_nil {a : α} (ha : P a) : Takes (fun c b => ⟨.ok (0, c), a, b⟩) 0 [] P := by
  intro m c extra b hc hcont
  rw [List.length_nil, Nat.zero_add] at hc
  exact ⟨c, a, b, rfl, ha, hcont, hc⟩

theorem Takes.map (hf : Takes f l bs P) (h : α → β) (hP : ∀ a, P a → Q (h a)) :
    Takes (fun c b => (f c b).map h) l bs Q := by
  intro m c extra b hc hcont
  obtain ⟨c', o, b', heq, ho, hcont', hc'⟩ := hf m c extra b hc hcont
  exact ⟨c', h o, b', by simp only [heq]; rfl, hP o ho, hcont', hc'⟩

theorem Takes.base {n : Nat} {g : Chain → Nat → Out β} (hg : Takes g l bs Q) (hn : xs.length = n)
    (hf : ∀ c c' b m extra, c.decodeBase n = some (xs, c') → c'.Readable (bs.length + m) →
      c'.contents = bs ++ extra →
      ∃ b' h, f c b = ((g c' b').addLen n).map h ∧ ∀ a, Q a → P (h a)) : Takes f (n + l) (xs ++ bs) P := by
  intro m c extra b hc hcont
  rw [List.append_assoc] at hcont
  rw [List.length_append, hn, Nat.add_assoc] at hc
  obtain ⟨c₁, hdec, hcont₁, hc₁⟩ := Chain.decodeBase_spec hc hcont hn
  obtain ⟨b₁, h, hfg, hQ⟩ := hf c c₁ b m extra hdec hc₁ hcont₁
  obtain ⟨c', o, b', heq, ho, hcont', hc'⟩ := hg m c₁ extra b₁ hc₁ hcont₁
  exact ⟨c', h o, b', by rw [hfg, heq]; rfl, hQ o ho, hcont', hc'⟩

theorem takes_base {n : Nat} (hn : xs.length = n)
    (hf : ∀ c c' b, c.decodeBase n = some (xs, c') → ∃ a, f c b = ⟨.ok (n, c'), a, b⟩ ∧ P a) :
    Takes f n xs P := by
  intro m c extra b hc hcont
  rw [hn] at hc
  obtain ⟨c', hdec, hcont', hc'⟩ := Chain.decodeBase_spec hc hcont hn
  obtain ⟨a, heq, ha⟩ := hf c c' b hdec
  exact ⟨c', a, b, heq, ha, hcont', hc'⟩

theorem Takes.cons {h : Chain → Nat → Out (List α)} {Q R : List α → Prop} {ys : List UInt8}
    (hf : Takes f l bs P) (hh : Takes h k ys Q) (os : List α) (hR : ∀ a as, P a → Q as → R (a :: as)) :
    Takes (fun c b => (f c b).cons os h) (l + k) (bs ++ ys) R := by
  intro m c extra b hc hcont
  rw [List.append_assoc] at hcont
  rw [List.length_append, Nat.add_assoc] at hc
  obtain ⟨c₁, o, b₁, heq, ho, hcont₁, hc₁⟩ := hf _ c _ b hc hcont
  obtain ⟨c', os', b', heq', hos, hcont', hc'⟩ := hh m c₁ extra b₁ hc₁ hcont₁
  refine ⟨c', o :: os', b', ?_, hR o os' ho hos, hcont', hc'⟩
  simp only [Out.cons, heq, heq']
  rfl

theorem takes_bytes {n : Nat} (cells : Cells) (hn : bs.length = n) :
    Takes (unmarshalBytes n cells) n bs (· = cells.write bs) := by
  intro m c extra b hc hcont
  rw [hn] at hc
  obtain ⟨c', hdec, hcont', hc'⟩ := Chain.decodeBytes_spec hc hcont hn
  exact ⟨c', _, b, by rw [unmarshalBytes, hdec], rfl, hcont', hc'⟩

end

/-! ### The objects that can be unmarshalled into -/

mutual

/-- The object is laid out as its type says, whatever was written to it. -/
def Shaped : TypeInfo → Obj → Prop
  | void, _ | scalar _, _ | pointer _, _ | string, _ => True
  | reference t, o => Shaped t o
  | struct fs, .list os => ShapedAll fs os
  | fixedBytes _, .raw _ | varBytes _, .var _ (.raw _) | bytesWithNil _, .raw _ => True
  | dynamicBytes, .dyn _ _ _ | dynamicString, .dyn _ _ _ | dynamicArray _, .dyn _ _ _ => True
  | fixedArray n t, .list os => n.toNat ≤ os.length ∧ ∀ o ∈ os, Shaped t o
  | varArray max t, .var _ (.list os) => max ≤ os.length ∧ ∀ o ∈ os, Shaped t o
  | _, _ => False

def ShapedAll : List TypeInfo → List Obj → Prop
  | [], _ => True
  | _ :: _, [] => False
  | f :: fs, o :: os => Shaped f o ∧ ShapedAll fs os

end

mutual

theorem shaped_uninit : ∀ t : TypeInfo, Shaped t (uninit t)
  | void | scalar _ | pointer _ | string | fixedBytes _ | varBytes _ | bytesWithNil _ | dynamicBytes
  | dynamicString | dynamicArray _ => trivial
  | reference t => shaped_uninit t
  | struct fs => shapedAll_uninits fs
  | fixedArray n t =>
    ⟨by simp, fun o ho => (List.eq_of_mem_replicate ho) ▸ shaped_uninit t⟩
  | varArray max t =>
    ⟨by simp, fun o ho => (List.eq_of_mem_replicate ho) ▸ shaped_uninit t⟩

theorem shapedAll_uninits : ∀ fs : List TypeInfo, ShapedAll fs (uninits fs)
  | [] => trivial
  | f :: fs => ⟨shaped_uninit f, shapedAll_uninits fs⟩

end

mutual

theorem Shaped.init : ∀ (t : TypeInfo) (o : Obj), Shaped t o → Shaped t (initTypedObj t o)
  | void, _, _ | scalar _, _, _ | pointer _, _, _ | string, _, _ => trivial
  | reference t, o, h => Shaped.init t o h
  | struct fs, .list os, h => ShapedAll.init fs os h
  | fixedBytes _, .raw _, _ | varBytes _, .var _ (.raw _), _ | bytesWithNil _, .raw _, _ => trivial
  | dynamicBytes, .dyn _ _ _, _ | dynamicString, .dyn _ _ _, _ | dynamicArray _, .dyn _ _ _, _ => trivial
  | fixedArray n t, .list os, ⟨hn, hos⟩ => by
    refine ⟨by simpa using hn, fun o ho => ?_⟩
    obtain ⟨o', ho', rfl⟩ := List.mem_map.1 ho
    exact Shaped.init t o' (hos o' ho')
  | varArray _ _, .var _ (.list _), h => h

theorem ShapedAll.init : ∀ (fs : List TypeInfo) (os : List Obj), ShapedAll fs os → ShapedAll fs (initFields fs os)
  | [], _, _ => trivial
  | f :: fs, o :: os, ⟨ho, hos⟩ => ⟨Shaped.init f o ho, ShapedAll.init fs os hos⟩

end

theorem unmarshalElems_spec {e : Endian} {mem : Nat → Bool} {t : TypeInfo}
    (ht : ∀ o v, value t o = some v → ∀ o₀, Shaped t o₀ →
      Takes (unmarshal e mem t o₀) (enc e t v).length (enc e t v) (fun o' => value t o' = some v))
    {n : Nat} {os : List Obj} {vs : List Val} (h : valueElems (value t) n os = some vs) (os₀ : List Obj)
    (hn : n ≤ os₀.length) (hos : ∀ o ∈ os₀, Shaped t o) :
    Takes (unmarshalElems (unmarshal e mem t) n os₀) (vs.flatMap (enc e t)).length (vs.flatMap (enc e t))
      (fun os' => valueElems (value t) n os' = some vs) := by
  induction n generalizing os os₀ vs with
  | zero =>
    rw [valueElems, Option.some.injEq] at h
    subst h
    exact takes_nil rfl
  | succ n ih =>
    rcases os with - | ⟨o, os⟩
    · simp [valueElems] at h
    · rcases os₀ with - | ⟨o₀, os₀⟩
      · simp at hn
      · simp only [valueElems, Option.bind_eq_some_iff, Option.map_eq_some_iff] at h
        obtain ⟨v, hv, vs, hvs, rfl⟩ := h
        have hhead := ht o v hv o₀ (hos o₀ (List.mem_cons_self ..))
        have htail := ih hvs os₀ (Nat.le_of_succ_le_succ hn) fun o ho => hos o (List.mem_cons_of_mem _ ho)
        rw [List.flatMap_cons, List.length_append]
        refine hhead.cons htail os₀ fun o' os' ho' hos' => ?_
        simp [valueElems, ho', hos']

theorem unmarshalDyn_spec {e : Endian} {mem : Nat → Bool} (hmem : ∀ b, mem b = true) {nul : Nat} {n : UInt16}
    {bs : List UInt8} (hlen : bs.length = n.toNat) (n₀ a₀ : Option UInt16) (vs₀ : Obj) :
    Takes (unmarshalDyn e mem nul n₀ a₀ vs₀) (2 + n.toNat) (e.bytes n ++ bs)
      (fun o => ∃ a vs, o = .dyn (some n) a vs ∧ valueDyn n vs = some (.bytes bs)) := by
  by_cases h0 : n.toNat + nul = 0
  · obtain rfl : n = 0 := UInt16.toNat_inj.1 (by simpa using (Nat.add_eq_zero_iff.1 h0).1)
    obtain rfl : bs = [] := List.eq_nil_of_length_eq_zero hlen
    rw [List.append_nil]
    refine takes_base (n := 2) (e.length_bytes 0) fun c c' b hdec =>
      ⟨.dyn (some 0) (some (0 + UInt16.ofNat nul)) vs₀, ?_, _, vs₀, rfl, rfl⟩
    simp only [unmarshalDyn, hdec, e.val_bytes, if_pos h0]
  · intro m c extra b hc hcont
    rw [List.append_assoc] at hcont
    rw [List.length_append, e.length_bytes, Nat.add_assoc] at hc
    obtain ⟨c₁, hdec, hcont₁, hc₁⟩ := Chain.decodeBase_spec hc hcont (e.length_bytes n)
    obtain ⟨c', cells, b', heq, rfl, hcont', hc'⟩ :=
      takes_bytes (List.replicate (n.toNat + nul) none) hlen m c₁ extra (b + 1) hc₁ hcont₁
    have htake : (Cells.write (List.replicate (n.toNat + nul) none) bs).take n.toNat = bs.map some :=
      List.take_left' (by rw [List.length_map, hlen])
    refine ⟨c', .dyn (some n) (some (n + UInt16.ofNat nul))
      (.ptr b (.raw (bs.map some ++ List.replicate nul (some 0)))), b', ?_, ⟨_, _, rfl, ?_⟩, hcont', hc'⟩
    · simp only [unmarshalDyn, hdec, e.val_bytes, if_neg h0, hmem, if_true, heq, htake]
      rfl
    · have hread := Cells.read_map_append bs (List.replicate nul (some 0))
      rw [hlen] at hread
      unfold valueDyn
      split
      · next hn =>
        rw [hn] at hlen
        rw [List.eq_nil_of_length_eq_zero hlen]
      · simp only [hread]
        rfl

mutual

theorem unmarshal_spec (e : Endian) (mem : Nat → Bool) (hmem : ∀ b, mem b = true) :
    ∀ (t : TypeInfo) (o : Obj) (v : Val), value t o = some v → ∀ o₀, Shaped t o₀ →
      Takes (unmarshal e mem t o₀) (enc e t v).length (enc e t v) (fun o' => value t o' = some v)
  | void, o, v, h, o₀, _ => by
    simp only [value, Option.some.injEq] at h
    subst h
    exact takes_nil rfl
  | scalar k, o, v, h, o₀, _ => by
    obtain ⟨cells, bs, rfl, hbs, rfl⟩ := value_scalar h
    have hlen := Cells.length_of_read hbs
    rw [enc, hlen]
    refine takes_base hlen fun c c' b hdec => ⟨.raw (bs.map some), ?_, ?_⟩
    · simp only [unmarshal, hdec]
    · have hread := Cells.read_map_append bs []
      rw [List.append_nil, hlen] at hread
      simp [value, hread]
  | pointer t, o, v, h, o₀, _ => by
    rcases value_pointer h with ⟨rfl, rfl⟩ | ⟨b, o, v, rfl, hv, rfl⟩
    · rw [enc]
      refine takes_base (n := 1) rfl fun c c' b hdec => ⟨.null, ?_, rfl⟩
      simp only [unmarshal, hdec, if_true]
    · rw [enc, List.length_append]
      refine (unmarshal_spec e mem hmem t o v hv (uninit t) (shaped_uninit t)).base (n := 1) rfl
        fun c c' b m extra hdec _ _ => ⟨b + 1, .ptr b, ?_, fun o' ho' => ?_⟩
      · simp only [unmarshal, hdec, hmem, if_true]
        rfl
      · simp [value, ho']
  | reference t, o, v, h, o₀, h₀ => by
    simp only [value] at h
    exact unmarshal_spec e mem hmem t o v h o₀ h₀
  | string, o, v, h, o₀, _ => by
    rcases value_string h with ⟨rfl, rfl⟩ | ⟨b, cells, bs, rfl, hbs, hle, rfl⟩
    · rw [enc]
      refine takes_base (n := 1) rfl fun c c' b hdec => ⟨.null, ?_, rfl⟩
      simp only [unmarshal, hdec, if_true]
    · have hz := Cells.not_mem_of_str hbs
      have hlen : (bs ++ [0]).length = bs.length + 1 := List.length_append
      rw [enc, List.length_append, hlen]
      refine (takes_bytes (List.replicate (bs.length + 1) none) hlen).base (n := 1) rfl
        fun c c' b m extra hdec hread hcont => ⟨b + 1, fun cells => Obj.ptr b (.raw cells), ?_, ?_⟩
      · have hstr : c'.safeStrsize = .ok (bs.length + 1) :=
          Chain.safeStrsize_spec hz (hlen ▸ hread) (by simpa using hcont)
        have hval : (bs.length + 1) % 65536 = bs.length + 1 := Nat.mod_eq_of_lt (by omega)
        simp only [unmarshal, hdec, hstr, hmem, hval, if_true]
        rfl
      · rintro - rfl
        exact valueStr_write _ hz hle
  | struct fs, o, v, h, .list os₀, h₀ => by
    obtain ⟨os, vs, rfl, hvs, rfl⟩ := value_struct h
    rw [enc]
    refine (unmarshalFields_spec e mem hmem fs os vs hvs os₀ h₀).map Obj.list fun os' hos' => ?_
    simp [value, hos']
  | fixedBytes n, o, v, h, .raw cells₀, _ => by
    obtain ⟨cells, bs, rfl, hbs, rfl⟩ := value_fixedBytes h
    have hlen := Cells.length_of_read hbs
    rw [enc, hlen]
    refine (takes_bytes cells₀ hlen).map Obj.raw ?_
    rintro - rfl
    simp [value, Cells.read_write cells₀ hlen]
  | varBytes max, o, v, h, .var n₀ (.raw cells₀), _ => by
    obtain ⟨n, cells, bs, rfl, hle, hbs, rfl⟩ := value_varBytes h
    have hlen := Cells.length_of_read hbs
    rw [enc, hlen, UInt16.ofNat_toNat, List.length_append, e.length_bytes, hlen]
    refine (takes_bytes cells₀ hlen).base (e.length_bytes n)
      fun c c' b m extra hdec _ _ => ⟨b, fun cells => .var (some n) (.raw cells), ?_, ?_⟩
    · simp only [unmarshal, hdec, e.val_bytes, if_neg (Nat.not_lt.2 hle)]
    · rintro - rfl
      simp [value, hle, Cells.read_write cells₀ hlen]
  | bytesWithNil max, o, v, h, .raw cells₀, _ => by
    obtain ⟨cells, bs, rfl, hbs, hle, rfl⟩ := value_bytesWithNil h
    have hz := Cells.not_mem_of_str hbs
    have hlen : (bs ++ [0]).length = bs.length + 1 := List.length_append
    have hval : (bs.length + 1) % 65536 = bs.length + 1 := Nat.mod_eq_of_lt (by omega)
    have hmax : ¬ bs.length + 1 > max := by omega
    rw [enc, hlen]
    intro m c extra b hread hcont
    have hstr : c.safeStrsize = .ok (bs.length + 1) :=
      Chain.safeStrsize_spec hz (hlen ▸ hread) (by simpa using hcont)
    obtain ⟨c', cells, b', heq, rfl, hcont', hc'⟩ := takes_bytes cells₀ hlen m c extra b hread hcont
    refine ⟨c', .raw (Cells.write cells₀ (bs ++ [0])), b', ?_, valueStr_write _ hz hle, hcont', hc'⟩
    simp only [unmarshal, hstr, hval, if_neg hmax, heq]
    rfl
  | dynamicBytes, o, v, h, .dyn n₀ a₀ vs₀, _ => by
    obtain ⟨n, a, vs, rfl, hv⟩ := value_dynamicBytes h
    obtain ⟨bs, hlen, rfl, -⟩ := valueDyn_eq_some hv
    rw [enc, hlen, UInt16.ofNat_toNat, List.length_append, e.length_bytes, hlen]
    refine (unmarshalDyn_spec hmem hlen n₀ a₀ vs₀).map id ?_
    rintro - ⟨a, vs, rfl, hvs⟩
    exact hvs
  | dynamicString, o, v, h, .dyn n₀ a₀ vs₀, _ => by
    obtain ⟨n, a, vs, rfl, hle, hv⟩ := value_dynamicString h
    obtain ⟨bs, hlen, rfl, -⟩ := valueDyn_eq_some hv
    rw [enc, hlen, UInt16.ofNat_toNat, List.length_append, e.length_bytes, hlen]
    refine (unmarshalDyn_spec hmem hlen n₀ a₀ vs₀).map id ?_
    rintro - ⟨a, vs, rfl, hvs⟩
    simp [value, hle, hvs]
  | fixedArray n t, o, v, h, .list os₀, ⟨hn, hos⟩ => by
    obtain ⟨os, vs, rfl, hvs, rfl⟩ := value_fixedArray h
    rw [enc]
    refine (unmarshalElems_spec (unmarshal_spec e mem hmem t) hvs os₀ hn hos).map Obj.list fun os' hos' => ?_
    simp [value, hos']
  | varArray max t, o, v, h, .var n₀ (.list os₀), ⟨hn, hos⟩ => by
    obtain ⟨n, os, vs, rfl, hle, hvs, rfl⟩ := value_varArray h
    rw [enc, length_of_valueElems hvs, UInt16.ofNat_toNat, List.length_append, e.length_bytes]
    refine (unmarshalElems_spec (unmarshal_spec e mem hmem t) hvs os₀ (Nat.le_trans hle hn) hos).base
      (e.length_bytes n) fun c c' b m extra hdec _ _ => ⟨b, fun os => .var (some n) (.list os), ?_, ?_⟩
    · simp only [unmarshal, hdec, e.val_bytes, if_neg (Nat.not_lt.2 hle)]
    · intro os' hos'
      simp [value, hle, hos']
  | dynamicArray t, o, v, h, .dyn n₀ a₀ vs₀, _ => by
    obtain ⟨n, a, vs, rfl, ⟨rfl, rfl⟩ | ⟨hpos, b, os, vals, rfl, hvals, rfl⟩⟩ := value_dynamicArray h
    · have h0 : UInt16.ofNat ([] : List Val).length = 0 := rfl
      rw [enc, List.flatMap_nil, List.append_nil, e.length_bytes, h0]
      refine takes_base (e.length_bytes 0) fun c c' b hdec => ⟨Obj.dyn (some 0) (some 0) vs₀, ?_, rfl⟩
      simp only [unmarshal, hdec, e.val_bytes, if_true]
    · rw [enc, length_of_valueElems hvals, UInt16.ofNat_toNat, List.length_append, e.length_bytes]
      have hne : n ≠ 0 := UInt16.pos_iff_ne_zero.1 hpos
      refine (unmarshalElems_spec (unmarshal_spec e mem hmem t) hvals (List.replicate n.toNat (uninit t))
        (by simp) fun o ho => List.eq_of_mem_replicate ho ▸ shaped_uninit t).base (e.length_bytes n)
        fun c c' b m extra hdec _ _ => ⟨b + 1, fun os => .dyn (some n) (some n) (.ptr b (.list os)), ?_, ?_⟩
      · simp only [unmarshal, hdec, e.val_bytes, if_neg hne, hmem, if_true]
      · intro os' hos'
        simp [value, hne, hos']

theorem unmarshalFields_spec (e : Endian) (mem : Nat → Bool) (hmem : ∀ b, mem b = true) :
    ∀ (fs : List TypeInfo) (os : List Obj) (vs : List Val), valueFields fs os = some vs →
      ∀ os₀, ShapedAll fs os₀ → Takes (unmarshalFields e mem fs os₀) (encFields e fs vs).length
        (encFields e fs vs) (fun os' => valueFields fs os' = some vs)
  | [], os, vs, h, os₀, _ => by
    simp only [valueFields, Option.some.injEq] at h
    subst h
    exact takes_nil rfl
  | f :: fs, [], vs, h, _, _ => by simp [valueFields] at h
  | f :: fs, o :: os, vs, h, o₀ :: os₀, ⟨h₀, hs₀⟩ => by
    simp only [valueFields, Option.bind_eq_some_iff, Option.map_eq_some_iff] at h
    obtain ⟨v, hv, vs, hvs, rfl⟩ := h
    rw [encFields, List.length_append]
    refine (unmarshal_spec e mem hmem f o v hv o₀ h₀).cons (unmarshalFields_spec e mem hmem fs os vs hvs os₀ hs₀)
      os₀ fun o' os' ho' hos' => ?_
    simp [valueFields, ho', hos']

end

/-! ## The round trip -/

/-- An object of any type is marshalled to the end of a chain of short buffers, of which those after the
first are empty and have room. Unmarshalled from there into an initialised object, whatever was put
behind, it has the same value and the same length, and what was put behind is left. -/
theorem unmarshal_marshal (e : Endian) (mem : Nat → Bool) (hmem : ∀ b, mem b = true) (t : TypeInfo)
    (o : Obj) (v : Val) (hv : value t o = some v) (c : Chain)
    (hroom : ∀ p ∈ c.next, p.data = [] ∧ 0 < p.tailroom)
    (hshort : ∀ p ∈ c.psb :: c.next, p.data.length + p.tailroom < 0x80000000) :
    ∃ w, aoslMarshal e t o c = .ok ((enc e t v).length, w) ∧ w.contents = c.psb.data ++ enc e t v ∧
      ∀ (x : List UInt8) (more : List Psb) (o₀ : Obj) (b : Nat), Shaped t o₀ →
        let rd := w.resume c.psb.data.length x more
        rd.contents = enc e t v ++ (x ++ more.flatMap Psb.data) ∧
          ((∀ p ∈ rd.psb :: rd.next, p.data.length < 0x80000000) →
            ∃ o' c' b', unmarshal e mem t (initTypedObj t o₀) rd b = ⟨.ok ((enc e t v).length, c'), o', b'⟩ ∧
              value t o' = some v ∧ c'.contents = x ++ more.flatMap Psb.data) := by
  obtain ⟨w, hw, hholds⟩ := marshal_spec e t o v hv _ _ _ (Writer.holds_nil hroom hshort)
  rw [List.nil_append] at hholds
  refine ⟨w, hw, hholds.data, fun x more o₀ b h₀ => ⟨hholds.resume_contents, fun hrd => ?_⟩⟩
  obtain ⟨c', o', b', heq, ho', hcont, -⟩ := unmarshal_spec e mem hmem t o v hv _ (Shaped.init t o₀ h₀) 0 _ _ b
    (hholds.resume_readable hrd) hholds.resume_contents
  exact ⟨o', c', b', heq, ho', hcont⟩

/-- A structure with a number, a pointer to a string and a variable array, over two small buffers. -/
theorem unmarshal_marshal_struct :
    let t := struct [scalar .int16, pointer string, varArray 3 (scalar .int8)]
    let o := Obj.list [.raw [some 1, some 2], .ptr 0 (.ptr 1 (.raw [some 104, some 105, some 0])),
      .var (some 1) (.list [.raw [some 7], .raw [none], .raw [none]])]
    ∃ w o' c' b', aoslMarshal .little t o ⟨⟨[9], 3, none⟩, [⟨[], 2, none⟩]⟩ = .ok (10, w) ∧
      unmarshal .little (fun _ => true) t (initTypedObj t (uninit t)) (w.resume 1 [5] []) 0 =
        ⟨.ok (10, c'), o', b'⟩ ∧ value t o' = value t o ∧ c'.contents = [5] := by
  intro t o
  obtain ⟨w, hw, -, hback⟩ := unmarshal_marshal .little (fun _ => true) (fun _ => rfl) t o
    (.list [.bytes [1, 2], .some (.bytes [104, 105]), .list [.bytes [7]]]) rfl ⟨⟨[9], 3, none⟩, [⟨[], 2, none⟩]⟩
    (by simp) (by simp)
  obtain ⟨hcont, hrd⟩ := hback [5] [] (uninit t) 0 (shaped_uninit t)
  obtain ⟨o', c', b', heq, ho', hc'⟩ := hrd fun p hp => by
    have hle := Chain.length_le_contents hp
    rw [hcont] at hle
    exact Nat.lt_of_le_of_lt hle (by decide)
  exact ⟨w, o', c', b', hw, heq, ho', hc'⟩

theorem strsizeFrom_long {l : Nat} {p : Psb} (h : p.data.length = 0x80000001) :
    Chain.strsizeFrom l 0 p [] = .error .emsgsize := by
  have hint : p.intLen = -0x7fffffff := by
    rw [Psb.intLen, Psb.psbLen, h]
    rfl
  rw [Chain.strsizeFrom, hint, if_pos (by decide)]

theorem unmarshal_string_long {x : List UInt8} (hx : x.length = 0x80000000) (o : Obj) (b : Nat) :
    (unmarshal .little (fun _ => true) string o ⟨⟨[1, 0] ++ x, 0, none⟩, []⟩ b).res = .error .emsgsize := by
  have hbase : Chain.decodeBase 1 ⟨⟨[1, 0] ++ x, 0, none⟩, []⟩ = some ([1], ⟨⟨0 :: x, 0, none⟩, []⟩) := rfl
  have hlong : Chain.safeStrsize ⟨⟨0 :: x, 0, none⟩, []⟩ = .error .emsgsize :=
    strsizeFrom_long (by rw [List.length_cons, hx])
  simp only [unmarshal, hbase, hlong]
  rfl

theorem marshal_string_empty {m : Nat} (hm : m < 0xfffffffe) :
    aoslMarshal .little string (.ptr 0 (.raw [some 0])) ⟨⟨[], m + 2, none⟩, []⟩ =
      .ok (2, ⟨[], ⟨[1, 0], m, none⟩, []⟩) := by
  have hbase : Writer.encodeBase ⟨[], ⟨[], m + 2, none⟩, []⟩ [1] = ⟨[], ⟨[1], m + 1, none⟩, []⟩ :=
    if_pos (by simp)
  have hcopy : Writer.copy ⟨[], ⟨[1], m + 1, none⟩, []⟩ [0] = 1 := by
    have hroom : (m + 1) % 0x100000000 = m + 1 := Nat.mod_eq_of_lt (by omega)
    rw [Writer.copy, Psb.psbTailroom, hroom]
    exact Nat.min_eq_right (Nat.succ_le_succ (Nat.zero_le m))
  have hbytes : Writer.encodeBytes ⟨[], ⟨[1], m + 1, none⟩, []⟩ [0] = ⟨[], ⟨[1, 0], m, none⟩, []⟩ := by
    rw [Writer.encodeBytes, hcopy, if_pos (by rfl), Writer.fill, hcopy]
    rfl
  have hstr (w : Writer) : marshalStr [some 0] 65535 w = .ok (1, w.encodeBytes [0]) := rfl
  rw [aoslMarshal, marshal, hbase, hstr, hbytes]
  rfl

theorem marshal_string_long {x : List UInt8} (hx : x.length = 0x80000000) :
      ∃ w, aoslMarshal .little string (.ptr 0 (.raw [some 0])) ⟨⟨[], 0x80000002, none⟩, []⟩ = .ok (2, w) ∧
        w.resume 0 x [] = ⟨⟨[1, 0] ++ x, 0, none⟩, []⟩ := by
  refine ⟨_, marshal_string_empty (by decide), ?_⟩
  simp only [Writer.resume, Psb.put, Psb.get, hx, Nat.sub_self, List.drop_zero]

/-- The empty string is not read back when `2 ^ 31` bytes follow it in its buffer. -/
theorem not_unmarshal_marshal_long :
    value string (.ptr 0 (.raw [some 0])) = some (.bytes []) ∧
      ∃ w, aoslMarshal .little string (.ptr 0 (.raw [some 0])) ⟨⟨[], 0x80000002, none⟩, []⟩ = .ok (2, w) ∧
        w.resume 0 (List.replicate 0x80000000 0) [] = ⟨⟨[1, 0] ++ List.replicate 0x80000000 0, 0, none⟩, []⟩ ∧
        (unmarshal .little (fun _ => true) string (initTypedObj string (uninit string))
          (w.resume 0 (List.replicate 0x80000000 0) []) 0).res = .error .emsgsize := by
  have hlen : (List.replicate 0x80000000 (0 : UInt8)).length = 0x80000000 := List.length_replicate
  obtain ⟨w, hw, hback⟩ := marshal_string_long hlen
  have hres := unmarshal_string_long hlen (initTypedObj string (uninit string)) 0
  refine ⟨rfl, w, hw, hback, ?_⟩
  rw [hback]
  exact hres

end TypeInfo

end Aosl
