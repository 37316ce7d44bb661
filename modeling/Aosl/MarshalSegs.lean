import Aosl.MarshalMem
import Aosl.PsbGaps

/-!
# Decoding and the buffers of the chain

`Bytes.reader` reads from a list of bytes, and with that a descriptor has a decoder that knows nothing of buffers. It
keeps a record of its scans for `'\0'`. As long as the chain has no empty buffer where one of these scans would come to
it, and none whose `(int)len` is negative there, the decoder of the code does the same.
-/

namespace Aosl
open Lib Attempt

variable {A : Arch} {e : Endian} {mem : Nat → Bool}

/-- The bytes that are left, and for each scan the number of them before it. -/
structure Bytes where
  left : List UInt8
  scans : List Nat

namespace Bytes

def reader : Reader Bytes where
  decodeBase n s :=
    if n ≤ s.left.length then (some (s.left.take n), { s with left := s.left.drop n })
    else (none, { s with left := [] })
  decodeBytes n s := (s.left.take n, decide (n ≤ s.left.length), { s with left := s.left.drop n })
  safeStrsize s := (Chain.strsize s.left, { s with scans := s.scans ++ [s.left.length] })

end Bytes

/-! ## What two decoders have in common -/

/-- A relation between the decoders of two readers that everything keeps that a decoder is made of. -/
structure Congruence {σ τ : Type} (S : Reader σ) (T : Reader τ) (mem : Nat → Bool)
    (P : (α : Type) → Decoder σ α → Decoder τ α → Prop) : Prop where
  pure : ∀ {α : Type} (a : α), P α (pure a) (pure a)
  fail : ∀ {α : Type} (x : Err), x ≠ .fault → P α (fail x) (fail x)
  bind : ∀ {α β : Type} {m : Decoder σ α} {n : Decoder τ α} {f : α → Decoder σ β} {g : α → Decoder τ β},
    P α m n → (∀ a, P β (f a) (g a)) → P β (m >>= f) (n >>= g)
  base : ∀ n, P _ (Decoder.base S n) (Decoder.base T n)
  copy : ∀ r offset n, P _ (Decoder.copy S r offset n) (Decoder.copy T r offset n)
  strsize : P _ (Decoder.strsize S) (Decoder.strsize T)
  poke : ∀ r offset d, P _ (Decoder.poke r offset d) (Decoder.poke r offset d)
  malloc : ∀ size extent {u : Decoder σ Unit} {v : Decoder τ Unit}, P _ u v →
    P _ (Decoder.malloc mem size extent u) (Decoder.malloc mem size extent v)

namespace Congruence
open TypeDesc
variable {σ τ : Type} {S : Reader σ} {T : Reader τ} {P : (α : Type) → Decoder σ α → Decoder τ α → Prop}

theorem elems (h : Congruence S T mem P) {f : Nat → Decoder σ Nat} {g : Nat → Decoder τ Nat} (hf : ∀ i, P _ (f i) (g i))
    (n i : Nat) : P _ (Decoder.elems f n i) (Decoder.elems g n i) := by
  induction n generalizing i with
  | zero => exact h.pure _
  | succ n ih =>
    rw [Decoder.elems, Decoder.elems]
    exact h.bind (hf i) fun _ => h.bind (ih (i + 1)) fun _ => h.pure _

theorem setCount (h : Congruence S T mem P) (r : Region) (offset : Nat) (count allocated : UInt16) :
    P _ (setCount e r offset count allocated) (setCount e r offset count allocated) :=
  h.bind (h.poke ..) fun _ => h.poke ..

theorem dyn (h : Congruence S T mem P) (nul : Nat) (r : Region) (offset : Nat) :
    P _ (unmarshalDyn S A e mem nul r offset) (unmarshalDyn T A e mem nul r offset) := by
  unfold unmarshalDyn
  refine h.bind (h.base 2) fun bs => h.bind (h.setCount ..) fun _ => ?_
  split
  · exact h.pure _
  · refine h.bind (h.malloc _ _ (h.setCount ..)) fun k => h.bind (h.poke ..) fun _ => ?_
    exact h.bind (h.copy ..) fun _ => h.bind (h.poke ..) fun _ => h.pure _

mutual

theorem unmarshal (h : Congruence S T mem P) : ∀ (t : TypeDesc) (r : Region) (p : Nat),
    P _ (t.unmarshal S A e mem r p) (t.unmarshal T A e mem r p)
  | void, _, _ => by
    rw [TypeDesc.unmarshal, TypeDesc.unmarshal]
    exact h.pure _
  | scalar a k, r, p => by
    rw [TypeDesc.unmarshal, TypeDesc.unmarshal]
    exact h.bind (h.base _) fun _ => h.bind (h.poke ..) fun _ => h.pure _
  | pointer a c, r, p => by
    rw [TypeDesc.unmarshal, TypeDesc.unmarshal]
    refine h.bind (h.base 1) fun bs => ?_
    split
    · exact h.bind (h.poke ..) fun _ => h.pure _
    · refine h.bind (h.malloc _ _ (h.pure _)) fun k => h.bind (h.poke ..) fun _ => ?_
      exact h.bind (unmarshal h c _ _) fun _ => h.pure _
  | reference a c, r, p => by
    rw [TypeDesc.unmarshal, TypeDesc.unmarshal]
    exact unmarshal h c _ _
  | string a, r, p => by
    rw [TypeDesc.unmarshal, TypeDesc.unmarshal]
    refine h.bind (h.base 1) fun bs => ?_
    split
    · exact h.bind (h.poke ..) fun _ => h.pure _
    · refine h.bind h.strsize fun n => h.bind (h.malloc _ _ (h.pure _)) fun k => h.bind (h.poke ..) fun _ => ?_
      exact h.bind (h.copy ..) fun _ => h.pure _
  | struct a n fs, r, p => by
    rw [TypeDesc.unmarshal, TypeDesc.unmarshal]
    exact unmarshalFields h fs _ _
  | fixedBytes a n, r, p => by
    rw [TypeDesc.unmarshal, TypeDesc.unmarshal]
    exact h.bind (h.copy ..) fun _ => h.pure _
  | varBytes a n count, r, p => by
    rw [TypeDesc.unmarshal, TypeDesc.unmarshal]
    refine h.bind (h.base 2) fun bs => ?_
    dsimp only
    split
    · exact h.fail _ nofun
    · exact h.bind (h.poke ..) fun _ => h.bind (h.copy ..) fun _ => h.pure _
  | bytesWithNil a n, r, p => by
    rw [TypeDesc.unmarshal, TypeDesc.unmarshal]
    refine h.bind h.strsize fun l => ?_
    split
    · exact h.fail _ nofun
    · exact h.bind (h.copy ..) fun _ => h.pure _
  | dynamicBytes a, r, p | dynamicString a, r, p => by
    rw [TypeDesc.unmarshal, TypeDesc.unmarshal]
    exact h.dyn ..
  | fixedArray a n c, r, p => by
    rw [TypeDesc.unmarshal, TypeDesc.unmarshal]
    exact h.elems (fun _ => unmarshal h c _ _) _ _
  | varArray a n count c, r, p => by
    rw [TypeDesc.unmarshal, TypeDesc.unmarshal]
    refine h.bind (h.base 2) fun bs => ?_
    dsimp only
    split
    · exact h.fail _ nofun
    · refine h.bind (h.poke ..) fun _ => ?_
      exact h.bind (h.elems (fun _ => unmarshal h c _ _) _ _) fun _ => h.pure _
  | dynamicArray a c, r, p => by
    rw [TypeDesc.unmarshal, TypeDesc.unmarshal]
    refine h.bind (h.base 2) fun bs => h.bind (h.setCount ..) fun _ => ?_
    split
    · exact h.pure _
    · refine h.bind (h.malloc _ _ (h.setCount ..)) fun k => h.bind (h.poke ..) fun _ => ?_
      exact h.bind (h.elems (fun _ => unmarshal h c _ _) _ _) fun _ => h.pure _

theorem unmarshalFields (h : Congruence S T mem P) : ∀ (fs : List TypeDesc) (r : Region) (p : Nat),
    P _ (TypeDesc.unmarshalFields S A e mem fs r p) (TypeDesc.unmarshalFields T A e mem fs r p)
  | [], _, _ => by
    rw [TypeDesc.unmarshalFields, TypeDesc.unmarshalFields]
    exact h.pure _
  | f :: fs, r, p => by
    rw [TypeDesc.unmarshalFields, TypeDesc.unmarshalFields]
    exact h.bind (unmarshal h f _ _) fun _ => h.bind (unmarshalFields h fs _ _) fun _ => h.pure _

end

end Congruence

/-! ## The chain and its bytes -/

/-- The bytes that are left in the whole chain. -/
def Feed.remaining (f : Feed) : List UInt8 := f.segs.flatMap Psb.data

theorem Feed.remaining_mk (gone : List Psb) (p : Psb) (qs : List Psb) :
    Feed.remaining ⟨gone, p, qs⟩ = gone.flatMap Psb.data ++ (p.data ++ qs.flatMap Psb.data) := by
  show (gone ++ p :: qs).flatMap Psb.data = _
  rw [List.flatMap_append, List.flatMap_cons]

theorem Feed.take_remaining (n : Nat) (gone : List Psb) {p : Psb} {qs : List Psb}
    (hlen : ∀ q ∈ p :: qs, q.data.length < 0x100000000) :
    (take n gone p qs).2.2.remaining = gone.flatMap Psb.data ++ (p.data ++ qs.flatMap Psb.data).drop n := by
  have hp : p.psbLen = p.data.length := Psb.psbLen_of_lt (hlen p (List.mem_cons_self ..))
  have hdrop : p.data.drop (min p.psbLen n) = p.data.drop n := by
    rw [hp, Nat.min_comm, ← List.drop_eq_drop_min]
  induction qs generalizing n gone p with
  | nil =>
    show Feed.remaining ⟨gone, p.get (min p.psbLen n), []⟩ = _
    rw [remaining_mk]
    show _ ++ (p.data.drop (min p.psbLen n) ++ _) = _
    rw [hdrop, List.flatMap_nil, List.append_nil, List.append_nil]
  | cons q qs ih =>
    unfold take
    dsimp only
    split
    · next hle =>
      have hle : n ≤ p.data.length := by omega
      rw [remaining_mk, List.drop_append_of_le_length hle]
      show _ ++ (p.data.drop (min p.psbLen n) ++ _) = _
      rw [hdrop]
    · next hgt =>
      have hq : ∀ r ∈ q :: qs, r.data.length < 0x100000000 := fun r hr => hlen r (List.mem_cons_of_mem _ hr)
      have hqlen : q.psbLen = q.data.length := Psb.psbLen_of_lt (hq q (List.mem_cons_self ..))
      have hlt : p.data.length < n := by omega
      have hpast : ∀ t : List UInt8, (p.data ++ t).drop n = t.drop (n - p.data.length) := fun t => by
        rw [List.drop_append, List.drop_eq_nil_of_le (Nat.le_of_lt hlt), List.nil_append]
      rw [ih _ _ hq hqlen (by rw [hqlen, Nat.min_comm, ← List.drop_eq_drop_min]), List.flatMap_append,
        List.flatMap_singleton]
      show gone.flatMap Psb.data ++ p.data.drop (min p.psbLen n) ++ _ = _
      rw [hpast, hdrop, List.drop_eq_nil_of_le (Nat.le_of_lt hlt), List.append_nil, hp,
        Nat.min_eq_left (Nat.le_of_lt hlt)]
      rfl

namespace Chain

/-- `c'` is what a copy leaves of the chain that leaves `y` of its bytes. -/
def Behind (c : Chain) (y : Nat) (c' : Chain) : Prop :=
  y ≤ c.contents.length ∧ (decodeBytes (c.contents.length - y) c.psb c.next).2 = some c'

theorem Behind.copy {c c' c'' : Chain} {y n : Nat} (h : c.Behind y c')
    (hlen : ∀ p ∈ c.psb :: c.next, p.data.length < 0x100000000) (hn : n ≤ y)
    (hdec : (decodeBytes n c'.psb c'.next).2 = some c'') : c.Behind (y - n) c'' := by
  refine ⟨Nat.le_trans (Nat.sub_le ..) h.1, ?_⟩
  have hsum : c.contents.length - (y - n) = c.contents.length - y + n := by
    have := h.1
    omega
  rw [hsum, decodeBytes_add hlen h.2, hdec]

theorem Behind.unique {c c' c'' : Chain} {y : Nat} (h : c.Behind y c') (h' : c.Behind y c'') : c' = c'' :=
  Option.some.inj (h.2.symm.trans h'.2)

theorem Behind.congr {c c' d : Chain} {y : Nat} (hsame : c.SameBuffers c') (h : c.Behind y d) :
    ∃ d', c'.Behind y d' ∧ d.SameBuffers d' := by
  rcases hdec : decodeBytes (c.contents.length - y) c.psb c.next with ⟨bs, o⟩
  have hrun := h.2
  rw [hdec] at hrun
  cases hrun
  obtain ⟨d', hdec', hd, -⟩ := decodeBytes_same (P := fun _ => True) hsame.1 hsame.2 (fun _ _ => trivial) hdec
  refine ⟨d', ⟨hsame.contents ▸ h.1, ?_⟩, hd⟩
  rw [hsame.contents, hdec']

end Chain

/-- A chain that was `c` at first and its bytes at the same place. -/
structure Level (c : Chain) (P : Option UInt8 → Prop) (f : Feed) (b : Bytes) : Prop where
  whole : ∀ p ∈ c.psb :: c.next, p.data.length < 0x100000000
  left : f.chain.contents = b.left
  remaining : f.remaining = b.left
  len : ∀ p ∈ f.psb :: f.next, p.data.length < 0x100000000
  stale : ∀ p ∈ f.psb :: f.next, P p.stale
  behind : c.Behind b.left.length f.chain

namespace Level
variable {c : Chain} {P : Option UInt8 → Prop} {f f' : Feed} {b : Bytes} {n : Nat}

theorem gone_nil (h : Level c P f b) : f.gone.flatMap Psb.data = [] := by
  have hrem := h.remaining
  rw [Feed.remaining_mk, ← h.left] at hrem
  exact List.append_left_eq_self.1 hrem

theorem copied (h : Level c P f b) (hn : n ≤ b.left.length) (hcopied : Chain.Copied n f.psb f.next f'.chain)
    (hdec : (Chain.decodeBytes n f.psb f.next).2 = some f'.chain)
    (hrem : f'.remaining = f.gone.flatMap Psb.data ++ (f.psb.data ++ f.next.flatMap Psb.data).drop n) :
    Level c P f' { b with left := b.left.drop n } := by
  have hleft : f'.chain.contents = b.left.drop n := by
    rw [hcopied.contents, ← h.left]
    rfl
  refine ⟨h.whole, hleft, ?_, hcopied.len, hcopied.stale P h.stale, ?_⟩
  · rw [hrem, h.gone_nil, List.nil_append, ← hcopied.contents, hleft]
  · rw [List.length_drop]
    exact h.behind.copy h.whole hn hdec

theorem enough (h : Level c P f b) (hn : n ≤ b.left.length) :
    ∃ f', f.decodeBytes n = (b.left.take n, true, f') ∧ Level c P f' { b with left := b.left.drop n } := by
  have hS : f.psb.data ++ f.next.flatMap Psb.data = b.left := h.left
  obtain ⟨c', hdec, hcopied⟩ := Chain.decodeBytes_enough h.len (n := n) (by rwa [hS])
  have hbehind := congrArg Prod.snd hdec
  have hrem := Feed.take_remaining n f.gone h.len
  rw [Feed.take_eq n f.gone] at hdec
  rcases htake : Feed.take n f.gone f.psb f.next with ⟨bs, - | -, f'⟩
  · rw [htake] at hdec
    exact absurd (congrArg Prod.snd hdec) nofun
  · rw [htake] at hdec hrem
    cases hdec
    exact ⟨f', by rw [← hS]; exact htake, h.copied hn hcopied hbehind hrem⟩

theorem few (h : Level c P f b) (hn : b.left.length < n) :
    ∃ f', f.decodeBytes n = (b.left, false, f') ∧ f'.remaining = [] := by
  have hS : f.psb.data ++ f.next.flatMap Psb.data = b.left := h.left
  have hdec := Chain.decodeBytes_few h.len (n := n) (by rwa [hS])
  have hrem := Feed.take_remaining n f.gone h.len
  rw [Feed.take_eq n f.gone, hS] at hdec
  rw [h.gone_nil, hS, List.drop_eq_nil_of_le (Nat.le_of_lt hn)] at hrem
  rcases htake : Feed.take n f.gone f.psb f.next with ⟨bs, - | -, f'⟩
  · rw [htake] at hdec hrem
    cases congrArg Prod.fst hdec
    exact ⟨f', htake, hrem⟩
  · rw [htake] at hdec
    exact absurd (congrArg Prod.snd hdec) nofun

theorem base_enough (h : Level c P f b) (hn : n ≤ b.left.length) :
    ∃ f', f.decodeBase n = (some (b.left.take n), f') ∧ Level c P f' { b with left := b.left.drop n } := by
  unfold Feed.decodeBase
  split
  · next hle =>
    have hdec := Chain.decodeBytes_get (h.len f.psb (List.mem_cons_self ..)) hle f.next
    refine ⟨{ f with psb := f.psb.get n }, ?_,
      h.copied hn (Chain.Copied.get h.len hle) (congrArg Prod.snd hdec) ?_⟩
    · rw [← h.left]
      show _ = (some ((f.psb.data ++ f.next.flatMap Psb.data).take n), _)
      rw [List.take_append_of_le_length hle]
    · rw [Feed.remaining_mk, List.drop_append_of_le_length hle]
      rfl
  · obtain ⟨f', hdec, hf'⟩ := h.enough hn
    exact ⟨f', by rw [hdec], hf'⟩

theorem base_few (h : Level c P f b) (hn : b.left.length < n) :
    ∃ f', f.decodeBase n = (none, f') ∧ f'.remaining = [] := by
  have hle : f.psb.data.length ≤ b.left.length := by
    rw [← h.left]
    exact Chain.length_le_contents (List.mem_cons_self ..)
  obtain ⟨f', hdec, hf'⟩ := h.few hn
  refine ⟨f', ?_, hf'⟩
  unfold Feed.decodeBase
  rw [if_neg (by omega), hdec]

end Level

/-- A decoder of a chain and one of its bytes. -/
structure Tracks (c : Chain) (P : Option UInt8 → Prop) (s : Mem Feed) (t : Mem Bytes) : Prop where
  writes : s.writes = t.writes
  blocks : s.blocks = t.blocks
  level : Level c P s.psb t.psb

/-- The same was written, and the same bytes are left. -/
structure Same (s : Mem Feed) (t : Mem Bytes) : Prop where
  writes : s.writes = t.writes
  blocks : s.blocks = t.blocks
  remaining : s.psb.remaining = t.psb.left

theorem Tracks.same {c : Chain} {P : Option UInt8 → Prop} {s : Mem Feed} {t : Mem Bytes} (h : Tracks c P s t) :
    Same s t := ⟨h.writes, h.blocks, h.level.remaining⟩

/-- One of the scans comes to a buffer whose `(int)len` is negative. -/
def Blind (c : Chain) (t : Mem Bytes) : Prop := ∃ y ∈ t.psb.scans, ∃ d, c.Behind y d ∧ ¬ d.SeesAll

/-- One of the scans comes to such a buffer, or to an empty one. -/
def Blocked (c : Chain) (t : Mem Bytes) : Prop := ∃ y ∈ t.psb.scans, ∃ d, c.Behind y d ∧ ¬ (d.SeesAll ∧ d.NoGap)

/-- What the decoder of the chain has to do with the one of the bytes. -/
structure Keep (c : Chain) (P : Option UInt8 → Prop) (α : Type) (m : Decoder Feed α) (n : Decoder Bytes α) :
    Prop where
  stays : Stays (Blocked c) n
  blind : Stays (Blind c) n
  follows : Follows (Tracks c P) Same (Blocked c) m n
  trips : (∀ x, P x → x = none) → Trips (Tracks c P) (Blocked c) (Blind c) .fault m n

namespace Keep
open Decoder
variable {c : Chain} {P : Option UInt8 → Prop} {α β : Type} {n : Nat}

theorem bind {m : Decoder Feed α} {n : Decoder Bytes α} {f : α → Decoder Feed β} {g : α → Decoder Bytes β}
    (hm : Keep c P α m n) (hf : ∀ a, Keep c P β (f a) (g a)) : Keep c P β (m >>= f) (n >>= g) where
  stays := hm.stays.bind fun a => (hf a).stays
  blind := hm.blind.bind fun a => (hf a).blind
  follows := hm.follows.bind (fun a => (hf a).follows) fun a => (hf a).stays
  trips hP := (hm.trips hP).bind hm.follows (fun a => (hf a).trips hP) fun a => (hf a).blind

theorem plain {m : Decoder Feed α} {n : Decoder Bytes α} (hscans : ∀ t, (n.run t).2.psb.scans = t.psb.scans)
    (hfol : ∀ s t, Tracks c P s t →
      (m.run s).1 = (n.run t).1 ∧ Ended (Tracks c P) Same (n.run t).1 (m.run s).2 (n.run t).2) : Keep c P α m n where
  stays t ht := by
    obtain ⟨y, hy, hd⟩ := ht
    exact ⟨y, by rw [hscans]; exact hy, hd⟩
  blind t ht := by
    obtain ⟨y, hy, hd⟩ := ht
    exact ⟨y, by rw [hscans]; exact hy, hd⟩
  follows s t h _ := hfol s t h
  trips _ s t _ hnot hbad := by
    obtain ⟨y, hy, hd⟩ := hbad
    rw [hscans] at hy
    exact absurd ⟨y, hy, hd⟩ hnot

theorem pure (a : α) : Keep c P α (pure a) (pure a) := plain (fun _ => rfl) fun _ _ h => ⟨rfl, h⟩

theorem fail (x : Err) : Keep c P α (fail x) (fail x) := plain (fun _ => rfl) fun _ _ h => ⟨rfl, h.same⟩

theorem poke (r : Region) (offset : Nat) (d : Datum) : Keep c P Unit (poke r offset d) (poke r offset d) :=
  plain (fun _ => rfl) fun _ _ h => ⟨rfl, congrArg (· ++ _) h.writes, h.blocks, h.level⟩

theorem base (n : Nat) : Keep c P _ (base Feed.reader n) (base Bytes.reader n) := by
  refine plain (fun t => ?_) fun s t h => ?_
  · by_cases hn : n ≤ t.psb.left.length
    · simp only [Decoder.base, Bytes.reader, if_pos hn]
    · simp only [Decoder.base, Bytes.reader, if_neg hn]
  · by_cases hn : n ≤ t.psb.left.length
    · obtain ⟨f', hdec, hf'⟩ := h.level.base_enough hn
      simp only [Decoder.base, Feed.reader, Bytes.reader, if_pos hn, hdec]
      exact ⟨trivial, h.writes, h.blocks, hf'⟩
    · obtain ⟨f', hdec, hf'⟩ := h.level.base_few (Nat.lt_of_not_le hn)
      simp only [Decoder.base, Feed.reader, Bytes.reader, if_neg hn, hdec]
      exact ⟨trivial, h.writes, h.blocks, hf'⟩

theorem copy (r : Region) (offset n : Nat) :
    Keep c P _ (copy Feed.reader r offset n) (copy Bytes.reader r offset n) := by
  refine plain (fun t => rfl) fun s t h => ?_
  by_cases hn : n ≤ t.psb.left.length
  · obtain ⟨f', hdec, hf'⟩ := h.level.enough hn
    simp only [Decoder.copy, Feed.reader, Bytes.reader, hdec, decide_eq_true hn, if_true]
    exact ⟨trivial, congrArg (· ++ _) h.writes, h.blocks, hf'⟩
  · obtain ⟨f', hdec, hf'⟩ := h.level.few (Nat.lt_of_not_le hn)
    simp only [Decoder.copy, Feed.reader, Bytes.reader, hdec, decide_eq_false hn, Bool.false_eq_true, if_false]
    rw [List.take_of_length_le (by omega), List.drop_eq_nil_of_le (by omega)]
    exact ⟨trivial, congrArg (· ++ _) h.writes, h.blocks, hf'⟩

theorem malloc (size extent : Nat) {u : Decoder Feed Unit} {v : Decoder Bytes Unit} (h : Keep c P Unit u v) :
    Keep c P _ (malloc mem size extent u) (malloc mem size extent v) := by
  have hundo : Keep c P Nat (u >>= fun _ => Attempt.fail .enomem) (v >>= fun _ => Attempt.fail .enomem) :=
    h.bind fun _ => fail .enomem
  constructor
  · intro t ht
    simp only [Decoder.malloc]
    split
    · exact ht
    · exact hundo.stays t ht
  · intro t ht
    simp only [Decoder.malloc]
    split
    · exact ht
    · exact hundo.blind t ht
  · intro s t hst hbad
    simp only [Decoder.malloc, hst.blocks] at hbad ⊢
    split
    · exact ⟨rfl, hst.writes, rfl, hst.level⟩
    · next hm =>
      rw [if_neg hm] at hbad
      exact hundo.follows s t hst hbad
  · intro hP s t hst hnot hbad
    simp only [Decoder.malloc, hst.blocks] at hbad ⊢
    split
    · next hm =>
      rw [if_pos hm] at hbad
      exact absurd hbad hnot
    · next hm =>
      rw [if_neg hm] at hbad
      exact hundo.trips hP s t hst hnot hbad

theorem strsize : Keep c P _ (strsize Feed.reader) (strsize Bytes.reader) := by
  have hstays : Stays (Blocked c) (Decoder.strsize Bytes.reader) := by
    rintro t ⟨y, hy, hd⟩
    exact ⟨y, List.mem_append_left _ hy, hd⟩
  have hlast : ∀ {s : Mem Feed} {t : Mem Bytes}, Tracks c P s t → t.psb.left.length ∈
      ((Decoder.strsize Bytes.reader).run t).2.psb.scans ∧ c.Behind t.psb.left.length s.psb.chain := fun h =>
    ⟨List.mem_append_right _ (List.mem_singleton_self _), h.level.behind⟩
  refine ⟨hstays, ?_, fun s t h hbad => ?_, fun hP s t h hnot hbad => ?_⟩
  · rintro t ⟨y, hy, hd⟩
    exact ⟨y, List.mem_append_left _ hy, hd⟩
  · have hclear : s.psb.chain.SeesAll ∧ s.psb.chain.NoGap := by
      by_contra hno
      exact hbad ⟨_, (hlast h).1, _, (hlast h).2, hno⟩
    have hsize : s.psb.chain.safeStrsize = Chain.strsize t.psb.left := by
      rw [hclear.2.safeStrsize h.level.len, hclear.1.strsize, h.level.left]
    refine ⟨hsize, ?_⟩
    have hlev : Level c P s.psb ((Decoder.strsize Bytes.reader).run t).2.psb :=
      ⟨h.level.whole, h.level.left, h.level.remaining, h.level.len, h.level.stale, h.level.behind⟩
    have htr : Tracks c P s ((Decoder.strsize Bytes.reader).run t).2 := ⟨h.writes, h.blocks, hlev⟩
    cases ((Decoder.strsize Bytes.reader).run t).1 with
    | ok n => exact htr
    | error x => exact htr.same
  · by_cases hsees : s.psb.chain.SeesAll
    · right
      obtain ⟨y, hy, d, hd, hno⟩ := hbad
      rcases List.mem_append.1 hy with hy | hy
      · exact absurd ⟨y, hy, d, hd, hno⟩ hnot
      · obtain rfl := List.mem_singleton.1 hy
        obtain rfl := hd.unique h.level.behind
        exact Chain.safeStrsize_gap h.level.len (fun p hp => hP _ (h.level.stale p (List.mem_cons_of_mem _ hp)))
          fun hgap => hno ⟨hsees, hgap⟩
    · exact .inl ⟨_, (hlast h).1, _, (hlast h).2, hsees⟩

end Keep

/-! ## No fault where every empty buffer has a byte behind it -/

/-- `m` does not read where nothing is, and comes to no other buffers. -/
def NoFault (α : Type) (m : Decoder Feed α) : Prop :=
  ∀ s, (∀ p ∈ s.psb.next, p.stale ≠ none) → (m.run s).1 ≠ .error .fault ∧ (m.run s).2.psb.next ⊆ s.psb.next

namespace NoFault
variable {α β : Type}

theorem bind {m : Decoder Feed α} {f : α → Decoder Feed β} (hm : NoFault α m) (hf : ∀ a, NoFault β (f a)) :
    NoFault β (m >>= f) := by
  intro s hs
  obtain ⟨hne, hsub⟩ := hm s hs
  rcases hrun : m.run s with ⟨x | a, s'⟩
  · rw [hrun] at hne hsub
    rw [bind_error hrun]
    exact ⟨fun h => hne (by rw [Except.error.inj h]), hsub⟩
  · rw [hrun] at hsub
    rw [bind_ok hrun]
    obtain ⟨hne', hsub'⟩ := hf a s' fun p hp => hs p (hsub hp)
    exact ⟨hne', List.Subset.trans hsub' hsub⟩

theorem fail {x : Err} (h : x ≠ .fault) : NoFault α (fail x) := fun _ _ =>
  ⟨fun hx => h (Except.error.inj hx), List.Subset.refl _⟩

end NoFault

/-! ## `aosl_unmarshal` -/

/-- The decoder of the bytes. -/
def bytesUnmarshal (A : Arch) (e : Endian) (mem : Nat → Bool) (t : TypeDesc) (bs : List UInt8) :
    Except Err Nat × Mem Bytes :=
  (t.unmarshal Bytes.reader A e mem .object 0).run ⟨⟨bs, []⟩, [], []⟩

namespace Chain

/-- No scan for `'\0'` that a decoder makes comes to a buffer whose `(int)len` is negative. -/
def Sighted (A : Arch) (e : Endian) (mem : Nat → Bool) (t : TypeDesc) (c : Chain) : Prop :=
  ∀ y ∈ (bytesUnmarshal A e mem t c.contents).2.psb.scans, ∀ d, c.Behind y d → d.SeesAll

/-- Nor to an empty one, other than the one that it starts in. -/
def Clear (A : Arch) (e : Endian) (mem : Nat → Bool) (t : TypeDesc) (c : Chain) : Prop :=
  ∀ y ∈ (bytesUnmarshal A e mem t c.contents).2.psb.scans, ∀ d, c.Behind y d → d.SeesAll ∧ d.NoGap

end Chain

section
variable {t : TypeDesc} {c c' c₁ c₂ : Chain}

namespace Chain

theorem Clear.congr (hsame : c.SameBuffers c') (h : c.Clear A e mem t) : c'.Clear A e mem t := by
  intro y hy d hd
  rw [hsame.contents] at hy
  obtain ⟨d', hd', hdd⟩ := hd.congr hsame.symm
  obtain ⟨hsees, hgap⟩ := h y hy d' hd'
  exact ⟨hsees.congr hdd.symm, hgap.congr hdd.symm⟩

theorem Sighted.congr (hsame : c.SameBuffers c') (h : c.Sighted A e mem t) : c'.Sighted A e mem t := by
  intro y hy d hd
  rw [hsame.contents] at hy
  obtain ⟨d', hd', hdd⟩ := hd.congr hsame.symm
  exact (h y hy d' hd').congr hdd.symm

end Chain

end

end Aosl
