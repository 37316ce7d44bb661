import Aosl.MarshalTrip
import Aosl.PsbGaps

/-!
# Strings of any length

`_____marshal` and `_____unmarshal` keep the size of a `STRING` or `BYTES_WITH_NIL` in an `uint16_t`, after `strlen` or
`SAFE_STRSIZE` and before anything is tested, allocated or copied. A string of more than 65535 bytes, with its `'\0'`,
is cut to what is left of the size. `mem b = false` never happens: `aosl_malloc` aborts where there is no memory.
-/

namespace Aosl

namespace Writer

end Writer

namespace TypeInfo
open Chain
variable {e : Endian} {mem : Nat → Bool} {s : List UInt8} {cells : Cells} {max : Nat} {w : Writer}

/-- The number of bytes that `SAFE_STRSIZE` sees up to the first `'\0'`, cut to an `uint16_t`, is the size of the string,
or is refused. -/
def SizeOk (c : Chain) (refused : Nat → Prop) : Prop :=
  ∀ n, Chain.strsize c.seen.contents = .ok n → refused (n % 65536) ∨ Chain.strsize c.contents = .ok (n % 65536)

theorem SizeOk.congr {c c' : Chain} {refused : Nat → Prop} (hsame : c.SameBuffers c') (h : SizeOk c refused) :
    SizeOk c' refused := by
  unfold SizeOk
  rw [hsame.contents, hsame.seen.contents]
  exact h

end TypeInfo

end Aosl
