/-! Numbers of a fixed width as bytes, the least significant byte first. -/
namespace ShaderDialect.Bytes

def toNat : List UInt8 → Nat
  | [] => 0
  | b :: bs => b.toNat + 256 * toNat bs

/-- The bytes of a number; what does not fit into the width is dropped. -/
def ofNat : (width : Nat) → Nat → List UInt8
  | 0, _ => []
  | width + 1, n => UInt8.ofNat n :: ofNat width (n / 256)

@[simp] theorem length_ofNat (width n : Nat) : (ofNat width n).length = width := by
  induction width generalizing n with
  | zero => rfl
  | succ width ih => simp [ofNat, ih]

def slice? (data : List UInt8) (start length : Nat) : Option (List UInt8) :=
  if start + length ≤ data.length then some ((data.drop start).take length) else none

/-- The number of a given width at a position. -/
def read? (width : Nat) (data : List UInt8) (start : Nat) : Option Nat :=
  (slice? data start width).map toNat

end ShaderDialect.Bytes
