/-!
# Numbers as bytes, the lowest first

A number of a fixed width, as it stands in binary snapshots and in compressed files.
-/

set_option autoImplicit false

namespace Mobility.LittleEndian

/-- The first number which doesn't fit into so many bytes. -/
def limit : Nat → Nat
  | 0 => 1
  | width + 1 => limit width * 0x100

/-- The lowest `width` bytes of a number. -/
def encode : Nat → Nat → List UInt8
  | 0, _ => []
  | width + 1, n => UInt8.ofNat n :: encode width (n / 0x100)

/-- Reads a number of `width` bytes. Returns it with the bytes behind it. -/
def decode : Nat → List UInt8 → Option (Nat × List UInt8)
  | 0, data => some (0, data)
  | _ + 1, [] => none
  | width + 1, b :: data =>
    (decode width data).map fun (n, data) => (b.toNat + n * 0x100, data)

@[simp] theorem length_encode (width n : Nat) : (encode width n).length = width := by
  induction width generalizing n with
  | zero => rfl
  | succ width ih => simp [encode, ih]

/-- A number which fits is read back, whatever follows it. -/
theorem decode_encode {width n : Nat} (h : n < limit width) (rest : List UInt8) :
    decode width (encode width n ++ rest) = some (n, rest) := by
  induction width generalizing n with
  | zero =>
    have : n = 0 := by simpa [limit] using h
    simp [encode, decode, this]
  | succ width ih =>
    have small : n / 0x100 < limit width := by
      rw [limit] at h
      omega
    simp only [encode, List.cons_append, decode, ih small, Option.map_some, UInt8.toNat_ofNat']
    congr 2
    omega

end Mobility.LittleEndian
