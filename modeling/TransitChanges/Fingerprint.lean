/-!
# Fingerprints of bytes

A fingerprint is a short name for a list of bytes: a number of 64 bits, written in sixteen
hexadecimal digits.  It is the hash FNV-1a: every byte in turn is mixed into the number, which is
then multiplied by a fixed prime.  Different lists can have one fingerprint; nothing in the library
takes equal fingerprints for equal lists except where that is stated.

* `ofBytes_append`: bytes are mixed in one after the other.
* `length_hex`: a fingerprint has sixteen digits.
-/

namespace TransitChanges

/-- A short name for a list of bytes. -/
structure Fingerprint where
  value : UInt64
  deriving DecidableEq

namespace Fingerprint

/-- The fingerprint of no bytes. -/
def basis : Fingerprint := ⟨0xcbf29ce484222325⟩

/-- Mix in one byte. -/
def mix (f : Fingerprint) (byte : UInt8) : Fingerprint :=
  ⟨(f.value ^^^ byte.toUInt64) * 0x100000001b3⟩

/-- The fingerprint of a list of bytes. -/
def ofBytes (bytes : List UInt8) : Fingerprint :=
  bytes.foldl mix basis

/-- The sixteen hexadecimal digits of a fingerprint. -/
def hex (f : Fingerprint) : List Char :=
  (List.range 16).map fun i => Nat.digitChar (f.value.toNat >>> (4 * (15 - i)) % 16)

/-- Bytes are mixed in one after the other. -/
theorem ofBytes_append (bytes more : List UInt8) :
    ofBytes (bytes ++ more) = more.foldl mix (ofBytes bytes) :=
  List.foldl_append

/-- A fingerprint has sixteen digits. -/
@[simp] theorem length_hex (f : Fingerprint) : f.hex.length = 16 := by
  rw [hex, List.length_map, List.length_range]

end Fingerprint
end TransitChanges
