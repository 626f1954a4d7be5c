import Mdao.Coloring.Settings

/-!
# Signatures of structures

A coloring is used again only for the structure it was made for. A `Signature` names a structure:
the shape, a fingerprint of the sparsity, and the settings that shape the result, the tolerance by
its bit pattern. A `Fingerprint` hashes a stream of words byte by byte, with the low byte first.
-/

namespace Mdao

/-- Numbers with a bit pattern of 64 bits. -/
class BitPattern (α : Type) where
  /-- The bits of a number. -/
  toBits : α → UInt64
  /-- The number with given bits. -/
  ofBits : UInt64 → α

instance : BitPattern Float := ⟨Float.toBits, Float.ofBits⟩

/-- What a coloring was made for. -/
structure Signature where
  /-- The number of rows and of columns. -/
  shape : Nat × Nat
  /-- The fingerprint of the structure. -/
  structureHash : UInt64
  /-- The bits of the detection tolerance. -/
  tolBits : UInt64
  /-- The number of samples. -/
  numFullJacs : Nat
  /-- The seed of the sampling. -/
  seed : UInt64
  /-- The products that may be used. -/
  direction : Direction
  /-- How entries are recovered. -/
  recovery : Recovery
  deriving DecidableEq, Repr

namespace Signature

variable {α : Type} [BitPattern α]

/-- The signature of a structure under given settings. -/
def make (shape : Nat × Nat) (structureHash : UInt64) (s : ColoringSettings α) : Signature :=
  ⟨shape, structureHash, BitPattern.toBits s.tol, s.numFullJacs, s.seed, s.direction, s.recovery⟩

/-- The detection tolerance. -/
def tol (s : Signature) : α := BitPattern.ofBits s.tolBits

end Signature

/-- The state of a hash over a stream of words. -/
structure Fingerprint where
  /-- The hash of the words so far. -/
  value : UInt64
  deriving DecidableEq, Repr

namespace Fingerprint

/-- The hash of the empty stream. -/
def start : Fingerprint := ⟨0xcbf29ce484222325⟩

/-- The factor by which each byte is followed. -/
def prime : UInt64 := 0x100000001b3

/-- One more byte. -/
def byte (f : Fingerprint) (b : UInt64) : Fingerprint := ⟨(f.value ^^^ b) * prime⟩

/-- The bytes of a word, the low one first. -/
def bytesOf (w : UInt64) : List UInt64 :=
  [w &&& 0xff, (w >>> 8) &&& 0xff, (w >>> 16) &&& 0xff, (w >>> 24) &&& 0xff,
    (w >>> 32) &&& 0xff, (w >>> 40) &&& 0xff, (w >>> 48) &&& 0xff, (w >>> 56) &&& 0xff]

/-- One more word. -/
def word (f : Fingerprint) (w : UInt64) : Fingerprint := (bytesOf w).foldl byte f

/-- More words. -/
def words (f : Fingerprint) (ws : List UInt64) : Fingerprint := ws.foldl word f

/-- The words of a run of indices, its length first. -/
def indexWords (xs : List Nat) : List UInt64 := UInt64.ofNat xs.length :: xs.map UInt64.ofNat

/-- A run of indices, its length first. -/
def indices (f : Fingerprint) (xs : List Nat) : Fingerprint := f.words (indexWords xs)

end Fingerprint

end Mdao
