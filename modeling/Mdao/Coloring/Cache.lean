import Mdao.Coloring.Text

/-!
# A cache for colorings

A cache holds one coloring in memory and may be backed by a file. `ColoringCache.getOrCompute`
gives a coloring for a signature: the one in memory, or the one in the file, or a new one, which is
marked with the signature and stored.
-/

namespace Mdao

/-- A file that may not exist. -/
structure ColoringFile where
  /-- What the file holds, if it exists. -/
  contents : Option String
  /-- Whether the file can be written. -/
  writable : Bool
  deriving DecidableEq, Repr

/-- A file that does not exist yet and can be written. -/
def ColoringFile.absent : ColoringFile := ⟨none, true⟩

/-- A coloring in memory, and whether a file backs it. -/
structure ColoringCache where
  /-- Whether colorings are also kept in a file. -/
  backed : Bool
  /-- The coloring in memory. -/
  current : Option Coloring
  deriving Repr

/-- A coloring from a cache. -/
structure ColoringCache.Answer where
  /-- The coloring. -/
  coloring : Coloring
  /-- Whether it had to be computed. -/
  computed : Bool

namespace ColoringCache

/-- A cache in memory. -/
def inMemory : ColoringCache := ⟨false, none⟩

/-- A cache that a file backs. -/
def withFile : ColoringCache := ⟨true, none⟩

/-- The coloring in memory, if it was made for a signature. -/
def remembered (c : ColoringCache) (s : Signature) : Option Coloring :=
  c.current.filter fun k => k.isValidFor s

/-- The coloring in the file, if it can be read and was made for a signature. -/
def stored (c : ColoringCache) (s : Signature) (file : ColoringFile) : Option Coloring :=
  if c.backed then
    match file.contents with
    | none => none
    | some text =>
      match Coloring.ofJson text s with
      | .ok k => some k
      | .error _ => none
  else none

/-- Keeps a new coloring in the file, if there is one, and in memory. -/
def keep (c : ColoringCache) (k : Coloring) (file : ColoringFile) :
    Except ColoringError (ColoringCache × ColoringFile) :=
  if !c.backed then .ok ({ c with current := some k }, file)
  else if file.writable then
    .ok ({ c with current := some k }, { file with contents := some k.toJson })
  else .error .io

/-- The coloring for a signature, computed where neither memory nor file has it. -/
def getOrCompute (s : Signature) (compute : Unit → Except ColoringError Coloring) :
    EStateM ColoringError (ColoringCache × ColoringFile) Answer := fun (c, file) =>
  match c.remembered s with
  | some k => .ok ⟨k, false⟩ (c, file)
  | none =>
    match c.stored s file with
    | some k => .ok ⟨k, false⟩ ({ c with current := some k }, file)
    | none =>
      match compute () with
      | .error e => .error e (c, file)
      | .ok k =>
        let k := k.withSignature s
        match c.keep k file with
        | .error e => .error e (c, file)
        | .ok state => .ok ⟨k, true⟩ state

/-- Forgets the coloring in memory. -/
def invalidate (c : ColoringCache) : ColoringCache := { c with current := none }

end ColoringCache

end Mdao
