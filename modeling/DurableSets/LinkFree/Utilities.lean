import DurableSets.Core.Line
import Mathlib.Data.BitVec

namespace LinkFree

abbrev Uchar := BitVec 8

def HIGH_CHAR_MASK : Uchar := 0x80#8

def LOW_MASK : Uchar := 0x1#8

def flipV1 (oldMetaData : Uchar) : Uchar :=
  let newV1 := (oldMetaData &&& HIGH_CHAR_MASK) ^^^ HIGH_CHAR_MASK
  newV1 + (oldMetaData &&& ~~~HIGH_CHAR_MASK)

def isValid (oldMetaData : Uchar) : Bool :=
  let v1 := (oldMetaData &&& HIGH_CHAR_MASK) >>> 7
  let v2 := oldMetaData &&& LOW_MASK
  v1 == v2

-- what makeValid stores when it does not return early
def makeValid (oldMetaData : Uchar) : Uchar :=
  let v1 := (oldMetaData &&& HIGH_CHAR_MASK) >>> 7
  v1 + (oldMetaData &&& ~~~LOW_MASK)

theorem isValid_flipV1 : ∀ m : Uchar, isValid (flipV1 m) = !isValid m := by decide +kernel

theorem isValid_makeValid : ∀ m : Uchar, isValid (makeValid m) = true := by decide +kernel

structure Ptr where
  ref : Option Loc
  marked : Bool
deriving DecidableEq

namespace Ptr

def null : Ptr := ⟨none, false⟩

def addr (x : Loc) : Ptr := ⟨some x, false⟩

def isMarked (p : Ptr) : Bool := p.marked

def getRef (p : Ptr) : Ptr := ⟨p.ref, false⟩

def mark (p : Ptr) : Ptr := ⟨p.ref, true⟩

end Ptr

end LinkFree
