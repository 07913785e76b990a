import Mismatch.Trait.Basic
import Mismatch.Ty.Names

/-!
# Standard items

The traits and types of the standard library that conversions go through, and the names under which
its types are written.
-/

namespace Mismatch.Prelude

def fromTrait : Item := ⟨"From", "core::convert"⟩
def tryFromTrait : Item := ⟨"TryFrom", "core::convert"⟩
def fromStrTrait : Item := ⟨"FromStr", "core::str"⟩
def toOwnedTrait : Item := ⟨"ToOwned", "alloc::borrow"⟩
def toStringTrait : Item := ⟨"ToString", "alloc::string"⟩
def borrowTrait : Item := ⟨"Borrow", "core::borrow"⟩
def borrowMutTrait : Item := ⟨"BorrowMut", "core::borrow"⟩
def asRefTrait : Item := ⟨"AsRef", "core::convert"⟩
def asMutTrait : Item := ⟨"AsMut", "core::convert"⟩
def derefTrait : Item := ⟨"Deref", "core::ops"⟩
def displayTrait : Item := ⟨"Display", "core::fmt"⟩
def cloneTrait : Item := ⟨"Clone", "core::clone"⟩

def stringType : Item := ⟨"String", "alloc::string"⟩
def resultType : Item := ⟨"Result", "core::result"⟩
def optionType : Item := ⟨"Option", "core::option"⟩
def vecType : Item := ⟨"Vec", "alloc::vec"⟩
def boxType : Item := ⟨"Box", "alloc::boxed"⟩
def parseIntError : Item := ⟨"ParseIntError", "core::num"⟩
def parseFloatError : Item := ⟨"ParseFloatError", "core::num"⟩
def parseBoolError : Item := ⟨"ParseBoolError", "core::str"⟩
def parseCharError : Item := ⟨"ParseCharError", "core::char"⟩
def tryFromIntError : Item := ⟨"TryFromIntError", "core::num"⟩
def infallible : Item := ⟨"Infallible", "core::convert"⟩
def ioError : Item := ⟨"Error", "std::io"⟩
def fmtError : Item := ⟨"Error", "core::fmt"⟩

/-- All roles filled with the standard items. -/
def known : KnownItems where
  fromTrait := some fromTrait
  tryFromTrait := some tryFromTrait
  fromStrTrait := some fromStrTrait
  toOwnedTrait := some toOwnedTrait
  toStringTrait := some toStringTrait
  borrowTrait := some borrowTrait
  borrowMutTrait := some borrowMutTrait
  asRefTrait := some asRefTrait
  asMutTrait := some asMutTrait
  derefTrait := some derefTrait
  resultType := some resultType
  stringType := some stringType

/-- The standard types with the number of their arguments. Two of them share a short name. -/
def names : NameTable where
  entries :=
    [⟨stringType, 0⟩, ⟨resultType, 2⟩, ⟨optionType, 1⟩, ⟨vecType, 1⟩, ⟨boxType, 1⟩,
      ⟨parseIntError, 0⟩, ⟨parseFloatError, 0⟩, ⟨parseBoolError, 0⟩, ⟨parseCharError, 0⟩,
      ⟨tryFromIntError, 0⟩, ⟨infallible, 0⟩, ⟨ioError, 0⟩, ⟨fmtError, 0⟩]

def stringTy : Ty := .adt stringType []

def resultTy (ok err : Ty) : Ty := .adt resultType [ok, err]

end Mismatch.Prelude
