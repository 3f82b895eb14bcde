import Mathlib.Init

/-!
# Constants

The values of `Constants.hpp` that the modelled functions read.
-/

namespace LogSurgeon

/-- The greatest Unicode code point. -/
def cUnicodeMax : Nat := 0x10FFFF

/-- The number of values of a byte. -/
def cSizeOfByte : Nat := 256

/-- The lookahead of an item that has none. -/
def cNullSymbol : Nat := 10000000

/-- The number of items of the static storage of a buffer. -/
def cStaticByteBuffSize : Nat := 48000

/-- What a call reports to its caller. -/
inductive ErrorCode where
  | success
  | bufferOutOfBounds
  | logFullyConsumed
  | badParam
  | errno
  | endOfFile
  | fileNotFound
  | notInit
  | truncated
deriving DecidableEq, Repr

/-- The token types that every lexer has. -/
inductive SymbolId where
  | tokenEnd
  | tokenUncaughtString
  | tokenInt
  | tokenFloat
  | tokenHex
  | tokenHeader
  | tokenNewline
deriving DecidableEq, Repr

/-- The underlying value. -/
def SymbolId.toNat : SymbolId → Nat
  | tokenEnd => 0
  | tokenUncaughtString => 1
  | tokenInt => 2
  | tokenFloat => 3
  | tokenHex => 4
  | tokenHeader => 5
  | tokenNewline => 6

def cTokenEnd : String := "$end"

def cTokenUncaughtString : String := "$UncaughtString"

def cTokenInt : String := "int"

def cTokenFloat : String := "float"

def cTokenHex : String := "hex"

def cTokenHeader : String := "header"

def cTokenNewline : String := "newLine"

/-! ## Code units that are invalid in UTF-8 -/

def cCharEOF : UInt8 := 0xFF

def cCharStartOfFile : UInt8 := 0xFD

end LogSurgeon
