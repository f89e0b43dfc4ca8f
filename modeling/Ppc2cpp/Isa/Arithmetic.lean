import Ppc2cpp.Isa.Cpu
import Ppc2cpp.DataFlow.Disassembler

/-! What the instructions compute.

An integer instruction gives a word, a carry and an overflow. The arithmetic of the floating
point unit, and the conversions that go with it, are left to the implementation (`Processor`);
what happens to an operand that is a signaling NaN is not. -/
namespace Ppc2cpp.Isa

structure Outcome where
  value : Word
  carry : Bool := false
  overflow : Bool := false
deriving DecidableEq, Repr

/-- Every instruction of the add and subtract family is a sum of two words and a bit. -/
def sum (x y : Word) (c : Bool) : Outcome :=
  let value := x + y + (if c then 1 else 0)
  { value := value
    carry := 2 ^ 32 ≤ x.toNat + y.toNat + c.toNat
    overflow := x.toInt + y.toInt + c.toNat ≠ value.toInt }

def plain (value : Word) : Option Outcome := some {value := value}

/-- The low half of a signed product. -/
def multiplyLow (x y : Word) : Option Outcome :=
  let value := x * y
  some {value := value, overflow := x.toInt * y.toInt ≠ value.toInt}

def multiplyHigh (x y : Word) : Option Outcome :=
  plain ((x.signExtend 64 * y.signExtend 64) >>> 32 |>.truncate 32)

def multiplyHighUnsigned (x y : Word) : Option Outcome :=
  plain ((x.zeroExtend 64 * y.zeroExtend 64) >>> 32 |>.truncate 32)

/-- The quotient is undefined for a zero divisor and where it does not fit. -/
def divide (x y : Word) : Option Outcome :=
  if y = 0 ∨ (x = 0x80000000 ∧ y = -1) then none else plain (x.sdiv y)

def divideUnsigned (x y : Word) : Option Outcome :=
  if y = 0 then none else plain (x / y)

/-- A shift amount has six bits. -/
def shiftAmount (x : Word) : Nat := x.toNat % 64

/-- The carry of an algebraic shift says that a negative number lost a one bit. -/
def shiftRightAlgebraic (x : Word) (n : Nat) : Option Outcome :=
  some
    { value := x.sshiftRight n
      carry := x.msb && x &&& BitVec.ofNat 32 (2 ^ n - 1) != 0 }

/-- The bits from `mb` to `me`, around the end of the word if `me` comes first. -/
def mask (mb me : Fin 32) : Word :=
  let fromMb : Word := (-1 : Word) >>> mb.val
  let toMe : Word := (-1 : Word) <<< (31 - me.val)
  if mb ≤ me then fromMb &&& toMe else fromMb ||| toMe

/-! ### Floating point -/

def isNaN (x : BitVec 64) : Bool :=
  (x >>> 52).truncate 11 == (0x7FF : BitVec 11) && x.truncate 52 != (0 : BitVec 52)

def isSignaling (x : BitVec 64) : Bool := isNaN x && !x.getMsbD 12

def quiet (x : BitVec 64) : BitVec 64 := x ||| 0x0008000000000000

def negate (x : BitVec 64) : BitVec 64 := x ^^^ 0x8000000000000000

def absolute (x : BitVec 64) : BitVec 64 := x &&& 0x7FFFFFFFFFFFFFFF

/-- Minus zero is not less than zero, and a NaN is not at least zero. -/
def atLeastZero (x : BitVec 64) : Bool := !isNaN x && (!x.msb || absolute x == 0)

/-- The four outcomes of a floating point comparison, in the order of the bits of a field of
the condition register. -/
structure Comparison where
  less : Bool
  greater : Bool
  equal : Bool
  unordered : Bool

/-- What the architecture leaves to the implementation. -/
structure Processor where
  /-- Paired single mode: single precision results are written to both halves of a register,
  and the paired single instructions are valid. -/
  pairedSingle : Bool
  toDouble : Word → BitVec 64
  toSingle : BitVec 64 → Word
  compare : BitVec 64 → BitVec 64 → Comparison
  /-- The result of an operation none of whose operands is a signaling NaN, given the status and
  control register; none where an enabled exception leaves the target as it was. -/
  arithmetic : Form → List (BitVec 64) → Word → Option (BitVec 64)
  /-- The status and control register after an operation. -/
  status : Form → List (BitVec 64) → Word → Word
  /-- The high half of the result of a conversion to an integer. -/
  conversionHigh : Word
  /-- The numbers a paired single load reads by a quantization register. -/
  dequantize : Word → Memory → Word → Bool → BitVec 64 × BitVec 64
  quantize : Word → BitVec 64 × BitVec 64 → Bool → List (BitVec 8)

/-- The result of an operation on a signaling NaN whose exception is disabled. -/
def invalidResult (P : Processor) (form : Form) (operands : List (BitVec 64)) : BitVec 64 :=
  let nan := quiet ((operands.find? isNaN).getD 0)
  if form ∈ [.FCTIW, .FCTIW_, .FCTIWZ, .FCTIWZ_] then P.conversionHigh ++ (0x80000000 : Word)
  -- rounding to single precision drops the low bits of the fraction
  else if form ∈ [.FRSP, .FRSP_] then nan &&& 0xFFFFFFFFE0000000
  else nan

/-- The result of a floating point operation; none if the target keeps its value. The operands
are in the order in which a NaN among them is looked for. -/
def floatResult (P : Processor) (form : Form) (operands : List (BitVec 64)) (fpscr : Word) :
    Option (BitVec 64) :=
  if operands.any isSignaling then
    if VE fpscr then none else some (invalidResult P form operands)
  else P.arithmetic form operands fpscr

end Ppc2cpp.Isa
