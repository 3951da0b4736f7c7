-- SUMMARY: The value of a rate equation for a picture.
import RateControl.Equation.Syntax
import RateControl.Statistics.Record

/-! # Meaning of rate equations

An expression has a value for given values of the symbols and the record of a picture. Operands are
evaluated from the left, which shows only in the order of events. -/

namespace RateControl

variable {σ δ : Type} [Scalar δ] [Precision σ δ]

def Operator.apply : Operator → δ → δ → δ
  | .add => (· + ·)
  | .sub => (· - ·)
  | .mul => (· * ·)
  | .div => (· / ·)
  | .pow => Scalar.pow

def BinaryFunction.apply : BinaryFunction → δ → δ → δ
  | .min => Scalar.min
  | .max => Scalar.max
  | .pow => Scalar.pow

def UnaryFunction.apply (r : Record σ) : UnaryFunction → δ → Logged (Event σ δ) δ
  | .quantizerFor, x => r.quantizerFor x
  | .bitsAt, x       => r.bitsAt x
  | .sqrt, x         => return Scalar.sqrt x
  | .exp, x          => return Scalar.exp x
  | .log, x          => return Scalar.log x
  | .abs, x          => return Scalar.abs x

namespace Expr

/-- The value of an expression for a picture. -/
def eval (table : Symbol → δ) (r : Record σ) : Expr → Logged (Event σ δ) δ
  | .number d         => return d.value
  | .symbol c         => return table c
  | .neg a            => do return -(← eval table r a)
  | .binary op a b    => do
    let x ← eval table r a
    let y ← eval table r b
    return op.apply x y
  | .unaryCall f a    => do f.apply r (← eval table r a)
  | .binaryCall f a b => do
    let x ← eval table r a
    let y ← eval table r b
    return f.apply x y
  | .andThen a b      => do
    let _ ← eval table r a
    eval table r b

end Expr
end RateControl
