-- SUMMARY: Rate equations as they are set: text that was read and that has a value for a typical picture.
import RateControl.Equation.Meaning
import RateControl.Equation.Parser
import RateControl.WhiteSpace

/-! # Rate equations

An equation is read from its text without white space. It is then tried on a typical picture, so that an
equation without any sense is found before the first picture comes. -/

namespace RateControl

structure Equation where
  /-- The text as it was set. -/
  source : String
  expr : Expr

namespace Equation

variable {σ δ : Type}

/-! ## A typical picture -/

/-- A predicted picture of 396 macroblocks at QP 2. -/
def typicalRecord [Scalar σ] : Record σ where
  quantizer := 236.0
  plannedQuantizer := 0.0
  intraBits := 20000
  predictedBits := 60000
  motionBits := 4000
  miscBits := 400
  forwardCode := 1
  backwardCode := 1
  mcVarSum := 396 * 300
  varSum := 396 * 500
  intraCount := 40

variable [Scalar δ]

def piValue : δ := 3.141592653589793

def eulerValue : δ := 2.718281828459045

/-- The values of the symbols for the typical picture, with averages that all differ. -/
def typicalTable : Symbol → δ
  | .pi                       => piValue
  | .euler                    => eulerValue
  | .intraTexture             => 20000.0 * 236.0
  | .predictedTexture         => 60000.0 * 236.0
  | .texture                  => 80000.0 * 236.0
  | .motion                   => 4000.0 / 396.0
  | .motionCode               => 1.0
  | .intraShare               => 40.0 / 396.0
  | .mcVariance               => 300.0
  | .variance                 => 500.0
  | .isIntra                  => 0.0
  | .isPredicted              => 1.0
  | .isBidirectional          => 0.0
  | .averageQuantizer         => 250.0
  | .compression              => 0.5
  | .intraOfIntra             => 20000000.0
  | .intraOfPredicted         => 5000000.0
  | .predictedOfPredicted     => 15000000.0
  | .predictedOfBidirectional => 8000000.0
  | .averageTexture           => 20000000.0

/-! ## Reading -/

/-- Reads the text of an equation. -/
def read? (source : String) : Option Equation :=
  (Expr.read? (compact source)).map (⟨source, ·⟩)

variable [Scalar σ] [Precision σ δ]

/-- The value for a picture. -/
def eval (e : Equation) (table : Symbol → δ) (r : Record σ) : Logged (Event σ δ) δ :=
  e.expr.eval table r

/-- Reads the text of an equation and tries it on the typical picture. -/
def parse (source : String) : Attempt (Event σ δ) (Fault σ δ) Equation :=
  match read? source with
  | none   => throw (.invalidEquation source .malformed)
  | some e => do
    let x : δ ← Attempt.ofLogged (e.eval typicalTable (typicalRecord : Record σ))
    if Scalar.isNaN x then throw (.invalidEquation source .notANumber) else return e

end Equation
end RateControl
