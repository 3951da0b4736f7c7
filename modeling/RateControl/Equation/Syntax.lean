-- SUMMARY: The language of rate equations: symbols, functions, operators, and expressions over them.
import RateControl.Numeral.Decimal

/-! # Syntax of rate equations

A rate equation says how many bits a picture deserves. It is an expression over numbers and over
symbols for what is known of the picture and of the pictures before it. -/

namespace RateControl

/-- What an equation can refer to by name. -/
inductive Symbol where
  | pi
  | euler
  /-- Intra, predicted and all texture of the picture, each times its quantizer. -/
  | intraTexture
  | predictedTexture
  | texture
  /-- Motion vector bits per macroblock. -/
  | motion
  /-- The size code of the motion vectors. -/
  | motionCode
  /-- The share of intra macroblocks. -/
  | intraShare
  /-- Motion-compensated variance and variance per macroblock. -/
  | mcVariance
  | variance
  /-- Whether the picture has the type, as 1 or 0. -/
  | isIntra
  | isPredicted
  | isBidirectional
  /-- The average quantizer of pictures of the same type. -/
  | averageQuantizer
  /-- The compression of the quantizer curve. -/
  | compression
  /-- Average textures times quantizer: intra texture of I and of P pictures, predicted texture of P and
      of B pictures, and all texture of pictures of the same type. -/
  | intraOfIntra
  | intraOfPredicted
  | predictedOfPredicted
  | predictedOfBidirectional
  | averageTexture
deriving DecidableEq

namespace Symbol

/-- All symbols, in the order of a table of their values. -/
def all : List Symbol :=
  [pi, euler, intraTexture, predictedTexture, texture, motion, motionCode, intraShare, mcVariance,
   variance, isIntra, isPredicted, isBidirectional, averageQuantizer, compression, intraOfIntra,
   intraOfPredicted, predictedOfPredicted, predictedOfBidirectional, averageTexture]

def name : Symbol → String
  | pi                       => "PI"
  | euler                    => "E"
  | intraTexture             => "iTex"
  | predictedTexture         => "pTex"
  | texture                  => "tex"
  | motion                   => "mv"
  | motionCode               => "fCode"
  | intraShare               => "iCount"
  | mcVariance               => "mcVar"
  | variance                 => "var"
  | isIntra                  => "isI"
  | isPredicted              => "isP"
  | isBidirectional          => "isB"
  | averageQuantizer         => "avgQP"
  | compression              => "qComp"
  | intraOfIntra             => "avgIITex"
  | intraOfPredicted         => "avgPITex"
  | predictedOfPredicted     => "avgPPTex"
  | predictedOfBidirectional => "avgBPTex"
  | averageTexture           => "avgTex"

/-- The symbol with this name. -/
def ofName? (s : String) : Option Symbol := all.find? (·.name == s)

end Symbol

/-- The functions of one argument. -/
inductive UnaryFunction where
  /-- The quantizer at which the texture of the picture takes so many bits. -/
  | quantizerFor
  /-- The bits that the texture of the picture takes at a quantizer. -/
  | bitsAt
  | sqrt
  | exp
  | log
  | abs
deriving DecidableEq

namespace UnaryFunction

def all : List UnaryFunction := [quantizerFor, bitsAt, sqrt, exp, log, abs]

def name : UnaryFunction → String
  | quantizerFor => "bits2qp"
  | bitsAt       => "qp2bits"
  | sqrt         => "sqrt"
  | exp          => "exp"
  | log          => "log"
  | abs          => "abs"

/-- The function with this name. -/
def ofName? (s : String) : Option UnaryFunction := all.find? (·.name == s)

end UnaryFunction

/-- The functions of two arguments. -/
inductive BinaryFunction where
  | min
  | max
  | pow
deriving DecidableEq

namespace BinaryFunction

def all : List BinaryFunction := [min, max, pow]

def name : BinaryFunction → String
  | min => "min"
  | max => "max"
  | pow => "pow"

/-- The function with this name. -/
def ofName? (s : String) : Option BinaryFunction := all.find? (·.name == s)

end BinaryFunction

inductive Operator where
  | add
  | sub
  | mul
  | div
  | pow
deriving DecidableEq

inductive Expr where
  | number (d : Decimal)
  | symbol (c : Symbol)
  | neg (a : Expr)
  | binary (op : Operator) (a b : Expr)
  | unaryCall (f : UnaryFunction) (a : Expr)
  | binaryCall (f : BinaryFunction) (a b : Expr)
  /-- Both are evaluated, and the value is that of the second. -/
  | andThen (a b : Expr)
deriving DecidableEq

namespace Expr

/-- The call of a function by name. The name and the number of arguments decide on the function. -/
def call? (name : String) : List Expr → Option Expr
  | [a]    => (UnaryFunction.ofName? name).map (.unaryCall · a)
  | [a, b] => (BinaryFunction.ofName? name).map (.binaryCall · a b)
  | _      => none

end Expr
end RateControl
