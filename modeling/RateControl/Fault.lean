-- SUMMARY: Why rate control refuses its input or gives up, and the text of each cause.
import RateControl.Validation

/-! # Faults

Everything that can stop the set-up of a session or an estimate. Each cause has one constructor, and
the wording is in one function. -/

namespace RateControl

/-- What is wrong with a rate equation. -/
inductive EquationFlaw where
  /-- It is not a sentence of the language. -/
  | malformed
  /-- It has no value for a typical picture. -/
  | notANumber
deriving DecidableEq

inductive Fault (σ δ : Type) where
  /-- The settings were rejected before anything was built. -/
  | invalidSetting (violation : InvalidSetting σ)
  | invalidEquation (source : String) (flaw : EquationFlaw)
  /-- The rate equation has no value for a picture. -/
  | equationNaN (source : String)
  | invalidDirectives (source : String)
  /-- The line with this index, counted from 0, is no statistics line. -/
  | corruptedStatistics (line : Nat)
  /-- A picture lies outside a table of `entries` pictures. -/
  | pictureOutOfRange (picture entries : Nat)
  | emptyStatistics
  /-- The bitrate cannot carry the headers and motion vectors alone. -/
  | bitrateTooLow (available required : δ)
  /-- No rate factor gives a plan that fits. -/
  | noConvergence
  /-- The planned size misses the requested size by more than one percent. -/
  | toleranceExceeded (expected available : δ)

namespace EquationFlaw

def message : EquationFlaw → String
  | malformed  => "Parsing failed"
  | notANumber => "evaluates to NaN"

end EquationFlaw

namespace Fault

/-- The text of a fault. -/
def message : Fault Float32 Float → String
  | invalidSetting v          => v.message
  | invalidEquation source f  => s!"Error parsing rc_eq \"{source}\": {f.message}"
  | equationNaN source        => s!"Error evaluating rc_eq \"{source}\""
  | invalidDirectives source  => s!"Error parsing rc_override \"{source}\": Parsing failed"
  | corruptedStatistics n     => s!"The stats content is invalid at line {n}: Parsing failed"
  | pictureOutOfRange n m     => s!"Stats entry {n} out of range (log holds {m} entries)"
  | emptyStatistics           => "The stats content is empty"
  | bitrateTooLow a r         =>
    s!"Requested bitrate too low: {plainText a} bits available, {plainText r} bits needed for headers and motion vectors"
  | noConvergence             =>
    "Two-pass rate control did not converge, the bitrate is infeasible"
  | toleranceExceeded e a     =>
    s!"Error: 2pass curve failed to converge: expected {plainText e} bits, available {plainText a} bits"

end Fault
end RateControl
