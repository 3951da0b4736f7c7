-- SUMMARY: Statistics logs: reading and writing the text of a first pass, and the table of records that a second pass works on.
import RateControl.Statistics.Line

/-! # Statistics logs

A log is a text of lines that end in semicolons. A second pass works on a table with one record per
picture in coding order, in which pictures without a line are skipped pictures. -/

namespace RateControl

/-- The pictures of a log with their indices in coding order, in the order of the lines. -/
structure Log (σ : Type) where
  lines : List (Nat × Record σ)
deriving BEq

namespace Log

variable {σ δ : Type} [Scalar σ]

/-- The log of records that are given in coding order. -/
def ofRecords (rs : List (Record σ)) : Log σ := ⟨rs.zipIdx.map fun (r, n) => (n, r)⟩

-- ---------------------------------------------------------------------------
-- Text
-- ---------------------------------------------------------------------------

/-- The text of a log, each line followed by a line end. -/
def text [Binary σ] (log : Log σ) : String :=
  String.join (log.lines.map fun (n, r) => (⟨n, n, r⟩ : Line σ).logText ++ "\n")

/-- The segments of a text that end in a semicolon. What follows the last semicolon is dropped. -/
def segments (s : List Char) : List (List Char) := (s.splitOn ';').dropLast

/-- Reads the segments from the one with index `n` on. -/
def readSegments [Binary σ] :
    Nat → List (List Char) → Except (Fault σ δ) (List (Nat × Record σ))
  | _, []      => .ok []
  | n, s :: ss =>
    match Line.read? s with
    | none   => .error (.corruptedStatistics n)
    | some l => do return (l.picture, l.record) :: (← readSegments (n + 1) ss)

/-- Reads the text of a log. A log has at least one line. -/
def read [Binary σ] (s : String) : Except (Fault σ δ) (Log σ) :=
  match segments s.toList with
  | [] => .error .emptyStatistics
  | ss => do return ⟨← readSegments 0 ss⟩

-- ---------------------------------------------------------------------------
-- Table
-- ---------------------------------------------------------------------------

/-- The first index that lies outside a table of `entries` records. -/
def outlier? (log : Log σ) (entries : Nat) : Option Nat :=
  (log.lines.map (·.1)).find? (entries ≤ ·)

/-- The table of a second pass, with room for `extra` pictures behind the last line. Of two lines with
    one index the later counts. -/
def table (log : Log σ) (extra mbCount : Nat) : Except (Fault σ δ) (List (Record σ)) :=
  let entries := log.lines.length + extra
  if entries = 0 then .error .emptyStatistics
  else
    match log.outlier? entries with
    | some n => .error (.pictureOutOfRange n entries)
    | none   =>
      .ok (log.lines.foldl (fun t (n, r) => t.set n r) (.replicate entries (.skipped mbCount)))

end Log
end RateControl
