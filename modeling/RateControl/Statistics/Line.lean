-- SUMMARY: The line of a statistics log, as a table of labelled fields that serves the writer and the reader.
import RateControl.Statistics.Record

/-! # Statistics lines

A line holds the record of one picture as fifteen labelled fields, which always come in the same order:

    in:0 out:0 type:1 q:236 itex:20000 ptex:0 mv:0 misc:120 fcode:1 bcode:1 mc-var:0 var:30000 icount:396 skipcount:0 hbits:40

The writer puts one space between the fields. The reader takes any blanks, or none, in front of a label
and behind the last field, and takes no field whose value does not fit its range. -/

namespace RateControl

open Numeral

/-- A statistics line. The plan of a record is not written. -/
structure Line (σ : Type) where
  /-- The index of the picture in coding order. -/
  picture : Nat
  /-- The index of the picture in display order. -/
  position : Int
  record : Record σ

namespace Line

variable {σ : Type} [Scalar σ] [Binary σ]

-- ---------------------------------------------------------------------------
-- Quantizers
-- ---------------------------------------------------------------------------

/-- The quantizer written for `x`. -/
def quantizerText (x : σ) : List Char := Shortest.text Decimal.text x

/-- Takes the letters at the start of the text, in upper or lower case. `word` is in lower case. -/
def readWord (word : List Char) (s : List Char) : Option (List Char) :=
  if (s.take word.length).map Char.toLower = word then some (s.drop word.length) else none

/-- Reads a decimal, or one of the words `nan` and `inf` without a sign. -/
def readQuantizer (s : List Char) : Option (σ × List Char) :=
  match Decimal.read s with
  | some (d, rest) => some (d.value, rest)
  | none =>
    match readWord ['n', 'a', 'n'] s, readWord ['i', 'n', 'f'] s with
    | some rest, _    => some (0.0 / 0.0, rest)
    | none, some rest => some (1.0 / 0.0, rest)
    | none, none      => none

-- ---------------------------------------------------------------------------
-- Fields
-- ---------------------------------------------------------------------------

/-- A labelled field of a line: how its value is written, and how a value that is read changes a line. -/
structure Field (σ : Type) where
  label : String
  write : Line σ → List Char
  read : List Char → Option ((Line σ → Line σ) × List Char)

namespace Field

def int32 (label : String) (get : Record σ → Int32) (set : Int32 → Record σ → Record σ) : Field σ where
  label := label
  write l := intText (get l.record).toInt
  read s := (readInt32 s).map fun (n, rest) => (fun l => { l with record := set n l.record }, rest)

def int64 (label : String) (get : Record σ → Int64) (set : Int64 → Record σ → Record σ) : Field σ where
  label := label
  write l := intText (get l.record).toInt
  read s := (readInt64 s).map fun (n, rest) => (fun l => { l with record := set n l.record }, rest)

def picture : Field σ where
  label := "in:"
  write l := natText l.picture
  read s := (readNat64 s).map fun (n, rest) => (fun l => { l with picture := n }, rest)

def position : Field σ where
  label := "out:"
  write l := intText l.position
  read s := (readInt64 s).map fun (n, rest) => (fun l => { l with position := n.toInt }, rest)

def pictureType : Field σ where
  label := "type:"
  write l := natText l.record.pictureType.code
  read s := do
    let (n, rest) ← readInt64 s
    let t ← PictureType.ofCode? n.toInt
    return (fun l => { l with record := { l.record with pictureType := t } }, rest)

/-- The quantizer that is read is also the planned one, until there is a plan. -/
def quantizer : Field σ where
  label := "q:"
  write l := quantizerText l.record.quantizer
  read s := (readQuantizer s).map fun (q, rest) =>
    (fun l => { l with record := { l.record with quantizer := q, plannedQuantizer := q } }, rest)

end Field

/-- The fields of a line, in their order. -/
def fields : List (Field σ) :=
  [.picture,
   .position,
   .pictureType,
   .quantizer,
   .int32 "itex:" (·.intraBits) fun n r => { r with intraBits := n },
   .int32 "ptex:" (·.predictedBits) fun n r => { r with predictedBits := n },
   .int32 "mv:" (·.motionBits) fun n r => { r with motionBits := n },
   .int32 "misc:" (·.miscBits) fun n r => { r with miscBits := n },
   .int32 "fcode:" (·.forwardCode) fun n r => { r with forwardCode := n },
   .int32 "bcode:" (·.backwardCode) fun n r => { r with backwardCode := n },
   .int64 "mc-var:" (·.mcVarSum) fun n r => { r with mcVarSum := n },
   .int64 "var:" (·.varSum) fun n r => { r with varSum := n },
   .int32 "icount:" (·.intraCount) fun n r => { r with intraCount := n },
   .int32 "skipcount:" (·.skipCount) fun n r => { r with skipCount := n },
   .int32 "hbits:" (·.headerBits) fun n r => { r with headerBits := n }]

-- ---------------------------------------------------------------------------
-- Writing
-- ---------------------------------------------------------------------------

/-- The line as text, without the semicolon that ends it in a log. -/
def text (l : Line σ) : List Char :=
  [' '].intercalate (fields.map fun f => f.label.toList ++ f.write l)

/-- The line as it stands in a log, semicolon included. -/
def logText (l : Line σ) : String := .ofList (l.text ++ [';'])

-- ---------------------------------------------------------------------------
-- Reading
-- ---------------------------------------------------------------------------

/-- Space, tab and the two line ends are blanks. -/
def isBlank (c : Char) : Bool := c = ' ' ∨ c = '\t' ∨ c = '\r' ∨ c = '\n'

/-- Takes a label from the start of the text. -/
def dropLabel : List Char → List Char → Option (List Char)
  | [], s           => some s
  | c :: cs, d :: s => if c = d then dropLabel cs s else none
  | _ :: _, []      => none

/-- Reads fields one after the other into a line. -/
def readFields : List (Field σ) → Line σ → List Char → Option (Line σ × List Char)
  | [], l, s      => some (l, s)
  | f :: fs, l, s => do
    let s ← dropLabel f.label.toList (s.dropWhile isBlank)
    let (update, s) ← f.read s
    readFields fs (update l) s

/-- Reads a whole line, without the semicolon. -/
def read? (s : List Char) : Option (Line σ) := do
  let (l, s) ← readFields fields ⟨0, 0, .blank⟩ s
  guard (s.all isBlank)
  return l

end Line
end RateControl
