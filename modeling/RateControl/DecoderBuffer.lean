-- SUMMARY: The model of the decoder's input buffer, which pictures drain and the channel fills.
import RateControl.Event
import RateControl.Logged

/-! # Decoder buffer

Every coded picture takes its bits out of the buffer, and the channel then fills it, at a rate between
the least and the greatest channel rate. A buffer that would overflow at the least rate takes stuffing
bytes instead. -/

namespace RateControl

/-- A decoder buffer and what it holds. Amounts are in bits, rates in bits per picture. -/
structure Buffer (δ : Type) where
  /-- The size, 0 for no buffer. -/
  size : Int32
  minRate : δ
  maxRate : δ
  /-- The least number of stuffing bytes where any are needed. -/
  minStuffing : Int32
  occupancy : δ

namespace Buffer

variable {σ δ : Type} [Scalar δ]

/-- The buffer of the settings as it is at the start. -/
def ofSettings (s : Settings σ) : Buffer δ where
  size := s.bufferSize
  minRate := Scalar.ofInt s.minRate.toInt / s.frameRate
  maxRate := Scalar.ofInt s.maxRate.toInt / s.frameRate
  minStuffing := s.minStuffing
  occupancy := Scalar.ofInt <|
    if s.initialOccupancy ≠ 0 then s.initialOccupancy.toInt
    else (Int32.ofInt ((s.bufferSize.toInt * 3).tdiv 4)).toInt

def isEnabled (b : Buffer δ) : Bool := b.size ≠ 0

/-- The size as a scalar. -/
def capacity (b : Buffer δ) : δ := Scalar.ofInt b.size.toInt

/-- The same buffer, half full. -/
def halfFull (b : Buffer δ) : Buffer δ :=
  { b with occupancy := Scalar.ofInt (b.size.toInt.tdiv 2) }

/-- Takes a picture of `bits` out. -/
def drained (b : Buffer δ) (bits : Int) : Buffer δ × Bool :=
  let left := b.occupancy - Scalar.ofInt bits
  if left < 0.0 then ({ b with occupancy := 0.0 }, true) else ({ b with occupancy := left }, false)

/-- The whole bits that the channel brings: the room that is left, brought into the range of the rates. -/
def refill (b : Buffer δ) : Int :=
  let room := Scalar.toInt64 (b.capacity - b.occupancy - 1.0)
  let least := Scalar.toInt64 b.minRate
  let greatest := Scalar.toInt64 b.maxRate
  if room < least then least
  else if greatest < room then greatest
  else room

/-- The stuffing bytes that bring an overflow back. -/
def stuffing (b : Buffer δ) : Int :=
  let n := Scalar.ceiling (-2147483648) 2147483647 ((b.occupancy - b.capacity) / 8.0)
  if n < b.minStuffing.toInt then b.minStuffing.toInt else n

/-- Takes a picture of `bits` out and refills. Yields the stuffing bytes that the picture needs. -/
def update (b : Buffer δ) (bits : Int) : Logged (Event σ δ) (Int × Buffer δ) := do
  if !b.isEnabled then return (0, b)
  let (b, ranDry) := b.drained bits
  .noteIf ranDry .underflow
  let b := { b with occupancy := b.occupancy + Scalar.ofInt b.refill }
  if b.capacity < b.occupancy then
    let n := b.stuffing
    .note (.stuffing n)
    return (n, { b with occupancy := Scalar.max (b.occupancy - 8.0 * Scalar.ofInt n) 0.0 })
  return (0, b)

end Buffer
end RateControl
