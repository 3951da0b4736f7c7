-- SUMMARY: Picture types with their codes and names, and tables with one value per picture type.

/-! # Picture types

The five types of a coded picture. Statistics logs number them from 1; the switching variants share
one type and are read from two codes. -/

namespace RateControl

inductive PictureType where
  /-- Coded without reference to other pictures. -/
  | intra
  /-- Predicted from an earlier picture. -/
  | predicted
  /-- Predicted from an earlier and a later picture. -/
  | bidirectional
  /-- Predicted with global motion compensation. -/
  | sprite
  /-- Switching intra or switching predicted. -/
  | switching
deriving DecidableEq, Inhabited

namespace PictureType

/-- All picture types, in the order of their codes. -/
def all : List PictureType := [intra, predicted, bidirectional, sprite, switching]

/-- The code that a statistics log writes for the type. -/
def code : PictureType → Nat
  | intra         => 1
  | predicted     => 2
  | bidirectional => 3
  | sprite        => 4
  | switching     => 5

/-- The type that a code of a statistics log stands for. -/
def ofCode? : Int → Option PictureType
  | 1     => some intra
  | 2     => some predicted
  | 3     => some bidirectional
  | 4     => some sprite
  | 5 | 6 => some switching
  | _     => none

@[simp] theorem ofCode?_code (t : PictureType) : ofCode? t.code = some t := by
  cases t <;> rfl

/-- The letter that stands for the type in log messages. -/
def letter : PictureType → Char
  | intra         => 'I'
  | predicted     => 'P'
  | bidirectional => 'B'
  | sprite        => 'S'
  | switching     => 'i'

/-- The name of the type. -/
def name : PictureType → String
  | intra         => "Intra picture"
  | predicted     => "Predicted picture"
  | bidirectional => "Bi-predicted picture"
  | sprite        => "Sprite picture"
  | switching     => "Switching picture"

end PictureType

/-- One value per picture type. -/
@[ext] structure PerType (α : Type) where
  intra : α
  predicted : α
  bidirectional : α
  sprite : α
  switching : α

namespace PerType

variable {α : Type}

/-- The same value for every type. -/
def replicate (a : α) : PerType α := ⟨a, a, a, a, a⟩

def get (p : PerType α) : PictureType → α
  | .intra         => p.intra
  | .predicted     => p.predicted
  | .bidirectional => p.bidirectional
  | .sprite        => p.sprite
  | .switching     => p.switching

def set (p : PerType α) (t : PictureType) (a : α) : PerType α :=
  match t with
  | .intra         => { p with intra := a }
  | .predicted     => { p with predicted := a }
  | .bidirectional => { p with bidirectional := a }
  | .sprite        => { p with sprite := a }
  | .switching     => { p with switching := a }

def modify (p : PerType α) (t : PictureType) (f : α → α) : PerType α :=
  p.set t (f (p.get t))

@[simp] theorem get_replicate (a : α) (t : PictureType) : (replicate a).get t = a := by
  cases t <;> rfl

@[simp] theorem get_set_self (p : PerType α) (t : PictureType) (a : α) : (p.set t a).get t = a := by
  cases t <;> rfl

theorem get_set_of_ne (p : PerType α) {t u : PictureType} (a : α) (h : u ≠ t) :
    (p.set t a).get u = p.get u := by
  cases t <;> cases u <;> first | rfl | exact absurd rfl h

theorem ext_get {p q : PerType α} (h : ∀ t, p.get t = q.get t) : p = q :=
  PerType.ext (h .intra) (h .predicted) (h .bidirectional) (h .sprite) (h .switching)

end PerType
end RateControl
