import FixedPointNet.Binary64
import FixedPointNet.Layer.Basic

/-!
# From scores to classes

A head with one unit decides for class 1 where its score is at least one half. A head with several
units decides for the unit with the largest score, the first of equal ones.
-/

namespace FixedPointNet.Classification

/-- The position of the largest of the remaining scores, given the best one so far, its position and
    the position of the next score. A score is better only if it compares greater. -/
def leader (best : Float) (bestAt : Nat) : (position : Nat) → List Float → Nat
  | _, [] => bestAt
  | position, score :: rest =>
      if best < score then leader score position (position + 1) rest
      else leader best bestAt (position + 1) rest

/-- The position of the largest score, the first of equal ones. -/
def argmax : List Float → Nat
  | [] => 0
  | score :: rest => leader score 0 1 rest

/-- The classes of a batch of scores of a head with the given width. An incomplete last row has no
    class. -/
def classes (width : Nat) (scores : List Float) : List Nat :=
  if width ≤ 1 then scores.map fun score => if 0.5 ≤ score then 1 else 0
  else (pieces width (scores.length / width) scores).map argmax

/-- The share of labels that a prediction meets. -/
def accuracy (predicted labels : List Nat) : Float :=
  if labels.isEmpty then 0
  else
    let hits := (predicted.zip labels).countP fun (p, l) => p == l
    Binary64.ofNat hits / Binary64.ofNat labels.length

end FixedPointNet.Classification
