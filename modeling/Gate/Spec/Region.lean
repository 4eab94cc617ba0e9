import Gate.Spec.Config

/-! How a global quota is split between regions (`packages/region/region.go`). SHA-256 is
a parameter: the score of a region for a subject is any function of the two. -/

namespace Gate

/-- `Names`: the regions in a stable order. -/
def regionNames (floors : List (String × ℚ)) : List String :=
  (floors.map Prod.fst).insertionSort (· ≤ ·)

def share (floors : List (String × ℚ)) (region : String) : Option ℚ :=
  (floors.find? fun p => p.1 = region).map Prod.snd

def regionFloor (q : ℤ) (s : ℚ) : ℤ := ⌊(q : ℚ) * max 0 (min s 1)⌋

/-- One turn of `Home`'s loop: the first name, then any with a strictly higher score. -/
def homeStep (score : String → String → ℕ) (subject : String) (best : String × ℕ)
    (name : String) : String × ℕ :=
  if best.1 = "" ∨ best.2 < score name subject then (name, score name subject) else best

def home (score : String → String → ℕ) (floors : List (String × ℚ)) (subject : String) : String :=
  ((regionNames floors).foldl (homeStep score subject) ("", 0)).1

def regionBase (score : String → String → ℕ) (q : ℤ) (floors : List (String × ℚ))
    (region subject : String) : ℤ :=
  match share floors region with
  | none => 0
  | some s =>
    let sum := ((regionNames floors).map fun n => regionFloor q ((share floors n).getD 0)).sum
    regionFloor q s + if home score floors subject = region then q - sum else 0

end Gate
