import Mathlib.Tactic

/-! The suggestion for a misspelled field of a config file (`suggest` and `editDistance` of
`packages/config/load.go`). Strings are compared byte by byte. -/

namespace Gate

def stringBytes (s : String) : List UInt8 := s.toUTF8.data.toList

/-- The inner loop: `cur[j]` from the second place on, from the places of `prev` that it looks at and
from `cur[j-1]`. -/
def editRow (x : UInt8) : List UInt8 → List ℕ → ℕ → List ℕ
  | y :: ys, diag :: up :: rest, left =>
    let v := min (min (up + 1) (left + 1)) (diag + if x = y then 0 else 1)
    v :: editRow x ys (up :: rest) v
  | _, _, _ => []

/-- The outer loop: the row for each further byte of `a`; `cur[0] = i`. -/
def editRows (b : List UInt8) : List UInt8 → ℕ → List ℕ → List ℕ
  | [], _, prev => prev
  | x :: a, i, prev => editRows b a (i + 1) (i :: editRow x b prev i)

def editDistance (a b : String) : ℕ :=
  let a := stringBytes a
  let b := stringBytes b
  (editRows b a 1 (List.range (b.length + 1))).getD b.length 0

/-- A turn of the loop of `suggest`. -/
def closer (word : String) (best : String × ℕ) (c : String) : String × ℕ :=
  let d := editDistance word c
  if d < best.2 then (c, d) else best

/-- The closest candidate within edit distance 2, or "". `lower` is `strings.ToLower`. -/
def suggest (lower : String → String) (word : String) (candidates : List String) : String :=
  (candidates.foldl (closer (lower word)) ("", 3)).1

end Gate
