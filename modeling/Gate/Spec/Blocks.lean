import Gate.Lib.Blocks
import Gate.Spec.Edges

/-! Edges whose goroutines run in blocks. A goroutine gives way only where it waits for
others: for a flight it has joined, for the hub's answer, for a return to be delivered.
Between two such places it runs alone. -/

namespace Gate

open Conc

def Instr.waits : Instr → Bool
  | .await _ | .receive _ _ | .attempt _ => true
  | _ => false

abbrev EdgeBlock := BlockAct Choice Input

def Edges.block (dep : Deployment) (p : Edges) (a : EdgeBlock) : Option Edges :=
  Pool.blockStep (sem dep) Instr.waits p a

end Gate
