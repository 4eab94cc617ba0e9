import Gate.Spec.Clocks
import Gate.Spec.LocalRun

/-! Calls of the local limiter at once, on one window. Each atomic operation is a step, and all calls
read one clock, which never goes back. -/

namespace Gate

structure WindowWorld where
  win : Win
  /-- the clock, in milliseconds -/
  now : ℤ
  /-- how many calls have read the clock and not returned -/
  inside : ℕ
  /-- a call read the clock in another window than the counter's, and has not yet zeroed it -/
  rolling : Bool
  /-- what calls returned, newest first -/
  log : List (Request × Decision)

def WindowWorld.start (now : ℤ) : WindowWorld := ⟨⟨0, 0⟩, now, 0, false, []⟩

/-- What an instruction of `Local.allow` does; there is one window, so its key does not matter. The
limit and the window length of every request are those of `rule`. -/
def windowExec (rule : Request) : (i : Instr) → WindowWorld → Option (i.Answer × WindowWorld)
  | .window edge key, w => some (⟨edge, 0, key⟩, w)
  | .clock _, w => some (w.now, { w with
      inside := w.inside + 1, rolling := w.rolling || w.win.id ≠ w.now.tdiv (milliseconds rule.window) })
  | .store (.windowSeen _) _, w => some ((), w)
  | .load (.windowID _), w => some (w.win.id, w)
  | .cas (.windowID _) old new, w =>
    if w.win.id = old then some (true, { w with win := { w.win with id := new } }) else some (false, w)
  | .store (.windowConsumed _) v, w => some ((), { w with win := { w.win with consumed := v }, rolling := false })
  | .add (.windowConsumed _) d, w =>
    some (w.win.consumed + d, { w with win := { w.win with consumed := w.win.consumed + d } })
  | .load (.windowConsumed _), w => some (w.win.consumed, w)
  | .answered req (.ok d), w => some ((), { w with inside := w.inside - 1, log := (req, d) :: w.log })
  | _, _ => none

inductive WindowInput where
  | tick (d : ℕ)
  /-- a call, with the cost of its request -/
  | call (cost : ℤ)

def localThread (req : Request) : Proc Unit := do
  let d ← Local.allow 0 req
  answered req (.ok d)

def windowSem (rule : Request) : Conc.Sem Instr.Answer WindowWorld Unit WindowInput where
  exec i _ w := (windowExec rule i w).map fun out => (out.1, out.2, [])
  ext
    | .tick d, w => some ({ w with now := w.now + d }, [])
    | .call cost, w => some (w, [localThread { rule with cost := cost }])

abbrev WindowAct := Conc.Act Unit WindowInput

/-- The end of a window, by its number. -/
def stopOf (rule : Request) (k : ℤ) : ℤ := (k + 1) * milliseconds rule.window

/-- The cost admitted on clock readings in window `k`: such a reading puts the window's end into the decision. -/
def windowTotal (rule : Request) (k : ℤ) (log : List (Request × Decision)) : ℤ :=
  (log.map fun x => if x.2.allowed ∧ x.2.resetAt = some (stopOf rule k) then max x.1.cost 1 else 0).sum

/-- A call reads the clock while no other call is under way, or in the window that the counter is at
and that no call is rolling. -/
def rollsAlone (rule : Request) : Conc.Pool.Cond Instr WindowWorld Unit WindowInput where
  instr i _ w := i.readsClock →
    w.inside = 0 ∨ w.win.id = w.now.tdiv (milliseconds rule.window) ∧ w.rolling = false
  event _ _ := True

instance (rule : Request) (i : Instr) (u : Unit) (w : WindowWorld) : Decidable ((rollsAlone rule).instr i u w) :=
  inferInstanceAs (Decidable (_ → _))

instance (rule : Request) (e : WindowInput) (w : WindowWorld) : Decidable ((rollsAlone rule).event e w) := isTrue trivial

end Gate
