/-!
# Signals

`Signal` of `block.rs`.  Its three methods hold the lock of `ready` from their
first line to their last, so each of them is one atomic operation.  `wait` is
the exception: while the flag is down it gives the lock back and sleeps on the
condition.  `wake` raises the flag and notifies every sleeper under the same
lock, so a sleeper goes on exactly when it finds the flag up.  `wait?` is that
last turn of the loop, and a thread for which it is `none` is blocked.
-/

namespace MVSync

/-- `Signal`: a flag, and the wakers to call when it is raised.  The condition
variable holds no data. -/
structure Signal (W : Type) where
  /-- The flag. -/
  ready : Bool
  /-- The registered wakers. -/
  wakers : List W
deriving DecidableEq, Repr

namespace Signal

variable {W : Type}

/-- `Signal::new`. -/
def new : Signal W := ⟨false, []⟩

/-- `Signal::wait`, the turn of its loop that returns.  It lowers the flag. -/
def wait? (g : Signal W) : Option (Signal W) :=
  if g.ready then some { g with ready := false } else none

/-- `Signal::wake`.  The wakers it drains are returned. -/
def wake (g : Signal W) : Signal W × List W := (⟨true, []⟩, g.wakers)

/-- `SignalFuture::poll`: whether it is ready, the signal, and the new value of
`started`.  The waker is registered once per future, and the flag stays as it
is. -/
def poll (g : Signal W) (started : Bool) (w : W) : Bool × Signal W × Bool :=
  if g.ready then (true, g, started)
  else if started then (false, g, true)
  else (false, { g with wakers := g.wakers ++ [w] }, true)

@[simp] theorem new_ready : (new : Signal W).ready = false := rfl

@[simp] theorem wake_ready (g : Signal W) : g.wake.1.ready = true := rfl

theorem wait?_eq_some {g g' : Signal W} :
    g.wait? = some g' ↔ g.ready = true ∧ g' = { g with ready := false } := by
  unfold wait?
  cases hr : g.ready with
  | true => simp [eq_comm]
  | false => simp

/-- A poll is ready exactly when the flag is up. -/
@[simp] theorem poll_fst (g : Signal W) (started : Bool) (w : W) :
    (g.poll started w).1 = g.ready := by
  unfold poll
  split
  · simp [*]
  · split <;> simp [*]

/-- A poll never changes the flag. -/
@[simp] theorem poll_ready (g : Signal W) (started : Bool) (w : W) :
    (g.poll started w).2.1.ready = g.ready := by
  unfold poll
  split
  · rfl
  · split <;> rfl

end Signal

end MVSync
