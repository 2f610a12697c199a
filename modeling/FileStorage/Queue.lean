/-
  The queue of `queue.c`, seen as the sequence of the data of its nodes from
  the one after the sentinel to the tail, with its stored length.
-/
import FileStorage.CTypes

namespace FileStorage

structure Queue (α : Type) where
  data : List α
  len : ℕ
  deriving DecidableEq, Repr

/-- `initQueue`: only the sentinel. -/
def initQueue {α : Type} : Queue α := ⟨[], 0⟩

/-- `push`: a new node at the tail; the result is the new length, as an `int`. -/
def push {α : Type} (q : Queue α) (data : α) : ℤ × Queue α :=
  (i32 ↑(q.len + 1), ⟨q.data ++ [data], q.len + 1⟩)

/-- `pop`: takes off the node after the sentinel.  With no such node the C
    code reads a null pointer. -/
def pop {α : Type} (q : Queue α) : Option (α × Queue α) :=
  match q.data with
  | [] => none
  | x :: xs => some (x, ⟨xs, q.len - 1⟩)

theorem pop_data {α : Type} {q q' : Queue α} {x : α} (h : pop q = some (x, q')) :
    q.data = x :: q'.data := by
  unfold pop at h
  split at h
  · cases h
  · cases h; assumption

end FileStorage
