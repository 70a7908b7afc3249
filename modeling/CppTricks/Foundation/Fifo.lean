import Mathlib.Data.List.Basic

/-! First in, first out queues as lists, the oldest element first. -/
namespace Foundation.Fifo

variable {T : Type*}

/-- Add an element unless `cap` elements are held; the flag tells if it was added. -/
def enqueue (cap : ℕ) (q : List T) (x : T) : Bool × List T :=
  if q.length = cap then (false, q) else (true, q ++ [x])

/-- Move the oldest element to `r`, or leave `r` as it is if there is none. -/
def dequeue (q : List T) (r : T) : Bool × T × List T :=
  match q with
  | [] => (false, r, [])
  | x :: rest => (true, x, rest)

/-- Nothing is lost, duplicated or reordered between what went in, what came out and what is
held. -/
def Balanced (entered left held : List T) : Prop := entered = left ++ held

namespace Balanced

variable {entered left held : List T}

theorem nil : Balanced ([] : List T) [] [] := rfl

theorem enter (h : Balanced entered left held) (x : T) :
    Balanced (entered ++ [x]) left (held ++ [x]) := by
  unfold Balanced at h ⊢
  rw [h, List.append_assoc]

theorem leave {x : T} (h : Balanced entered left (x :: held)) :
    Balanced entered (left ++ [x]) held := by
  unfold Balanced at h ⊢
  rw [h, List.append_assoc, List.singleton_append]

theorem isPrefix (h : Balanced entered left held) : left <+: entered := ⟨held, h.symm⟩

end Balanced

end Foundation.Fifo
