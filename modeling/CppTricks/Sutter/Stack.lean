import CppTricks.Foundation.Exceptions
import CppTricks.Foundation.Heap

/-! `Stack<T>`: an array that it owns, its size and the number of elements used. -/
namespace CppTricks.Sutter
open Foundation

/-- `thrown` comes from `T` or from `new`, `empty` is `throw "if empty"`, and after `undefined`
nothing is known. -/
inductive Failure where
  | thrown
  | empty
  | assertion
  | undefined
deriving DecidableEq

/-- `v_[i]`, read or assigned to. -/
inductive Access where
  | read (i : ℕ)
  | write (i : ℕ)
deriving DecidableEq

structure Stack where
  v : ℕ
  vsize : ℕ
  vused : ℕ

/-- The object `this`, the live arrays and the accesses to arrays that were made. -/
structure World (T : Type) where
  this : Stack
  heap : Heap (List T)
  accesses : List Access

/-- What the functions depend on: which of the numbered operations of `T` and of `new` throw, what
`T()` makes, and what a failed assignment leaves in its target. -/
structure Conduct (T : Type) where
  throws : ℕ → Bool
  default : T
  torn : T

namespace World

variable {T : Type}

def log (access : Access) (w : World T) : World T := { w with accesses := w.accesses ++ [access] }

def setThis (this : Stack) (w : World T) : World T := { w with this := this }

def setHeap (heap : Heap (List T)) (w : World T) : World T := { w with heap := heap }

def setVused (vused : ℕ) (w : World T) : World T := w.setThis { w.this with vused := vused }

def store (a i : ℕ) (x : T) (w : World T) : World T :=
  w.setHeap (w.heap.modify a fun array => array.set i x)

def delete (a : ℕ) (w : World T) : World T := w.setHeap (w.heap.free a)

end World

abbrev Member (T α : Type) := EStateM Failure (Counted (World T)) α

namespace Stack

variable {T : Type} (env : Conduct T)

/-- An operation of `T`, or of `new`, that may throw. -/
def operation : Member T Unit := mayThrow env.throws .thrown

/-- A read past the end of an array is undefined. -/
def read (a i : ℕ) : Member T T := do
  update (World.log (.read i))
  let w ← world
  match (w.heap.objects a).bind (·[i]?) with
  | some x => return x
  | none => throw .undefined

def assignAt (a i : ℕ) (x : T) : Member T Unit := do
  update (World.log (.write i))
  update (World.store a i env.torn)
  operation env
  update (World.store a i x)

/-- `new T[n]`, which destroys and frees what it has made when a constructor throws. -/
def newArray (n : ℕ) : Member T ℕ := do
  operation env
  let w ← world
  let made := w.heap.allocate (List.replicate n env.default)
  update (World.setHeap made.2)
  tryCatch ((List.range n).forM fun _ => operation env) fun e => do
    update (World.delete made.1)
    throw e
  return made.1

def copy (src srcsize dest : ℕ) : Member T Unit :=
  (List.range srcsize).forM fun i => do
    let x ← read src i
    assignAt env dest i x

def newCopy (src srcsize destsize : ℕ) : Member T ℕ :=
  if destsize < srcsize then throw .assertion
  else do
    let dest ← newArray env destsize
    tryCatch (copy env src srcsize dest) fun e => do
      update (World.delete dest)
      throw e
    return dest

def construct : Member T Stack := do
  let v ← newArray env 10
  return ⟨v, 10, 0⟩

def copyConstruct (other : Stack) : Member T Stack := do
  let v ← newCopy env other.v other.vsize other.vsize
  return ⟨v, other.vsize, other.vused⟩

/-- `*this = other`, where `same` says whether `other` is `*this`. -/
def assign (same : Bool) (other : Stack) : Member T Unit :=
  if same then pure ()
  else do
    let vNew ← newCopy env other.v other.vsize other.vsize
    let w ← world
    update (World.delete w.this.v)
    update (World.setThis ⟨vNew, other.vsize, other.vused⟩)

def count : Member T ℕ := do
  let w ← world
  return w.this.vused

def grow : Member T Unit := do
  let w ← world
  if w.this.vused = w.this.vsize then do
    let vsizeNew := w.this.vsize * 2 + 1
    let vNew ← newCopy env w.this.v w.this.vsize vsizeNew
    update (World.delete w.this.v)
    update (World.setThis ⟨vNew, vsizeNew, w.this.vused⟩)
  else pure ()

def push (t : T) : Member T Unit := do
  grow env
  let w ← world
  assignAt env w.this.v w.this.vused t
  update (World.setVused (w.this.vused + 1))

/-- The value is copied before `vused_` goes down, and again on its way to the caller. -/
def popNosafe : Member T T := do
  let w ← world
  if w.this.vused = 0 then throw .empty
  else do
    let result ← read w.this.v w.this.vused
    operation env
    update (World.setVused (w.this.vused - 1))
    operation env
    return result

def popBetterBut : Member T T := do
  let w ← world
  if w.this.vused = 0 then throw .empty
  else do
    let result ← read w.this.v w.this.vused
    operation env
    update (World.setVused (w.this.vused - 1))
    return result

def top : Member T T := do
  let w ← world
  if w.this.vused = 0 then throw .empty
  else read w.this.v w.this.vused

def pop : Member T Unit := do
  let w ← world
  if w.this.vused = 0 then throw .empty
  else update (World.setVused (w.this.vused - 1))

end Stack
end CppTricks.Sutter
