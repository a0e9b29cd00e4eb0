/-
The Pool of workers (classes/pool.c): its properties, the four methods
that change them, where its tasks go over a sequence of calls, and
`Pool::collect`.

The properties `size`, `last` and `workers` are changed independently of
each other: `submit` makes a worker at whatever index `last` has,
`resize` addresses workers by their number, `shutdown` empties `workers`
and keeps `last`. `workers` is null until the first submit.

What a method calls on a worker may throw (its constructor, `start`,
`stack`). The method does not look, so that it goes on to its end and the
caller finds the exception pending: `submit` has put the worker into the
table by then and moves `last` on.

`Pool::collect` goes through the workers one after the other. Each of them
is in some state of its own life when its turn comes, since its thread and
the others go on meanwhile. It waits for the monitor of each.

# What is left out

A worker is its identity; `resize` and `shutdown` say which workers they
shut down. A worker class that cannot be instantiated, and a `shutdown` of
a worker that throws.

The loop of `resize` may run for ever, so it has fuel; `none` is a call
that has not returned.
-/
import PmmpThread.Zend.Foreach
import PmmpThread.Zend.Hash
import PmmpThread.Model.Routine

namespace PmmpThread.Model

open Zend

/-- The properties of a Pool. `clazz` is `none` while it is not a string:
in a subclass that does not call the constructor. -/
structure Pool (W : Type) where
  size : Int
  clazz : Option String
  workers : Option (HashTable W)
  last : Int

namespace Pool

variable {W : Type}

/-- What a method throws, by its message. -/
inductive Error where
  /-- "this Pool has not been initialized properly, Worker class not
  valid" -/
  | classNotValid
  /-- "this Pool has not been initialized properly, the Worker class %s
  could not be found" -/
  | classNotFound (clazz : String)
  /-- "The selected worker (%ld) does not exist" -/
  | noWorker (worker : Int)
  /-- What the constructor, `start` or `stack` of the worker at an index
  threw. -/
  | fromWorker (worker : Int)
  deriving DecidableEq, Repr

/-- `Pool::__construct`. -/
def construct (size : Int) (clazz : String) : Pool W where
  size := size
  clazz := some clazz
  workers := none
  last := 0

/-- `workers` after the `array_init` of a method that needs an array. -/
def table (p : Pool W) : HashTable W := p.workers.getD (.init 8)

/-- The index that `submit` goes to. -/
def next (p : Pool W) : Int := if p.size ≤ p.last then 0 else p.last

/-- What a method answers with after its calls on the worker at an
index. -/
def answer (worker : Int) (threw : Bool) : Except Error Int :=
  if threw then .error (.fromWorker worker) else .ok worker

/-- `Pool::submit`: the index returned, or what is thrown. `worker` is
the worker made if there is none at the index; `found` if
`zend_lookup_class` finds its class, `threw` if a call on the worker
throws. -/
def submit (p : Pool W) (found threw : Bool) (worker : W) :
    Except Error Int × Pool W :=
  let p' := { p with workers := some p.table, last := p.next }
  match p.table.find (.long p.next) with
  | some _ => (answer p.next threw, { p' with last := p.next + 1 })
  | none =>
      match p.clazz with
      | none => (.error .classNotValid, p')
      | some clazz =>
          if found then
            (answer p.next threw, { p' with
              workers := some (p.table.update false (.long p.next) worker)
              last := p.next + 1 })
          else (.error (.classNotFound clazz), p')

/-- `Pool::submitTo`. -/
def submitTo (p : Pool W) (worker : Int) (threw : Bool) :
    Except Error Int × Pool W :=
  (if p.table.contains (.long worker) then answer worker threw
    else .error (.noWorker worker),
    { p with workers := some p.table })

/-- The loop of `Pool::resize`: the workers it shuts down and the table
it leaves. A worker that is not found is not shut down, and deleting it
does nothing. -/
def resizeLoop (newsize : Int) :
    Nat → HashTable W → Option (List W × HashTable W)
  | 0, _ => none
  | fuel + 1, workers =>
      let top : Int := workers.numElements
      let worker := workers.find (.long (top - 1))
      let workers := workers.del (.long (top - 1))
      if (workers.numElements : Int) = newsize then
        some (worker.toList, workers)
      else (resizeLoop newsize fuel workers).map fun r =>
        (worker.toList ++ r.1, r.2)

/-- `Pool::resize`. -/
def resize (p : Pool W) (newsize : Int) (fuel : Nat) :
    Option (List W × Pool W) :=
  match p.workers with
  | none => some ([], { p with size := newsize })
  | some workers =>
      if newsize < workers.numElements then
        (resizeLoop newsize fuel workers).map fun r =>
          (r.1, { p with workers := some r.2, size := newsize })
      else some ([], { p with size := newsize })

/-- `Pool::shutdown`; `zend_hash_clean` keeps the size of the table. -/
def shutdown (p : Pool W) : List W × Pool W :=
  (p.table.entries.map Prod.snd,
    { p with workers := p.workers.map fun t => .init t.tableSize })

-- ================================================== sequences of calls

inductive Call (W : Type) where
  | submit (found threw : Bool) (worker : W)
  | submitTo (worker : Int) (threw : Bool)
  | resize (newsize : Int) (fuel : Nat)
  | shutdown

/-- The pool after a call, if it returns or throws. -/
def step (p : Pool W) : Call W → Option (Pool W)
  | .submit found threw worker => some (p.submit found threw worker).2
  | .submitTo worker threw => some (p.submitTo worker threw).2
  | .resize newsize fuel => (p.resize newsize fuel).map (·.2)
  | .shutdown => some p.shutdown.2

def run (p : Pool W) (calls : List (Call W)) : Option (Pool W) :=
  calls.foldlM step p

theorem run_cons {p q : Pool W} {c : Call W} {calls : List (Call W)} :
    p.run (c :: calls) = some q
      ↔ ∃ p', p.step c = some p' ∧ p'.run calls = some q :=
  foldlM_cons_iff

-- ====================================================== where tasks go

/-- The index that a `submit` went to, as it answers or throws. -/
def taken : Except Error Int → List Int
  | .ok n | .error (.fromWorker n) => [n]
  | .error _ => []

/-- The index of a call if it is a `submit` that came to a worker. -/
def Call.submitted (p : Pool W) : Call W → List Int
  | .submit found threw worker => taken (p.submit found threw worker).1
  | _ => []

/-- The indices of all `submit` calls that came to a worker. -/
def submitted (p : Pool W) : List (Call W) → List Int
  | [] => []
  | c :: calls => c.submitted p
      ++ (p.step c).elim [] fun q => submitted q calls

def Call.isResize : Call W → Bool
  | .resize _ _ => true
  | _ => false

-- ============================================================= collecting

/-- `Pool::collect` of workers that are in these states when their turn
comes; the answers are those of the collector, called for each. A monitor
that was left locked is waited for for ever. -/
def collect : List (Life × List Bool) → Option (Int × List Life)
  | [] => some (0, [])
  | (s, answers) :: workers =>
      if s.held then none
      else (s.collect answers).bind fun r =>
        (collect workers).map fun c => (r.1 + c.1, r.2 :: c.2)

end Pool

/-- How many tasks of a worker were neither unstacked nor collected. -/
def Life.outstanding (s : Life) : Int :=
  s.inserted.length - s.unstacked.length - s.collected.length

end PmmpThread.Model
