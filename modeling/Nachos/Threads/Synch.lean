import Nachos.Lib.CInt

namespace Nachos

structure Scheduler (T : Type) where
  current : Option T
  ready : List T

namespace Scheduler

variable {T : Type}

def readyToRun (c : Scheduler T) (t : T) : Scheduler T := { c with ready := c.ready ++ [t] }

def sleep (c : Scheduler T) : Scheduler T := { c with current := none }

def yield (c : Scheduler T) (t : T) : Scheduler T :=
  match c.ready with
  | [] => c
  | n :: rest => { current := some n, ready := rest ++ [t] }

end Scheduler

structure Semaphore (T : Type) where
  value : Int
  queue : List T

namespace Semaphore

variable {T : Type}

def new (initialValue : Int) : Semaphore T := ⟨initialValue, []⟩

def tryP (s : Semaphore T) (t : T) : Bool × Semaphore T :=
  if s.value = 0 then (false, { s with queue := s.queue ++ [t] })
  else (true, { s with value := CInt.wrap (s.value - 1) })

def v (s : Semaphore T) : Option T × Semaphore T :=
  (s.queue.head?, { value := CInt.wrap (s.value + 1), queue := s.queue.tail })

end Semaphore

/-- Locks have no state: `Acquire` and `Release` are the dummy bodies of the source. -/
structure Lock where

namespace Lock

def acquire (l : Lock) : Lock := l

def release (l : Lock) : Lock := l

end Lock

end Nachos
