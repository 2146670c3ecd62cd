import ConcurrencyCourse.Library.Interleaving

/-!
# The dining philosophers

Each philosopher of `6_deadlock_detection.cpp` runs a loop in its own thread: unless it has been
cancelled it locks the two forks of its seat, eats, and releases them in reverse order.  Testing
`m_cancelled`, each lock and each unlock are separate steps.  Several philosophers may be given the
same seat.
-/

namespace ConcurrencyCourse
namespace Philosophers

/-- `Table::Seat`: the numbers of its two forks. -/
structure Seat where
  fork1 : Nat
  fork2 : Nat
  deriving DecidableEq

/-- `Table::GetSeat`; `width` is the width of `size_t`. -/
def getSeat (width forkCount index : Nat) : Seat where
  fork1 := index % forkCount
  fork2 := (index + 1) % 2 ^ width % forkCount

/-- Position of a philosopher in its loop. -/
inductive Pc
  | testCancelled
  | lock1
  | lock2
  | eating
  | unlock2
  | unlock1
  | stopped
  deriving DecidableEq

/-- The forks of the table and the flags of the philosophers. -/
structure Table (Tid : Type*) where
  /-- Who holds each fork. -/
  forks : Nat → Option Tid
  /-- `m_cancelled` of each philosopher. -/
  cancelled : Tid → Bool

/-- A philosopher runs, or its destructor sets `m_cancelled`. -/
inductive Action
  | run
  | cancel
  deriving DecidableEq

section Steps

variable {Tid : Type*} [DecidableEq Tid]

/-- Lock a fork if it is free; a philosopher who holds it himself waits as well. -/
def Table.lock (table : Table Tid) (philosopher : Tid) (fork : Nat) : Option (Table Tid) :=
  match table.forks fork with
  | none => some { table with forks := Function.update table.forks fork (some philosopher) }
  | some _ => none

/-- Unlock a fork. -/
def Table.unlock (table : Table Tid) (fork : Nat) : Table Tid :=
  { table with forks := Function.update table.forks fork none }

/-- One step of a philosopher. -/
def threadStep (seat : Tid → Seat) (philosopher : Tid) (action : Action) (table : Table Tid)
    (pc : Pc) : Option (Table Tid × Pc) :=
  match action, pc with
  | .cancel, pc =>
      some ({ table with cancelled := Function.update table.cancelled philosopher true }, pc)
  | .run, .testCancelled =>
      some (table, if table.cancelled philosopher then .stopped else .lock1)
  | .run, .lock1 =>
      (table.lock philosopher (seat philosopher).fork1).map fun table => (table, .lock2)
  | .run, .lock2 =>
      (table.lock philosopher (seat philosopher).fork2).map fun table => (table, .eating)
  | .run, .eating => some (table, .unlock2)
  | .run, .unlock2 => some (table.unlock (seat philosopher).fork2, .unlock1)
  | .run, .unlock1 => some (table.unlock (seat philosopher).fork1, .testCancelled)
  | .run, .stopped => none

/-- States of the table together with its philosophers. -/
abbrev Config (Tid : Type*) := Program.Config Tid (Table Tid) Pc

omit [DecidableEq Tid] in
/-- All forks are on the table and all philosophers have just been started. -/
def initial : Config Tid where
  shared := { forks := fun _ => none, cancelled := fun _ => false }
  threads _ := .testCancelled

/-- Philosophers at a table, each at the seat that `seat` names. -/
def program (seat : Tid → Seat) : Program Tid Action (Table Tid) Pc where
  Initial table threads := table = initial.shared ∧ threads = initial.threads
  step := threadStep seat

/-- The philosophers started with `GetSeat(index)` for each index of a list. -/
def dinner (width forkCount : Nat) (indexes : List Nat) :
    Program (Fin indexes.length) Action (Table (Fin indexes.length)) Pc :=
  program fun philosopher => getSeat width forkCount (indexes.get philosopher)

end Steps

end Philosophers
end ConcurrencyCourse
