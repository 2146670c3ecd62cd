import ConcurrencyCourse.Library.Interleaving
import Mathlib.Data.Finmap

/-!
# The map with one lock

`concurrent_map` keeps a `std::map` under `m_mutex`.  The two effects of `m_data[key] = value` are
separate steps: `operator[]` allocates a node, copies the key into it, constructs the value and
links the node when the key is absent, and then the value is copy-assigned.  Each of these, and each
copy that a reader makes, may throw; an assignment that throws leaves its target unchanged.
-/

namespace ConcurrencyCourse
namespace ConcurrentMap

/-- `std::map<Key, Value>`. -/
abbrev Data (Key Value : Type*) := Finmap fun _ : Key => Value

/-- The calls of the map's interface. -/
inductive Call (Key Value : Type*)
  | update (key : Key) (value : Value)
  | get (key : Key)
  | remove (key : Key)
  | fetch (key : Key)
  | dump
  deriving DecidableEq

/-- What the calls return; `fetched` holds the pair given to the handler, and `threw` is an exit by
an exception. -/
inductive Result (Key Value : Type*)
  | updated
  | got (key : Key) (value : Option Value)
  | removed
  | fetched (pair : Option (Key × Value))
  | dumped (data : Data Key Value)
  | threw
  deriving DecidableEq

/-- What the calls have done to the map, in the order in which they held the mutex. -/
inductive Effect (Key Value : Type*)
  | updated (key : Key) (value : Value)
  | removed (key : Key)
  /-- The copy-assignment of an Update threw; `fresh` tells that the key had been absent. -/
  | assignThrew (key : Key) (fresh : Bool)
  deriving DecidableEq

/-- The members, and a history variable. -/
structure Map (Tid Key Value : Type*) where
  data : Data Key Value
  mutex : Option Tid
  /-- History variable: effects, the latest first. -/
  effects : List (Effect Key Value)

/-- Position of a thread, with the values of its local variables. -/
inductive Pc (Key Value : Type*)
  | idle
  | lock (call : Call Key Value)
  -- Update
  | updateFind (key : Key) (value : Value)
  | updateAllocate (key : Key) (value : Value)
  | updateCopyKey (key : Key) (value : Value)
  | updateConstruct (key : Key) (value : Value)
  | updateAssign (key : Key) (value : Value) (fresh : Bool)
  -- the other calls
  | getFind (key : Key)
  | removeErase (key : Key)
  | fetchFind (key : Key)
  | fetchHandler (pair : Key × Value)
  | dumpCopy
  -- the end of every call
  | unlock (result : Result Key Value)
  | returning (result : Result Key Value)
  deriving DecidableEq

/-- Actions of a thread. -/
inductive Action (Key Value : Type*)
  | call (call : Call Key Value)
  | run
  | throw
  deriving DecidableEq

section Steps

variable {Tid Key Value : Type*}

/-- First position of a call after the lock. -/
def entry : Call Key Value → Pc Key Value
  | .update key value => .updateFind key value
  | .get key => .getFind key
  | .remove key => .removeErase key
  | .fetch key => .fetchFind key
  | .dump => .dumpCopy

variable [DecidableEq Key] [Inhabited Value]

/-- Steps of `Update` under the mutex. -/
def updateStep (map : Map Tid Key Value) (pc : Pc Key Value) :
    Option (Map Tid Key Value × Pc Key Value) :=
  match pc with
  | .updateFind key value =>
      some (map, if key ∈ map.data then .updateAssign key value false
        else .updateAllocate key value)
  | .updateAllocate key value => some (map, .updateCopyKey key value)
  | .updateCopyKey key value => some (map, .updateConstruct key value)
  | .updateConstruct key value =>
      some ({ map with data := map.data.insert key default }, .updateAssign key value true)
  | .updateAssign key value _ =>
      some ({ map with
          data := map.data.insert key value
          effects := .updated key value :: map.effects }, .unlock .updated)
  | _ => none

omit [Inhabited Value] in
/-- Steps of the other calls under the mutex. -/
def accessStep (map : Map Tid Key Value) (pc : Pc Key Value) :
    Option (Map Tid Key Value × Pc Key Value) :=
  match pc with
  | .getFind key => some (map, .unlock (.got key (map.data.lookup key)))
  | .removeErase key =>
      some ({ map with data := map.data.erase key, effects := .removed key :: map.effects },
        .unlock .removed)
  | .fetchFind key =>
      match map.data.lookup key with
      | some value => some (map, .fetchHandler (key, value))
      | none => some (map, .unlock (.fetched none))
  | .fetchHandler pair => some (map, .unlock (.fetched (some pair)))
  | .dumpCopy => some (map, .unlock (.dumped map.data))
  | _ => none

omit [DecidableEq Key] [Inhabited Value] in
/-- A throwing allocation, copy or handler; `none` where nothing can throw. -/
def throwStep (map : Map Tid Key Value) (pc : Pc Key Value) :
    Option (Map Tid Key Value × Pc Key Value) :=
  match pc with
  | .updateAllocate _ _ | .updateCopyKey _ _ | .updateConstruct _ _ | .getFind _ | .fetchFind _
  | .fetchHandler _ | .dumpCopy => some (map, .unlock .threw)
  | .updateAssign key _ fresh =>
      some ({ map with effects := .assignThrew key fresh :: map.effects }, .unlock .threw)
  | _ => none

/-- One step of a thread. -/
def threadStep (thread : Tid) (action : Action Key Value) (map : Map Tid Key Value)
    (pc : Pc Key Value) : Option (Map Tid Key Value × Pc Key Value) :=
  match action, pc with
  | .call call, .idle => some (map, .lock call)
  | .run, .lock call =>
      match map.mutex with
      | none => some ({ map with mutex := some thread }, entry call)
      | some _ => none
  | .run, .unlock result => some ({ map with mutex := none }, .returning result)
  | .run, .returning _ => some (map, .idle)
  | .run, _ => (updateStep map pc).or (accessStep map pc)
  | .throw, _ => throwStep map pc
  | _, _ => none

/-- States of the map together with the threads that use it. -/
abbrev Config (Tid Key Value : Type*) := Program.Config Tid (Map Tid Key Value) (Pc Key Value)

omit [DecidableEq Key] [Inhabited Value] in
/-- A new map. -/
def initial : Config Tid Key Value where
  shared := { data := ∅, mutex := none, effects := [] }
  threads _ := .idle

/-- Any number of threads that use one map. -/
def program : Program Tid (Action Key Value) (Map Tid Key Value) (Pc Key Value) where
  Initial map threads := map = initial.shared ∧ threads = initial.threads
  step := threadStep

end Steps

end ConcurrentMap
end ConcurrencyCourse
