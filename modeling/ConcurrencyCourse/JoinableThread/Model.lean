import Mathlib.Logic.Function.Basic

/-!
# JoinableThread

A `JoinableThread` owns one `std::thread` and joins it before it is overwritten or destroyed.
Handles are the members `m_thread` and the `std::thread` variables of the callers.  The functions of
`std::thread` follow its contract: moving empties the source, assigning over or destroying a handle
that is joinable terminates the process, and joining an empty handle throws.
-/

namespace ConcurrencyCourse
namespace JoinableThread

/-- A thread of execution, by the number of its start. -/
abbrev ThreadId := Nat

/-- A `std::thread` object: the member of a `JoinableThread`, or a variable of a caller. -/
inductive Handle (Object Name : Type*)
  | mThread (object : Object)
  | external (name : Name)
  deriving DecidableEq

/-- What an operation may run into. -/
inductive Fault
  | terminated
  | joinedEmpty
  deriving DecidableEq

/-- The handles, the objects, and history variables. -/
structure State (Object Name : Type*) where
  /-- The thread that a handle represents, if it is joinable. -/
  handles : Handle Object Name → Option ThreadId
  /-- Objects that have been constructed and not destroyed. -/
  alive : Object → Bool
  /-- Number of the next thread to be started. -/
  next : ThreadId
  /-- History variable: threads handed over to an object. -/
  handedOver : List ThreadId
  /-- History variable: threads that have been joined. -/
  joined : List ThreadId

/-- Nothing has been started or constructed. -/
def initial {Object Name : Type*} : State Object Name :=
  ⟨fun _ => none, fun _ => false, 0, [], []⟩

section Operations

variable {Object Name : Type*} [DecidableEq Object] [DecidableEq Name]

namespace State

/-! ### std::thread -/

/-- `std::thread(std::move(source))` -/
def moveConstruct (state : State Object Name) (target source : Handle Object Name) :
    State Object Name :=
  { state with
    handles := Function.update (Function.update state.handles target (state.handles source))
      source none }

/-- `target = std::move(source)` -/
def moveAssign (state : State Object Name) (target source : Handle Object Name) :
    Except Fault (State Object Name) :=
  if (state.handles target).isSome then .error .terminated
  else .ok (state.moveConstruct target source)

/-- `std::thread::join` -/
def join (state : State Object Name) (target : Handle Object Name) :
    Except Fault (State Object Name) :=
  match state.handles target with
  | none => .error .joinedEmpty
  | some thread => .ok { state with
      handles := Function.update state.handles target none
      joined := state.joined ++ [thread] }

omit [DecidableEq Object] [DecidableEq Name] in
/-- `~std::thread` -/
def destruct (state : State Object Name) (target : Handle Object Name) :
    Except Fault (State Object Name) :=
  if (state.handles target).isSome then .error .terminated else .ok state

/-! ### JoinableThread -/

/-- `JoinIfJoinable` -/
def joinIfJoinable (state : State Object Name) (object : Object) :
    Except Fault (State Object Name) :=
  if (state.handles (.mThread object)).isSome then state.join (.mThread object) else .ok state

/-- The default constructor. -/
def construct (state : State Object Name) (object : Object) : State Object Name :=
  { state with
    handles := Function.update state.handles (.mThread object) none
    alive := Function.update state.alive object true }

/-- The forwarding constructor, given a `Thread&&`. -/
def constructFrom (state : State Object Name) (object : Object)
    (source : Handle Object Name) : State Object Name :=
  { state.moveConstruct (.mThread object) source with
    alive := Function.update state.alive object true }

/-- `JoinableThread(JoinableThread&& x)` -/
def moveConstructFrom (state : State Object Name) (object x : Object) :
    State Object Name :=
  state.constructFrom object (.mThread x)

/-- `operator=(Thread&& thread)` -/
def assignThread (state : State Object Name) (object : Object)
    (thread : Handle Object Name) : Except Fault (State Object Name) :=
  if .mThread object ≠ thread then do
    let state ← state.joinIfJoinable object
    state.moveAssign (.mThread object) thread
  else .ok state

/-- `operator=(JoinableThread&& x)` -/
def assign (state : State Object Name) (object x : Object) :
    Except Fault (State Object Name) :=
  state.assignThread object (.mThread x)

/-- `~JoinableThread`, and the destruction of its member. -/
def destroy (state : State Object Name) (object : Object) :
    Except Fault (State Object Name) := do
  let state ← state.joinIfJoinable object
  let state ← state.destruct (.mThread object)
  return { state with alive := Function.update state.alive object false }

/-- A caller starts a thread in a variable of its own. -/
def start (state : State Object Name) (name : Name) :
    State Object Name :=
  { state with
    handles := Function.update state.handles (.external name) (some state.next)
    next := state.next + 1 }

end State

/-- The operations on the objects.  A source handle may be a variable, or the member of an object
obtained by `get()`. -/
inductive Operation (Object Name : Type*)
  | start (name : Name)
  | construct (object : Object)
  | constructFrom (object : Object) (source : Handle Object Name)
  | moveConstructFrom (object x : Object)
  | assign (object x : Object)
  | assignThread (object : Object) (thread : Handle Object Name)
  | join (object : Object)
  | destroy (object : Object)
  deriving DecidableEq

/-- The calls of the constructors, of the members, and of `std::thread` in a caller's variable. -/
def Operation.perform (state : State Object Name) :
    Operation Object Name → Except Fault (State Object Name)
  | .start name => .ok (state.start name)
  | .construct object => .ok (state.construct object)
  | .constructFrom object source => .ok (state.constructFrom object source)
  | .moveConstructFrom object x => .ok (state.moveConstructFrom object x)
  | .assign object x => state.assign object x
  | .assignThread object thread => state.assignThread object thread
  | .join object => state.join (.mThread object)
  | .destroy object => state.destroy object

omit [DecidableEq Object] [DecidableEq Name] in
/-- The thread of a variable of a caller; that of an object has been handed over before. -/
def State.outside (state : State Object Name) : Handle Object Name → Option ThreadId
  | .external name => state.handles (.external name)
  | .mThread _ => none

omit [DecidableEq Object] [DecidableEq Name] in
/-- The thread that an operation is given for its object, whatever it does with it. -/
def Operation.handsOver (state : State Object Name) : Operation Object Name → Option ThreadId
  | .constructFrom _ source => state.outside source
  | .assignThread _ thread => state.outside thread
  | _ => none

/-- Run one operation, and record the thread that it has been given. -/
def execute (state : State Object Name) (operation : Operation Object Name) :
    Except Fault (State Object Name) := do
  let after ← operation.perform state
  return { after with handedOver := state.handedOver ++ (operation.handsOver state).toList }

/-- Run a sequence of operations. -/
def executeAll (state : State Object Name) :
    List (Operation Object Name) → Except Fault (State Object Name)
  | [] => .ok state
  | operation :: operations => do
      let state ← execute state operation
      executeAll state operations

omit [DecidableEq Object] [DecidableEq Name] in
/-- A handle that exists. -/
def State.Exists (state : State Object Name) : Handle Object Name → Prop
  | .mThread object => state.alive object = true
  | .external _ => True

omit [DecidableEq Object] [DecidableEq Name] in
/-- An operation on objects that exist, or on one that is to be constructed; `join` asks for a
joinable object, and a caller starts a thread in a variable that is not joinable. -/
def Operation.Valid (state : State Object Name) : Operation Object Name → Prop
  | .start name => state.handles (.external name) = none
  | .construct object => state.alive object = false
  | .constructFrom object source => state.alive object = false ∧ state.Exists source
  | .moveConstructFrom object x => state.alive object = false ∧ state.alive x = true
  | .assign object x => state.alive object = true ∧ state.alive x = true
  | .assignThread object thread => state.alive object = true ∧ state.Exists thread
  | .join object => state.alive object = true ∧ (state.handles (.mThread object)).isSome = true
  | .destroy object => state.alive object = true

instance (state : State Object Name) (handle : Handle Object Name) :
    Decidable (state.Exists handle) :=
  match handle with
  | .mThread object => inferInstanceAs (Decidable (state.alive object = true))
  | .external _ => isTrue trivial

instance (state : State Object Name) (operation : Operation Object Name) :
    Decidable (operation.Valid state) :=
  match operation with
  | .start name => inferInstanceAs (Decidable (state.handles (.external name) = none))
  | .construct object => inferInstanceAs (Decidable (state.alive object = false))
  | .constructFrom object source =>
      inferInstanceAs (Decidable (state.alive object = false ∧ state.Exists source))
  | .moveConstructFrom object x =>
      inferInstanceAs (Decidable (state.alive object = false ∧ state.alive x = true))
  | .assign object x =>
      inferInstanceAs (Decidable (state.alive object = true ∧ state.alive x = true))
  | .assignThread object thread =>
      inferInstanceAs (Decidable (state.alive object = true ∧ state.Exists thread))
  | .join object => inferInstanceAs (Decidable (state.alive object = true ∧
      (state.handles (.mThread object)).isSome = true))
  | .destroy object => inferInstanceAs (Decidable (state.alive object = true))

/-- Every operation of a sequence is valid when its turn comes. -/
def ValidAll (state : State Object Name) : List (Operation Object Name) → Prop
  | [] => True
  | operation :: operations => operation.Valid state ∧
      ∀ after, execute state operation = .ok after → ValidAll after operations

instance decidableValidAll (state : State Object Name) :
    (operations : List (Operation Object Name)) → Decidable (ValidAll state operations)
  | [] => isTrue trivial
  | operation :: operations =>
      match executes : execute state operation with
      | .ok after =>
          have := decidableValidAll after operations
          decidable_of_iff (operation.Valid state ∧ ValidAll after operations)
            (by simp [ValidAll, executes])
      | .error _ => decidable_of_iff (operation.Valid state) (by simp [ValidAll, executes])

end Operations

end JoinableThread
end ConcurrencyCourse
