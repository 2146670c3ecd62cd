import ConcurrencyCourse.Library.Columns
import ConcurrencyCourse.Library.Decimal
import ConcurrencyCourse.Library.Interleaving
import ConcurrencyCourse.Library.Merge

/-!
# The logger

`Logger::Log` constructs the singleton at its first call, reads the steady clock, and prints a line
with the uptime and the message.  The lines of calls that overlap may mix, character by character;
the lines of calls that do not can be read back.
-/

namespace ConcurrencyCourse
namespace Logger

open Merge

/-- What a line of the log tells: the uptime in milliseconds, and the message. -/
structure Entry where
  uptime : Nat
  message : List Char
  deriving DecidableEq

/-- `FormatUptime`, with both numbers cast to `int`. -/
def formatUptime (uptime : Nat) : List Char :=
  let uptimeSec := uptime / 1000
  let uptimeMsec := uptime % 1000
  '[' :: (Decimal.write (BitVec.ofNat 32 uptimeSec).toInt ++ '.' ::
    (Decimal.padded 3 uptimeMsec ++ ['s', ']']))

/-- What `LogImpl` prints. -/
def line (entry : Entry) : List Char :=
  formatUptime entry.uptime ++ ' ' :: (entry.message ++ ['\n'])

/-- The steady clock in nanoseconds, the singleton with its `m_startTime`, and what has been
printed. -/
structure Shared (Tid : Type*) where
  now : Nat
  startTime : Option Nat
  output : List Char
  /-- History variable: the entries, in the order in which the clock has been read for them. -/
  log : List (Tid × Entry)

/-- `GetUptime`. -/
def Shared.getUptime {Tid : Type*} (shared : Shared Tid) : Nat :=
  (shared.now - shared.startTime.getD shared.now) / 1000000

/-- Where a thread is in `Log`. -/
inductive Phase
  | idle
  | entered (message : List Char)
  | writing (rest : List Char)
  deriving DecidableEq

/-- A thread, and the messages that it is going to log. -/
structure Local where
  messages : List (List Char)
  phase : Phase
  deriving DecidableEq

/-- Time passes, or a thread makes a step of `Log`. -/
inductive Action
  | tick
  | get
  | formatUptime
  | put
  | ret
  deriving DecidableEq

/-- One step of a thread. -/
def threadStep {Tid : Type*} (thread : Tid) :
    Action → Shared Tid → Local → Option (Shared Tid × Local)
  | .tick, shared, caller => some ({ shared with now := shared.now + 1 }, caller)
  | .get, shared, ⟨message :: messages, .idle⟩ =>
      -- the constructor of the singleton reads the clock, in the first call only
      some ({ shared with startTime := some (shared.startTime.getD shared.now) },
        ⟨messages, .entered message⟩)
  | .formatUptime, shared, ⟨messages, .entered message⟩ =>
      let entry : Entry := ⟨shared.getUptime, message⟩
      some ({ shared with log := shared.log ++ [(thread, entry)] },
        ⟨messages, .writing (line entry)⟩)
  | .put, shared, ⟨messages, .writing (character :: rest)⟩ =>
      some ({ shared with output := shared.output ++ [character] }, ⟨messages, .writing rest⟩)
  | .ret, shared, ⟨messages, .writing []⟩ => some (shared, ⟨messages, .idle⟩)
  | _, _, _ => none

/-- Threads that log their messages. -/
def program {Tid : Type*} (texts : Tid → List (List Char)) :
    Program Tid Action (Shared Tid) Local where
  Initial shared threads := shared.startTime = none ∧ shared.output = [] ∧ shared.log = [] ∧
    threads = fun thread => ⟨texts thread, .idle⟩
  step := threadStep

/-- What is left of the line that is being printed. -/
def Phase.rest : Phase → List Char
  | .writing rest => rest
  | _ => []

/-- The messages that a thread has not read the clock for. -/
def Local.toLog (caller : Local) : List (List Char) :=
  match caller.phase with
  | .entered message => message :: caller.messages
  | _ => caller.messages

section Steps

variable {Tid : Type*} {thread : Tid} {action : Action} {shared shared' : Shared Tid}
  {caller caller' : Local}

theorem step_cases (step : threadStep thread action shared caller = some (shared', caller')) :
    (action = .tick ∧ shared' = { shared with now := shared.now + 1 } ∧ caller' = caller) ∨
    (action = .get ∧ ∃ message, caller.phase = .idle ∧
      caller.messages = message :: caller'.messages ∧ caller'.phase = .entered message ∧
      shared' = { shared with startTime := some (shared.startTime.getD shared.now) }) ∨
    (action = .formatUptime ∧ ∃ message, caller.phase = .entered message ∧
      caller' = ⟨caller.messages, .writing (line ⟨shared.getUptime, message⟩)⟩ ∧
      shared' = { shared with log := shared.log ++ [(thread, ⟨shared.getUptime, message⟩)] }) ∨
    (action = .put ∧ ∃ character, caller.phase = .writing (character :: caller'.phase.rest) ∧
      caller' = ⟨caller.messages, .writing caller'.phase.rest⟩ ∧
      shared' = { shared with output := shared.output ++ [character] }) ∨
    (action = .ret ∧ caller.phase = .writing [] ∧ caller' = ⟨caller.messages, .idle⟩ ∧
      shared' = shared) := by
  unfold threadStep at step
  split at step <;> simp at step <;> obtain ⟨rfl, rfl⟩ := step <;> simp [Phase.rest]

theorem getUptime_le_of_step
    (step : threadStep thread action shared caller = some (shared', caller')) :
    shared.getUptime ≤ shared'.getUptime := by
  rcases step_cases step with ⟨-, rfl, -⟩ | ⟨-, message, -, -, -, rfl⟩ | ⟨-, message, -, -, rfl⟩ |
    ⟨-, character, -, -, rfl⟩ | ⟨-, -, -, rfl⟩
  · apply Nat.div_le_div_right
    cases shared.startTime with
    | none => simp
    | some start => simpa using Nat.sub_le_sub_right (Nat.le_succ shared.now) start
  · exact Nat.le_refl _
  · exact Nat.le_refl _
  · exact Nat.le_refl _
  · exact Nat.le_refl _

end Steps

/-! ## What has been printed -/

/-- The entries stand in the order of their times, and the tagged characters are the output. -/
structure Stamped {Tid : Type*} (tagged : List (Tid × Char)) (shared : Shared Tid) : Prop where
  ordered : shared.log.Pairwise fun earlier later => earlier.2.uptime ≤ later.2.uptime
  past : ∀ entry ∈ shared.log, entry.2.uptime ≤ shared.getUptime
  output : tagged.map Prod.snd = shared.output

/-- A thread has an entry for each message that it has logged, and has printed their lines up to
what is left of the last one. -/
structure Kept {Tid : Type*} [DecidableEq Tid] (texts : Tid → List (List Char))
    (tagged : List (Tid × Char)) (thread : Tid) (shared : Shared Tid) (caller : Local) :
    Prop where
  messages : (own thread shared.log).map Entry.message ++ caller.toLog = texts thread
  printed : own thread tagged ++ caller.phase.rest = (own thread shared.log).flatMap line

variable {Tid : Type*} [DecidableEq Tid] {texts : Tid → List (List Char)} {thread : Tid}
  {action : Action} {shared shared' : Shared Tid} {caller caller' : Local}
  {tagged : List (Tid × Char)} {config : Program.Config Tid (Shared Tid) Local}

/-- What a step adds to the output. -/
theorem exists_kept_of_step (stamped : Stamped tagged shared)
    (kept : Kept texts tagged thread shared caller)
    (step : threadStep thread action shared caller = some (shared', caller')) :
    ∃ tagged', Stamped tagged' shared' ∧ Kept texts tagged' thread shared' caller' ∧
      ∀ other otherCaller, other ≠ thread → Kept texts tagged other shared otherCaller →
        Kept texts tagged' other shared' otherCaller := by
  have later := getUptime_le_of_step step
  have past : ∀ entry ∈ shared.log, entry.2.uptime ≤ shared'.getUptime := fun entry member =>
    (stamped.past entry member).trans later
  obtain ⟨messages, printed⟩ := kept
  rcases step_cases step with ⟨-, rfl, rfl⟩ | ⟨-, message, idle, next, entered, rfl⟩ |
    ⟨-, message, entered, rfl, rfl⟩ | ⟨-, character, writing, same, rfl⟩ | ⟨-, writing, rfl, rfl⟩
  · exact ⟨tagged, ⟨stamped.ordered, past, stamped.output⟩, ⟨messages, printed⟩,
      fun other _ _ holds => ⟨holds.messages, holds.printed⟩⟩
  · refine ⟨tagged, ⟨stamped.ordered, past, stamped.output⟩, ⟨?_, ?_⟩,
      fun other _ _ holds => ⟨holds.messages, holds.printed⟩⟩
    · simpa [Local.toLog, idle, next, entered] using messages
    · simpa [Phase.rest, idle, entered] using printed
  · refine ⟨tagged, ⟨?_, ?_, stamped.output⟩, ⟨?_, ?_⟩, fun other _ foreign holds => ?_⟩
    · refine List.pairwise_append.mpr ⟨stamped.ordered, List.pairwise_singleton _ _, ?_⟩
      intro entry member latest last
      obtain rfl := List.mem_singleton.mp last
      exact stamped.past entry member
    · intro entry member
      rcases List.mem_append.mp member with member | last
      · exact stamped.past entry member
      · obtain rfl := List.mem_singleton.mp last
        exact Nat.le_refl _
    · simpa [Local.toLog, entered] using messages
    · simpa [Phase.rest, entered] using printed
    · obtain ⟨messages, printed⟩ := holds
      exact ⟨by simpa [own_cons_of_ne foreign.symm] using messages,
        by simpa [own_cons_of_ne foreign.symm] using printed⟩
  · refine ⟨tagged ++ [(thread, character)], ⟨stamped.ordered, past, ?_⟩, ⟨?_, ?_⟩,
      fun other _ foreign holds => ?_⟩
    · simp [stamped.output]
    · rw [same]
      simpa [Local.toLog, writing] using messages
    · rw [writing] at printed
      simpa [Phase.rest] using printed
    · obtain ⟨messages, printed⟩ := holds
      exact ⟨messages, by simpa [own_cons_of_ne foreign.symm] using printed⟩
  · refine ⟨tagged, stamped, ⟨?_, ?_⟩, fun other _ _ holds => holds⟩
    · simpa [Local.toLog, writing] using messages
    · simpa [Phase.rest, writing] using printed

/-- The times of the log are in order, each thread has the entries of its messages, and the output
is a merge of what the threads have printed. -/
theorem exists_kept_of_reachable (reach : (program texts).system.Reachable config) :
    ∃ tagged, Stamped tagged config.shared ∧
      ∀ thread, Kept texts tagged thread config.shared (config.threads thread) := by
  refine Program.exists_auxiliary_of_assertions Stamped (Kept texts) ?_ ?_ reach.unrestricted
  · rintro shared threads ⟨-, output, log, rfl⟩
    exact ⟨[], ⟨by simp [log], by simp [log], output.symm⟩,
      fun thread => ⟨by simp [log, Local.toLog], by simp [log, Phase.rest]⟩⟩
  · intro tagged before after thread action shared' caller' kept stamped step _ _
    exact exists_kept_of_step stamped (kept thread) step

/-! ## The end of the log -/

theorem length_write_int_le (number : BitVec 32) : (Decimal.write number.toInt).length ≤ 11 := by
  have low := number.le_two_mul_toInt
  have high := number.two_mul_toInt_lt
  exact Decimal.length_write_le (by decide) (by omega)

/-- The buffer of 128 characters is large enough. -/
theorem length_formatUptime_le (uptime : Nat) : (formatUptime uptime).length ≤ 18 := by
  have seconds := length_write_int_le (BitVec.ofNat 32 (uptime / 1000))
  have milliseconds : (Decimal.padded 3 (uptime % 1000)).length = 3 :=
    Decimal.length_padded (by decide) (Nat.mod_lt _ (by decide))
  simp only [formatUptime, List.length_cons, List.length_append, List.length_nil, milliseconds]
  omega

theorem length_line_le (entry : Entry) : (line entry).length ≤ entry.message.length + 20 := by
  have short := length_formatUptime_le entry.uptime
  simp only [line, List.length_append, List.length_cons, List.length_nil]
  omega

/-- A bound on the steps that a thread has to go. -/
def Local.rank (caller : Local) : Nat :=
  (match caller.phase with
    | .idle => 0
    | .entered message => message.length + 22
    | .writing rest => rest.length + 1) +
  (caller.messages.map fun message => message.length + 23).sum

omit [DecidableEq Tid] in
theorem rank_lt_of_step (step : threadStep thread action shared caller = some (shared', caller')) :
    caller'.rank + 1 ≤ caller.rank + (action == .tick).toNat := by
  rcases step_cases step with ⟨rfl, rfl, rfl⟩ | ⟨rfl, message, idle, next, entered, rfl⟩ |
    ⟨rfl, message, entered, rfl, rfl⟩ | ⟨rfl, character, writing, same, rfl⟩ |
    ⟨rfl, writing, rfl, rfl⟩
  · simp
  · simp only [Local.rank, idle, next, entered, List.map_cons, List.sum_cons]
    omega
  · have short : (line ⟨shared.getUptime, message⟩).length ≤ message.length + 20 :=
      length_line_le _
    simp only [Local.rank, entered]
    omega
  · rw [same]
    simp only [Local.rank, writing, List.length_cons]
    omega
  · simp only [Local.rank, writing, List.length_nil]
    omega

omit [DecidableEq Tid] in
theorem ended_of_stuck (stuck : ∀ action shared' caller',
    threadStep thread action shared caller = some (shared', caller') → action = .tick) :
    caller = ⟨[], .idle⟩ := by
  obtain ⟨messages, phase⟩ := caller
  cases phase with
  | idle =>
      cases messages with
      | nil => rfl
      | cons message messages => exact absurd (stuck .get _ _ rfl) nofun
  | entered message => exact absurd (stuck .formatUptime _ _ rfl) nofun
  | writing rest =>
      cases rest with
      | nil => exact absurd (stuck .ret _ _ rfl) nofun
      | cons character rest => exact absurd (stuck .put _ _ rfl) nofun

/-- Whatever the interleaving, all messages are logged in the end: each thread's in their order, the
times in the order of the clock readings; the output is a merge of the threads' lines, and no time
overflows the 128 characters of `FormatUptime`. -/
theorem all_logged [Fintype Tid] (initial : (program texts).system.Initial config) :
    (program texts).system.InevitableDespite (fun label => label.2 == .tick) (fun after =>
      (∀ thread, (own thread after.shared.log).map Entry.message = texts thread) ∧
      after.shared.log.Pairwise (fun earlier later => earlier.2.uptime ≤ later.2.uptime) ∧
      IsMerge (fun thread => (own thread after.shared.log).flatMap line) after.shared.output ∧
      ∀ entry ∈ after.shared.log, (formatUptime entry.2.uptime).length < 128) config := by
  have ends : (program texts).system.InevitableDespite (fun label => label.2 == .tick)
      (fun after => ∀ thread, after.threads thread = ⟨[], .idle⟩) config := by
    refine TransitionSystem.inevitableDespite_of_decreasing (motive := fun _ => True)
      (fun config => Program.sumThreads Local.rank config.threads) _ 1 trivial ?_ ?_
    · rintro before ⟨thread, action⟩ after - step
      obtain ⟨shared, caller, taken, rfl⟩ := Program.system_step_iff.mp step
      have less := rank_lt_of_step taken
      have change := Program.sumThreads_update Local.rank before.threads thread caller
      exact ⟨trivial, by simp only; omega⟩
    · intro after _ stuck thread
      have waits : ∀ action shared caller, threadStep thread action after.shared
          (after.threads thread) = some (shared, caller) → action = .tick := by
        intro action shared caller taken
        have step : (program texts).system.Step after (thread, action)
            ⟨shared, Function.update after.threads thread caller⟩ :=
          Program.system_step_iff.mpr ⟨shared, caller, taken, rfl⟩
        simpa using stuck (thread, action) _ step
      exact ended_of_stuck waits
  refine ends.widen (.initial initial) fun {after} reach ended => ?_
  obtain ⟨tagged, stamped, kept⟩ := exists_kept_of_reachable reach
  refine ⟨fun thread => ?_, stamped.ordered, ⟨tagged, stamped.output, fun thread => ?_⟩,
    fun entry _ => ?_⟩
  · simpa [ended thread, Local.toLog] using (kept thread).messages
  · simpa [ended thread, Phase.rest] using (kept thread).printed
  · have short := length_formatUptime_le entry.2.uptime
    omega

/-- Two threads that have found a deadlock. -/
def deadlockTexts : Fin 2 → List (List Char) := fun _ => ["deadlock detected! aborting".toList]

/-- A run of two calls. -/
theorem all_logged_deadlock : (program deadlockTexts).system.InevitableDespite
    (fun label => label.2 == .tick) (fun after =>
      (∀ thread, (own thread after.shared.log).map Entry.message = deadlockTexts thread) ∧
      after.shared.log.Pairwise (fun earlier later => earlier.2.uptime ≤ later.2.uptime) ∧
      IsMerge (fun thread => (own thread after.shared.log).flatMap line) after.shared.output ∧
      ∀ entry ∈ after.shared.log, (formatUptime entry.2.uptime).length < 128)
    ⟨⟨0, none, [], []⟩, fun thread => ⟨deadlockTexts thread, .idle⟩⟩ :=
  all_logged ⟨rfl, rfl, rfl, rfl⟩

/-! ## Calls that do not overlap -/

/-- No call begins while another is in progress. -/
def Serial (before : Program.Config Tid (Shared Tid) Local) (label : Tid × Action)
    (_after : Program.Config Tid (Shared Tid) Local) : Prop :=
  label.2 = .get → ∀ thread, (before.threads thread).phase = .idle

instance [Fintype Tid] (before : Program.Config Tid (Shared Tid) Local) (label : Tid × Action)
    (after : Program.Config Tid (Shared Tid) Local) : Decidable (Serial before label after) :=
  inferInstanceAs (Decidable (label.2 = .get → ∀ thread, (before.threads thread).phase = .idle))

/-- The output consists of the lines of the log, up to what is left of the last one. -/
inductive Whole (config : Program.Config Tid (Shared Tid) Local) : Prop
  | quiet (idle : ∀ thread, (config.threads thread).phase = .idle)
      (lines : config.shared.output = config.shared.log.flatMap fun entry => line entry.2)
  | inside (thread : Tid) (others : ∀ other ≠ thread, (config.threads other).phase = .idle)
      (lines : config.shared.output ++ (config.threads thread).phase.rest =
        config.shared.log.flatMap fun entry => line entry.2)

omit [DecidableEq Tid] in
/-- A thread that makes a step of a call is the only one in a call. -/
theorem Whole.of_step (whole : Whole config)
    (serial : action = .get → ∀ thread, (config.threads thread).phase = .idle)
    (step : threadStep thread action config.shared (config.threads thread) =
      some (shared', caller')) (call : action ≠ .tick) :
    (∀ other ≠ thread, (config.threads other).phase = .idle) ∧
      config.shared.output ++ (config.threads thread).phase.rest =
        config.shared.log.flatMap fun entry => line entry.2 := by
  have begins : (config.threads thread).phase = .idle → action = .get := by
    intro idle
    rcases step_cases step with ⟨tick, -⟩ | ⟨get, -⟩ | ⟨-, message, entered, -⟩ |
      ⟨-, character, writing, -⟩ | ⟨-, writing, -⟩
    · exact absurd tick call
    · exact get
    · exact absurd (idle.symm.trans entered) nofun
    · exact absurd (idle.symm.trans writing) nofun
    · exact absurd (idle.symm.trans writing) nofun
  cases whole with
  | quiet idle lines => exact ⟨fun other _ => idle other, by simpa [idle, Phase.rest] using lines⟩
  | inside current others lines =>
      by_cases same : thread = current
      · subst same
        exact ⟨others, lines⟩
      · have idle := serial (begins (others thread same))
        rw [idle current] at lines
        exact ⟨fun other _ => idle other, by rw [idle thread]; exact lines⟩

theorem whole_of_reachable
    (reach : ((program texts).system.restrict Serial).Reachable config) : Whole config := by
  refine reach.invariant ?_ ?_
  · rintro ⟨shared, threads⟩ ⟨-, output, log, rfl⟩
    exact .quiet (fun _ => rfl) (by rw [output, log]; rfl)
  · rintro before ⟨thread, action⟩ after - whole ⟨step, serial⟩
    obtain ⟨shared, caller, taken, rfl⟩ := Program.system_step_iff.mp step
    by_cases call : action = .tick
    · subst call
      obtain ⟨rfl, rfl⟩ : { before.shared with now := before.shared.now + 1 } = shared ∧
          before.threads thread = caller := by simpa [program, threadStep] using taken
      rw [Function.update_eq_self]
      cases whole with
      | quiet idle lines => exact .quiet idle lines
      | inside thread others lines => exact .inside thread others lines
    · obtain ⟨others, lines⟩ := whole.of_step serial taken call
      refine .inside thread (fun other foreign => by simpa [foreign] using others other foreign) ?_
      suffices printed : shared.output ++ caller.phase.rest =
          shared.log.flatMap fun entry => line entry.2 by simpa using printed
      rcases step_cases taken with ⟨tick, -⟩ | ⟨-, message, idle, -, entered, rfl⟩ |
        ⟨-, message, entered, rfl, rfl⟩ | ⟨-, character, writing, same, rfl⟩ |
        ⟨-, writing, rfl, rfl⟩
      · exact absurd tick call
      · simpa [Phase.rest, idle, entered] using lines
      · simpa [Phase.rest, entered] using lines
      · rw [writing] at lines
        simpa [Phase.rest] using lines
      · simpa [Phase.rest, writing] using lines

/-! ## Reading the log -/

/-- Read a line without its break. -/
def readLine : List Char → Option Entry
  | '[' :: text =>
      match Decimal.readDigits text, text.dropWhile Char.isDigit with
      | some seconds, '.' :: text =>
          match Decimal.readDigits text, text.dropWhile Char.isDigit with
          | some milliseconds, 's' :: ']' :: ' ' :: message =>
              some ⟨1000 * seconds + milliseconds, message⟩
          | _, _ => none
      | _, _ => none
  | _ => none

/-- Read the lines. -/
def readLog (text : List Char) : Option (List Entry) :=
  (Segments.parts '\n' text).mapM readLine

theorem formatUptime_of_lt {uptime : Nat} (early : uptime < 1000 * 2 ^ 31) :
    formatUptime uptime = '[' :: (Decimal.padded 0 (uptime / 1000) ++ '.' ::
      (Decimal.padded 3 (uptime % 1000) ++ ['s', ']'])) := by
  have small : (BitVec.ofNat 32 (uptime / 1000)).toNat = uptime / 1000 := by
    rw [BitVec.toNat_ofNat]
    exact Nat.mod_eq_of_lt (by omega)
  have positive : (BitVec.ofNat 32 (uptime / 1000)).toInt = (uptime / 1000 : Nat) := by
    rw [BitVec.toInt_eq_toNat_of_lt (by omega), small]
  rw [Decimal.padded_zero]
  simp only [formatUptime, positive]
  rfl

theorem readLine_formatUptime {entry : Entry} (early : entry.uptime < 1000 * 2 ^ 31) :
    readLine (formatUptime entry.uptime ++ ' ' :: entry.message) = some entry := by
  have time : 1000 * (entry.uptime / 1000) + entry.uptime % 1000 = entry.uptime :=
    Nat.div_add_mod _ _
  have dot : ('.' : Char).isDigit = false := rfl
  have unit : ('s' : Char).isDigit = false := rfl
  rw [formatUptime_of_lt early]
  simp only [readLine, List.cons_append, List.append_assoc, List.nil_append,
    Decimal.readDigits_padded_append dot, Decimal.dropWhile_padded_append dot,
    Decimal.readDigits_padded_append unit, Decimal.dropWhile_padded_append unit, time]

theorem newline_notMem_formatUptime {uptime : Nat} (early : uptime < 1000 * 2 ^ 31) :
    '\n' ∉ formatUptime uptime := by
  have digits (width number : Nat) : '\n' ∉ Decimal.padded width number := fun member =>
    absurd (Decimal.isDigit_of_mem_padded member) (by decide)
  rw [formatUptime_of_lt early]
  simp [digits]

/-- Entries whose messages are single lines are read back. -/
theorem readLog_lines {entries : List Entry}
    (proper : ∀ entry ∈ entries, entry.uptime < 1000 * 2 ^ 31 ∧ '\n' ∉ entry.message) :
    readLog (entries.flatMap line) = some entries := by
  let text (entry : Entry) := formatUptime entry.uptime ++ ' ' :: entry.message
  have broken : line = fun entry => text entry ++ ['\n'] := by
    funext entry
    simp [line, text]
  have lines : entries.flatMap line = (entries.map text).flatMap (· ++ ['\n']) := by
    rw [List.flatMap_map, broken]
  have split : Segments.parts '\n' (entries.flatMap line) = entries.map text := by
    rw [lines]
    refine Columns.parts_lines fun other member => ?_
    obtain ⟨entry, inside, rfl⟩ := List.mem_map.mp member
    obtain ⟨early, single⟩ := proper entry inside
    exact ⟨by simp [text, newline_notMem_formatUptime early, single], by simp [text]⟩
  rw [readLog, split]
  clear lines split
  induction entries with
  | nil => rfl
  | cons entry entries ih =>
      obtain ⟨⟨early, -⟩, others⟩ := List.forall_mem_cons.mp proper
      rw [List.map_cons, List.mapM_cons, readLine_formatUptime early, ih others]
      rfl

/-- When no two calls have overlapped and none is in progress, reading the output gives back what
has been logged, with times in their order and with all messages of each thread in theirs. -/
theorem readLog_of_serial (single : ∀ thread, ∀ message ∈ texts thread, '\n' ∉ message)
    (reach : ((program texts).system.restrict Serial).Reachable config)
    (quiet : ∀ thread, (config.threads thread).phase = .idle)
    (early : config.shared.getUptime < 1000 * 2 ^ 31) :
    readLog config.shared.output = some (config.shared.log.map Prod.snd) ∧
      config.shared.log.Pairwise (fun earlier later => earlier.2.uptime ≤ later.2.uptime) ∧
      ∀ thread, (own thread config.shared.log).map Entry.message ++
        (config.threads thread).messages = texts thread := by
  obtain ⟨tagged, stamped, kept⟩ := exists_kept_of_reachable reach.of_restrict
  have messages (thread : Tid) : (own thread config.shared.log).map Entry.message ++
      (config.threads thread).messages = texts thread := by
    simpa [Local.toLog, quiet thread] using (kept thread).messages
  have lines : config.shared.output = (config.shared.log.map Prod.snd).flatMap line := by
    rw [List.flatMap_map]
    cases whole_of_reachable reach with
    | quiet _ lines => exact lines
    | inside thread _ lines => simpa [quiet thread, Phase.rest] using lines
  refine ⟨?_, stamped.ordered, messages⟩
  rw [lines]
  refine readLog_lines fun entry member => ?_
  obtain ⟨⟨thread, _⟩, inside, rfl⟩ := List.mem_map.mp member
  refine ⟨(stamped.past _ inside).trans_lt early, single thread _ ?_⟩
  rw [← messages thread]
  exact List.mem_append_left _ (List.mem_map_of_mem (mem_own inside))

/-- Two threads with a message each. -/
def twoTexts : Fin 2 → List (List Char)
  | 0 => [['a']]
  | 1 => [['b']]

/-- A whole call of a thread, with a message of one character. -/
def wholeCall (thread : Fin 2) : List (Fin 2 × Action) :=
  let steps : List Action := [.get, .formatUptime] ++ List.replicate 11 .put ++ [.ret]
  steps.map (thread, ·)

/-- Two calls, one after the other, and then their lines. -/
theorem readLog_of_serial_two : ∃ config,
    ((program twoTexts).system.restrict Serial).Reachable config ∧
      readLog config.shared.output = some (config.shared.log.map Prod.snd) ∧
      config.shared.log.map (fun entry => entry.2.message) = [['b'], ['a']] := by
  let start : Program.Config (Fin 2) (Shared (Fin 2)) Local :=
    ⟨⟨0, none, [], []⟩, fun thread => ⟨twoTexts thread, .idle⟩⟩
  obtain ⟨config, run, quiet, early, messages⟩ : ∃ config,
      ((program twoTexts).system.restrict Serial).Run start (wholeCall 1 ++ wholeCall 0) config ∧
        (∀ thread, (config.threads thread).phase = .idle) ∧
        config.shared.getUptime < 1000 * 2 ^ 31 ∧
        config.shared.log.map (fun entry => entry.2.message) = [['b'], ['a']] :=
    Program.exists_run_of_execute (by decide +kernel)
  have reach : ((program twoTexts).system.restrict Serial).Reachable config :=
    run.reachable (.initial ⟨rfl, rfl, rfl, rfl⟩)
  have single : ∀ thread, ∀ message ∈ twoTexts thread, '\n' ∉ message := by decide
  exact ⟨config, reach, (readLog_of_serial single reach quiet early).1, messages⟩

end Logger
end ConcurrencyCourse
