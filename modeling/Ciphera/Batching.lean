import Mathlib.Data.List.Nodup
import Mathlib.Data.List.Range
import Mathlib.Algebra.GroupWithZero.Nat
import Ciphera.Lib.Run

/-!
# Request batching

A caller adds its item to a queue and waits on a channel of its own.  The caller that
finds no execution scheduled or running spawns a task; the task waits, takes all items
that are queued by then, has them processed together and sends the results back.  Items
that arrive in the meantime are left to the next round of the same task.

Callers and tasks take turns in any order, one critical section of the queue at a time,
with any readings of the clock.
-/

namespace Ciphera.Batching

open Ciphera.Lib

variable {Item Result Error : Type}

/-! ## The queue -/

/-- Why a caller gets no result. -/
inductive BatchError (Error : Type)
  | taskDropped
  | processorError (error : Error)
  deriving DecidableEq, Repr

/-- What a caller gets. -/
abbrev ProcessResult (Result Error : Type) := Except (BatchError Error) Result

/-- The channel of a call, by the number of calls before it. -/
abbrev Sender := Nat

/-- Nanoseconds. -/
abbrev Instant := Nat

/-- Milliseconds in nanoseconds. -/
def millis (duration : Nat) : Nat := duration * 1000000

/-- The delays, in milliseconds. -/
structure BatchConfig where
  batchDelayMs : Nat := 10
  minIntervalMs : Nat := 100
  deriving DecidableEq, Repr

/-- The items that wait, and when they were and will be processed. -/
structure BatchQueue (Item : Type) where
  items : List (Item × Sender) := []
  nextExecution : Option Instant := none
  lastExecution : Option Instant := none
  processing : Bool := false
  deriving DecidableEq, Repr

namespace BatchQueue

/-- Add an item, and schedule an execution if there is none. -/
def call (config : BatchConfig) (now : Instant) (item : Item) (sender : Sender)
    (queue : BatchQueue Item) : Bool × BatchQueue Item :=
  let queue := { queue with items := queue.items ++ [(item, sender)] }
  if queue.nextExecution.isNone && !queue.processing then
    let batchNext := now + millis config.batchDelayMs
    let nextTime := match queue.lastExecution with
      | some lastExec => max (lastExec + millis config.minIntervalMs) batchNext
      | none => batchNext
    (true, { queue with nextExecution := some nextTime })
  else (false, queue)

/-- How long a task waits for the execution that is scheduled. -/
def waitDuration (now : Instant) (queue : BatchQueue Item) : Option Nat :=
  queue.nextExecution.map fun nextTime => nextTime - now

/-- Take all items out for processing. -/
def take (queue : BatchQueue Item) : BatchQueue Item :=
  { queue with items := [], nextExecution := none, processing := true }

/-- After an execution the next one is scheduled if items have arrived in the meantime. -/
def update (lastExec now elapsedAt : Instant) (queue : BatchQueue Item) :
    Bool × BatchQueue Item :=
  let queue := { queue with lastExecution := some lastExec, processing := false }
  if !queue.items.isEmpty && queue.nextExecution.isNone then
    let minNext := lastExec + millis ((elapsedAt - lastExec) / millis 1)
    (true, { queue with nextExecution := some (max minNext now) })
  else (false, queue)

end BatchQueue

/-! ## Tasks -/

/-- What a processor may return for the items of a batch. -/
abbrev BatchProcessor (Item Result Error : Type) :=
  List Item → Except Error (List Result) → Prop

/-- The number of results matches the number of items. -/
def BatchProcessor.OnePerItem (processor : BatchProcessor Item Result Error) : Prop :=
  ∀ items results, processor items (.ok results) → results.length = items.length

/-- The items that were processed together, and what came of it. -/
structure Execution (Item Result Error : Type) where
  items : List (Item × Sender)
  outcome : Except Error (List Result)

/-- What is sent to the callers: each result to the sender at its position, or the error to
all of them. -/
def Execution.answers (execution : Execution Item Result Error) :
    List (Sender × ProcessResult Result Error) :=
  match execution.outcome with
  | .ok results => (execution.items.map Prod.snd).zip (results.map .ok)
  | .error error => (execution.items.map Prod.snd).map fun sender =>
      (sender, .error (.processorError error))

/-- Where a task is: about to be spawned, at the start of a round, asleep, with the items
that it took, or sending what is left to be sent. -/
inductive Task (Item Result Error : Type)
  | spawning
  | scheduled
  | sleeping (duration : Nat)
  | taken (items : List (Item × Sender))
  | sending (answers : List (Sender × ProcessResult Result Error))

/-- What happens, with the readings of the clock. -/
inductive Event (Item Result Error : Type)
  | call (item : Item) (now : Instant)
  | updateConfig (config : BatchConfig)
  | spawn
  | wait (now : Instant)
  | take
  | process (outcome : Except Error (List Result))
  | skip
  | send
  | update (lastExec now elapsedAt : Instant)

/-- What a step of a task leaves: the queue, the task unless it has ended, and what was
executed and sent. -/
structure Effect (Item Result Error : Type) where
  queue : BatchQueue Item
  task : Option (Task Item Result Error)
  executed : List (Execution Item Result Error) := []
  sent : List (Sender × ProcessResult Result Error) := []

/-- One step of a spawned task, with what it does to the queue. -/
inductive Task.Step (processor : BatchProcessor Item Result Error) (queue : BatchQueue Item) :
    Task Item Result Error → Event Item Result Error → Effect Item Result Error → Prop
  | spawn : Step processor queue .spawning .spawn { queue, task := some .scheduled }
  | wait (now : Instant) :
      Step processor queue .scheduled (.wait now)
        { queue, task := (queue.waitDuration now).map .sleeping }
  | take (duration : Nat) :
      Step processor queue (.sleeping duration) .take
        { queue := queue.take, task := some (.taken queue.items) }
  | process {items : List (Item × Sender)} {outcome : Except Error (List Result)} :
      items ≠ [] → processor (items.map Prod.fst) outcome →
      Step processor queue (.taken items) (.process outcome)
        { queue, task := some (.sending (Execution.answers ⟨items, outcome⟩)),
          executed := [⟨items, outcome⟩] }
  | skip : Step processor queue (.taken []) .skip { queue, task := some (.sending []) }
  | send (answer : Sender × ProcessResult Result Error)
      (rest : List (Sender × ProcessResult Result Error)) :
      Step processor queue (.sending (answer :: rest)) .send
        { queue, task := some (.sending rest), sent := [answer] }
  | update (lastExec now elapsedAt : Instant) :
      Step processor queue (.sending []) (.update lastExec now elapsedAt)
        { queue := (queue.update lastExec now elapsedAt).2,
          task := if (queue.update lastExec now elapsedAt).1 then some .scheduled else none }

/-! ## Callers and tasks together -/

/-- The queue and the tasks on it, with a record of what was executed and sent.  A caller
receives what is sent to its channel, unless it has gone away. -/
structure Batch (Item Result Error : Type) where
  config : BatchConfig := {}
  queue : BatchQueue Item := {}
  calls : Nat := 0
  tasks : List (Task Item Result Error) := []
  executed : List (Execution Item Result Error) := []
  sent : List (Sender × ProcessResult Result Error) := []

namespace Batch

/-- A batch that was never called. -/
def new (config : BatchConfig) : Batch Item Result Error := { config }

/-- A caller that has scheduled an execution is about to spawn the task for it. -/
def call (item : Item) (now : Instant) (batch : Batch Item Result Error) :
    Batch Item Result Error :=
  let (shouldSchedule, queue) := batch.queue.call batch.config now item batch.calls
  { batch with
    queue
    calls := batch.calls + 1
    tasks := batch.tasks ++ if shouldSchedule then [.spawning] else [] }

/-- One of the tasks has made a step. -/
def after (batch : Batch Item Result Error) (before later : List (Task Item Result Error))
    (effect : Effect Item Result Error) : Batch Item Result Error :=
  { batch with
    queue := effect.queue
    tasks := before ++ effect.task.toList ++ later
    executed := batch.executed ++ effect.executed
    sent := batch.sent ++ effect.sent }

/-- One step of callers and tasks, in any order. -/
inductive Step (processor : BatchProcessor Item Result Error) :
    Batch Item Result Error → Event Item Result Error → Batch Item Result Error → Prop
  | call (batch : Batch Item Result Error) (item : Item) (now : Instant) :
      Step processor batch (.call item now) (batch.call item now)
  | updateConfig (batch : Batch Item Result Error) (config : BatchConfig) :
      Step processor batch (.updateConfig config) { batch with config }
  | task {batch : Batch Item Result Error} {before later : List (Task Item Result Error)}
      {task : Task Item Result Error} {event : Event Item Result Error}
      {effect : Effect Item Result Error} :
      batch.tasks = before ++ task :: later → task.Step processor batch.queue event effect →
      Step processor batch event (batch.after before later effect)

end Batch

/-! ## The task in charge -/

namespace Task

/-- The items that a task has taken and not yet had processed. -/
def held : Task Item Result Error → List (Item × Sender)
  | .taken items => items
  | _ => []

/-- What a task has yet to send. -/
def pending : Task Item Result Error → List (Sender × ProcessResult Result Error)
  | .sending answers => answers
  | _ => []

/-- The task will take what is queued. -/
def Waiting : Task Item Result Error → Prop
  | .spawning | .scheduled | .sleeping _ => True
  | .taken _ | .sending _ => False

end Task

/-- There is one task at most, and there is one whenever an item is queued.  The two flags of
the queue tell whether it is before or after taking items. -/
inductive InCharge (queue : BatchQueue Item) : List (Task Item Result Error) → Prop
  | idle : queue.items = [] → queue.nextExecution = none → queue.processing = false →
      InCharge queue []
  | waiting {task : Task Item Result Error} : task.Waiting → queue.nextExecution.isSome = true →
      queue.processing = false → InCharge queue [task]
  | running {task : Task Item Result Error} : ¬task.Waiting → queue.nextExecution = none →
      queue.processing = true → InCharge queue [task]

/-- The items of the calls, in their order. -/
def submitted (events : List (Event Item Result Error)) : List Item :=
  events.filterMap fun event =>
    match event with
    | .call item _ => some item
    | _ => none

@[simp]
theorem submitted_snoc (events : List (Event Item Result Error))
    (event : Event Item Result Error) :
    submitted (events ++ [event]) = submitted events ++ submitted [event] :=
  List.filterMap_append

variable {processor : BatchProcessor Item Result Error} {queue : BatchQueue Item}
  {events : List (Event Item Result Error)} {batch next : Batch Item Result Error}

/-- Who calls when there is a task leaves the execution to it. -/
theorem InCharge.call {tasks : List (Task Item Result Error)} (inCharge : InCharge queue tasks)
    (config : BatchConfig) (now : Instant) (item : Item) (sender : Sender) :
    (queue.call config now item sender).2.items = queue.items ++ [(item, sender)] ∧
      InCharge (queue.call config now item sender).2
        (tasks ++ if (queue.call config now item sender).1 then [.spawning] else []) := by
  unfold BatchQueue.call
  cases inCharge with
  | idle empty unscheduled stopped =>
      rw [if_pos (by simp [unscheduled, stopped])]
      exact ⟨rfl, .waiting trivial rfl stopped⟩
  | waiting waits scheduled stopped =>
      rw [if_neg (by simp [Option.ne_none_iff_isSome, scheduled])]
      exact ⟨rfl, .waiting waits scheduled stopped⟩
  | running runs unscheduled started =>
      rw [if_neg (by simp [started])]
      exact ⟨rfl, .running runs unscheduled started⟩

/-- A step of the task in charge leaves the task in charge, or nothing to do. -/
theorem InCharge.step {task : Task Item Result Error} {event : Event Item Result Error}
    {effect : Effect Item Result Error} (inCharge : InCharge queue [task])
    (taken : task.Step processor queue event effect) :
    InCharge effect.queue effect.task.toList := by
  cases taken with
  | spawn =>
      rcases inCharge with _ | ⟨_, scheduled, stopped⟩ | ⟨runs, _, _⟩
      · exact .waiting trivial scheduled stopped
      · exact absurd trivial runs
  | wait now =>
      rcases inCharge with _ | ⟨_, scheduled, stopped⟩ | ⟨runs, _, _⟩
      · rcases Option.isSome_iff_exists.mp scheduled with ⟨nextTime, isNext⟩
        simp only [BatchQueue.waitDuration, isNext]
        exact .waiting trivial scheduled stopped
      · exact absurd trivial runs
  | take duration => exact .running id rfl rfl
  | process _ _ =>
      rcases inCharge with _ | ⟨waits, _, _⟩ | ⟨_, unscheduled, started⟩
      · exact waits.elim
      · exact .running id unscheduled started
  | skip =>
      rcases inCharge with _ | ⟨waits, _, _⟩ | ⟨_, unscheduled, started⟩
      · exact waits.elim
      · exact .running id unscheduled started
  | send answer rest =>
      rcases inCharge with _ | ⟨waits, _, _⟩ | ⟨_, unscheduled, started⟩
      · exact waits.elim
      · exact .running id unscheduled started
  | update lastExec now elapsedAt =>
      rcases inCharge with _ | ⟨waits, _, _⟩ | ⟨_, unscheduled, _⟩
      · exact waits.elim
      · cases queued : queue.items with
        | nil =>
            simp only [BatchQueue.update, queued, List.isEmpty_nil, Bool.not_true, Bool.false_and,
              Bool.false_eq_true, if_false]
            exact .idle rfl unscheduled rfl
        | cons item items =>
            simp only [BatchQueue.update, queued, unscheduled, List.isEmpty_cons, Bool.not_false,
              Option.isNone_none, Bool.and_self, if_true]
            exact .waiting trivial rfl rfl

@[simp]
theorem BatchQueue.update_items (lastExec now elapsedAt : Instant) (queue : BatchQueue Item) :
    (queue.update lastExec now elapsedAt).2.items = queue.items := by
  simp only [BatchQueue.update]
  split
  · rfl
  · rfl

/-- A step takes nothing away: what is not executed is held or queued, in the same order. -/
theorem Task.Step.moves {task : Task Item Result Error} {event : Event Item Result Error}
    {effect : Effect Item Result Error} (taken : task.Step processor queue event effect) :
    effect.executed.flatMap Execution.items ++ effect.task.toList.flatMap Task.held ++
      effect.queue.items = task.held ++ queue.items := by
  cases taken with
  | spawn => rfl
  | wait now =>
      cases queue.waitDuration now with
      | none => rfl
      | some duration => rfl
  | take duration => simp [BatchQueue.take, Task.held]
  | process _ _ => simp [Task.held]
  | skip => rfl
  | send answer rest => rfl
  | update lastExec now elapsedAt =>
      rw [BatchQueue.update_items]
      split
      · rfl
      · rfl

/-- A step sends the first of what is pending, or adds the answers to what it executed. -/
theorem Task.Step.answers {task : Task Item Result Error} {event : Event Item Result Error}
    {effect : Effect Item Result Error} (taken : task.Step processor queue event effect) :
    effect.sent ++ effect.task.toList.flatMap Task.pending =
      task.pending ++ effect.executed.flatMap Execution.answers := by
  cases taken with
  | spawn => rfl
  | wait now =>
      cases queue.waitDuration now with
      | none => rfl
      | some duration => rfl
  | take duration => rfl
  | process _ _ => simp [Task.pending]
  | skip => rfl
  | send answer rest => simp [Task.pending]
  | update lastExec now elapsedAt =>
      simp only []
      split
      · rfl
      · rfl

theorem Task.Step.processed {task : Task Item Result Error} {event : Event Item Result Error}
    {effect : Effect Item Result Error} (taken : task.Step processor queue event effect) :
    ∀ execution ∈ effect.executed,
      processor (execution.items.map Prod.fst) execution.outcome := by
  cases taken with
  | process _ returned =>
      intro execution mem
      rcases List.mem_singleton.mp mem with rfl
      exact returned
  | _ => exact fun _ mem => absurd mem List.not_mem_nil

theorem Task.Step.submits_nothing {task : Task Item Result Error}
    {event : Event Item Result Error} {effect : Effect Item Result Error}
    (taken : task.Step processor queue event effect) : submitted [event] = [] := by
  cases taken <;> rfl

/-! ## What holds in every run -/

/-- The items of the calls, each with its channel, are executed, held and queued in their
order, and the answers to what was executed are sent or pending in theirs. -/
structure Sound (processor : BatchProcessor Item Result Error)
    (events : List (Event Item Result Error)) (batch : Batch Item Result Error) : Prop where
  inCharge : InCharge batch.queue batch.tasks
  placed : batch.executed.flatMap Execution.items ++ batch.tasks.flatMap Task.held ++
    batch.queue.items = (submitted events).zipIdx
  calls : batch.calls = (submitted events).length
  answered : batch.sent ++ batch.tasks.flatMap Task.pending =
    batch.executed.flatMap Execution.answers
  processed : ∀ execution ∈ batch.executed,
    processor (execution.items.map Prod.fst) execution.outcome

theorem Sound.new (config : BatchConfig) : Sound processor [] (.new config) where
  inCharge := .idle rfl rfl rfl
  placed := rfl
  calls := rfl
  answered := rfl
  processed := fun _ mem => absurd mem List.not_mem_nil

theorem InCharge.eq_singleton {tasks : List (Task Item Result Error)}
    {before later : List (Task Item Result Error)} {task : Task Item Result Error}
    (inCharge : InCharge queue tasks) (isOne : tasks = before ++ task :: later) :
    before = [] ∧ later = [] ∧ tasks = [task] := by
  have single : ∀ other : Task Item Result Error, [other] = before ++ task :: later →
      before = [] ∧ later = [] ∧ [other] = [task] := by
    intro other same
    rcases List.singleton_eq_append_iff.mp same with ⟨rfl, same⟩ | ⟨_, empty⟩
    · rcases List.cons.inj same with ⟨rfl, rfl⟩
      exact ⟨rfl, rfl, rfl⟩
    · cases empty
  cases inCharge with
  | idle => simp at isOne
  | waiting => exact single _ isOne
  | running => exact single _ isOne

theorem Sound.step {event : Event Item Result Error} (sound : Sound processor events batch)
    (taken : Batch.Step processor batch event next) :
    Sound processor (events ++ [event]) next := by
  cases taken with
  | call item now =>
      rcases sound.inCharge.call batch.config now item batch.calls with ⟨queued, inCharge⟩
      have same : submitted (events ++ [.call item now]) = submitted events ++ [item] :=
        submitted_snoc events _
      have spawned : ∀ schedule : Bool, ((if schedule then [.spawning] else []) :
          List (Task Item Result Error)).flatMap Task.held = [] ∧
          ((if schedule then [.spawning] else []) :
            List (Task Item Result Error)).flatMap Task.pending = [] := by
        intro schedule
        cases schedule <;> exact ⟨rfl, rfl⟩
      refine ⟨inCharge, ?_, ?_, ?_, sound.processed⟩
      · simp only [Batch.call, List.flatMap_append, (spawned _).1, List.append_nil, queued]
        rw [← List.append_assoc, sound.placed, same, List.zipIdx_append, sound.calls]
        simp
      · simp [Batch.call, same, sound.calls]
      · simp only [Batch.call, List.flatMap_append, (spawned _).2, List.append_nil]
        exact sound.answered
  | updateConfig config =>
      have same : submitted (events ++ [.updateConfig config]) = submitted events := by
        rw [submitted_snoc]
        exact List.append_nil _
      exact ⟨sound.inCharge, same ▸ sound.placed, same ▸ sound.calls, sound.answered,
        sound.processed⟩
  | task isOne taken =>
      rcases sound.inCharge.eq_singleton isOne with ⟨rfl, rfl, single⟩
      have same : submitted (events ++ [event]) = submitted events := by
        rw [submitted_snoc, taken.submits_nothing, List.append_nil]
      have inCharge := sound.inCharge
      have placed := sound.placed
      have answered := sound.answered
      rw [single] at inCharge placed answered
      rw [List.flatMap_singleton] at placed answered
      refine ⟨?_, ?_, ?_, ?_, ?_⟩
      · simpa [Batch.after] using inCharge.step taken
      · simp only [Batch.after, List.nil_append, List.append_nil, List.flatMap_append, same]
        have moves := taken.moves
        simp only [← placed, List.append_assoc] at moves ⊢
        rw [moves]
      · rw [same]
        exact sound.calls
      · simp only [Batch.after, List.nil_append, List.append_nil, List.flatMap_append]
        rw [← answered, List.append_assoc, List.append_assoc, taken.answers]
      · intro execution mem
        rcases List.mem_append.mp mem with earlier | new
        · exact sound.processed execution earlier
        · exact taken.processed execution new

theorem Sound.of_run {config : BatchConfig}
    (run : Run (Batch.Step processor) (.new config) events batch) :
    Sound processor events batch :=
  run.invariant (motive := Sound processor) (.new config)
    fun _ _ _ _ _ sound taken => sound.step taken

/-! ## Answers and positions -/

namespace Execution

variable {execution : Execution Item Result Error}

/-- What the caller of the item at a position is to receive. -/
def answerAt (execution : Execution Item Result Error) (position : Nat) :
    Option (ProcessResult Result Error) :=
  match execution.outcome with
  | .ok results => results[position]?.map .ok
  | .error error => some (.error (.processorError error))

theorem position_of_answers {position : Nat} {sender : Sender}
    {result : ProcessResult Result Error}
    (isAnswer : execution.answers[position]? = some (sender, result)) :
    ∃ item, execution.items[position]? = some (item, sender) ∧
      execution.answerAt position = some result := by
  unfold answers at isAnswer
  unfold answerAt
  have ofSenders (isSender : (execution.items.map Prod.snd)[position]? = some sender) :
      ∃ item, execution.items[position]? = some (item, sender) := by
    rw [List.getElem?_map] at isSender
    rcases Option.map_eq_some_iff.mp isSender with ⟨⟨item, _⟩, isItem, rfl⟩
    exact ⟨item, isItem⟩
  cases outcome : execution.outcome with
  | ok results =>
      simp only [outcome] at isAnswer
      rcases List.getElem?_zip_eq_some.mp isAnswer with ⟨isSender, isResult⟩
      rw [List.getElem?_map] at isResult
      rcases ofSenders isSender with ⟨item, isItem⟩
      exact ⟨item, isItem, isResult⟩
  | error error =>
      simp only [outcome] at isAnswer
      rw [List.getElem?_map] at isAnswer
      rcases Option.map_eq_some_iff.mp isAnswer with ⟨_, isSender, same⟩
      rcases Prod.mk.inj same with ⟨rfl, rfl⟩
      rcases ofSenders isSender with ⟨item, isItem⟩
      exact ⟨item, isItem, rfl⟩

/-- With one result for each item every sender is answered. -/
theorem senders_answers (onePerItem : ∀ results, execution.outcome = .ok results →
      results.length = execution.items.length) :
    execution.answers.map Prod.fst = execution.items.map Prod.snd := by
  unfold answers
  cases outcome : execution.outcome with
  | ok results =>
      apply List.map_fst_zip
      rw [List.length_map, List.length_map, onePerItem results outcome]
  | error error => simp

theorem length_answers_le (execution : Execution Item Result Error) :
    execution.answers.length ≤ execution.items.length := by
  unfold answers
  split
  · rw [List.length_zip, List.length_map]
    exact Nat.min_le_left _ _
  · rw [List.length_map, List.length_map]

end Execution

/-! ## What the callers get -/

/-- Everything that was submitted, where it is now. -/
def Batch.everything (batch : Batch Item Result Error) : List (Item × Sender) :=
  batch.executed.flatMap Execution.items ++ batch.tasks.flatMap Task.held ++ batch.queue.items

/-- Each call is in one place: in one execution and at one position of it, taken, or queued.
What a channel is sent, once at most, is the result at the position of its item, and a task is
in charge of whatever is queued.  When no task is left, every channel was sent something. -/
structure Delivered (events : List (Event Item Result Error)) (batch : Batch Item Result Error) :
    Prop where
  once : (batch.everything.map Prod.snd).Nodup
  own : ∀ {item : Item} {sender : Sender}, (item, sender) ∈ batch.everything ↔
    (submitted events)[sender]? = some item
  receives : ∀ {sender : Sender} {result : ProcessResult Result Error},
    (sender, result) ∈ batch.sent → ∃ execution ∈ batch.executed, ∃ position item,
      execution.items[position]? = some (item, sender) ∧
      execution.answerAt position = some result
  receivesOnce : (batch.sent.map Prod.fst).Nodup
  inCharge : batch.queue.items ≠ [] → ∃ task, batch.tasks = [task]
  finished : batch.tasks = [] → batch.everything = batch.executed.flatMap Execution.items ∧
    batch.sent.map Prod.fst = List.range (submitted events).length

theorem Sound.senders (sound : Sound processor events batch) :
    batch.everything.map Prod.snd = List.range (submitted events).length := by
  rw [Batch.everything, sound.placed, List.zipIdx_map_snd, List.range_eq_range']

/-- The answers to what was executed go to the channels of the items, in their order. -/
theorem Sound.senders_answers (sound : Sound processor events batch)
    (onePerItem : processor.OnePerItem) :
    (batch.executed.flatMap Execution.answers).map Prod.fst =
      (batch.executed.flatMap Execution.items).map Prod.snd := by
  rw [List.map_flatMap, List.map_flatMap]
  apply List.flatMap_congr
  intro execution mem
  apply Execution.senders_answers
  intro results outcome
  have returned := sound.processed execution mem
  rw [outcome] at returned
  rw [onePerItem _ _ returned, List.length_map]

theorem Sound.delivered (sound : Sound processor events batch)
    (onePerItem : processor.OnePerItem) : Delivered events batch := by
  have senders := sound.senders
  have nodup : (batch.everything.map Prod.snd).Nodup := senders ▸ List.nodup_range
  have answers := sound.senders_answers onePerItem
  rw [← sound.answered, List.map_append] at answers
  constructor
  case once => exact nodup
  case own =>
    intro item sender
    rw [Batch.everything, sound.placed]
    exact List.mem_zipIdx_iff_getElem?
  case receives =>
    intro sender result isSent
    have isAnswer : (sender, result) ∈ batch.executed.flatMap Execution.answers := by
      rw [← sound.answered]
      exact List.mem_append_left _ isSent
    rcases List.mem_flatMap.mp isAnswer with ⟨execution, mem, isAnswer⟩
    rcases List.mem_iff_getElem?.mp isAnswer with ⟨position, isAnswer⟩
    rcases Execution.position_of_answers isAnswer with ⟨item, isItem, isResult⟩
    exact ⟨execution, mem, position, item, isItem, isResult⟩
  case receivesOnce =>
    have distinct : ((batch.executed.flatMap Execution.items).map Prod.snd).Nodup := by
      rw [Batch.everything, List.append_assoc, List.map_append] at nodup
      exact nodup.of_append_left
    rw [← answers] at distinct
    exact distinct.of_append_left
  case inCharge =>
    intro queued
    have inCharge := sound.inCharge
    generalize batch.tasks = tasks at inCharge
    cases inCharge with
    | idle empty => exact absurd empty queued
    | waiting => exact ⟨_, rfl⟩
    | running => exact ⟨_, rfl⟩
  case finished =>
    intro none
    have inCharge := sound.inCharge
    rw [none] at inCharge answers
    have everything : batch.everything = batch.executed.flatMap Execution.items := by
      cases inCharge with
      | idle empty => rw [Batch.everything, none, empty, List.flatMap_nil, List.append_nil,
          List.append_nil]
    rw [List.flatMap_nil, List.map_nil, List.append_nil] at answers
    exact ⟨everything, by rw [answers, ← everything, senders]⟩

/-! ## Every execution comes to an end -/

/-- How many steps a task has left at most, with so many items queued. -/
def Task.weight (queued : Nat) : Task Item Result Error → Nat
  | .spawning => queued + 5
  | .scheduled => queued + 4
  | .sleeping _ => queued + 3
  | .taken items => items.length + 2 + if queued = 0 then 0 else queued + 6
  | .sending answers => answers.length + 1 + if queued = 0 then 0 else queued + 6

theorem Task.Step.weight_lt {task : Task Item Result Error} {event : Event Item Result Error}
    {effect : Effect Item Result Error} (taken : task.Step processor queue event effect) :
    (effect.task.toList.map (Task.weight effect.queue.items.length)).sum <
      task.weight queue.items.length := by
  cases taken with
  | spawn => simp [Task.weight]
  | wait now =>
      cases queue.waitDuration now with
      | none => simp [Task.weight]
      | some duration => simp [Task.weight]
  | take duration => simp [Task.weight, BatchQueue.take]
  | @process items outcome _ _ =>
      have le : (Execution.answers ⟨items, outcome⟩).length ≤ items.length :=
        Execution.length_answers_le _
      simp only [Option.toList_some, List.map_singleton, List.sum_singleton, Task.weight]
      exact Nat.add_lt_add_right (Nat.lt_succ_of_le (Nat.succ_le_succ le)) _
  | skip => simp [Task.weight]
  | send answer rest => simp [Task.weight]
  | update lastExec now elapsedAt =>
      rw [BatchQueue.update_items]
      cases queued : queue.items with
      | nil => simp [BatchQueue.update, queued, Task.weight]
      | cons item items =>
          rw [Task.weight, List.length_nil, List.length_cons,
            if_neg (Nat.succ_ne_zero items.length)]
          split
          · simp only [Option.toList_some, List.map_singleton, List.sum_singleton, Task.weight]
            omega
          · simp only [Option.toList_none, List.map_nil, List.sum_nil]
            omega

/-- A task can always make a step, if the processor returns. -/
theorem Task.exists_step (returns : ∀ items, ∃ outcome, processor items outcome)
    (queue : BatchQueue Item) (task : Task Item Result Error) :
    ∃ event effect, task.Step processor queue event effect := by
  cases task with
  | spawning => exact ⟨_, _, .spawn⟩
  | scheduled => exact ⟨_, _, .wait 0⟩
  | sleeping duration => exact ⟨_, _, .take duration⟩
  | taken items =>
      cases items with
      | nil => exact ⟨_, _, .skip⟩
      | cons item items =>
          rcases returns ((item :: items).map Prod.fst) with ⟨outcome, returned⟩
          exact ⟨_, _, .process (List.cons_ne_nil _ _) returned⟩
  | sending answers =>
      cases answers with
      | nil => exact ⟨_, _, .update 0 0 0⟩
      | cons answer rest => exact ⟨_, _, .send answer rest⟩

/-- How many steps the tasks have left. -/
def Batch.weight (batch : Batch Item Result Error) : Nat :=
  (batch.tasks.map (Task.weight batch.queue.items.length)).sum

/-- Without further calls the tasks come to an end. -/
theorem Sound.finishes (returns : ∀ items, ∃ outcome, processor items outcome)
    (sound : Sound processor events batch) :
    ∃ rest final, submitted rest = [] ∧ Run (Batch.Step processor) batch rest final ∧
      final.tasks = [] := by
  induction size : batch.weight using Nat.strong_induction_on generalizing events batch with
  | _ size ih =>
      cases tasks : batch.tasks with
      | nil => exact ⟨[], batch, rfl, .nil, tasks⟩
      | cons task others =>
          rcases Task.exists_step returns batch.queue task with ⟨event, effect, taken⟩
          have isOne : batch.tasks = [] ++ task :: others := tasks
          rcases sound.inCharge.eq_singleton isOne with ⟨_, rfl, _⟩
          have step : Batch.Step processor batch event (batch.after [] [] effect) :=
            .task tasks taken
          have lighter : (batch.after [] [] effect).weight < batch.weight := by
            rw [Batch.weight, Batch.weight, tasks]
            simpa [Batch.after] using taken.weight_lt
          rcases ih _ (size ▸ lighter) (sound.step step) rfl with ⟨rest, final, silent, run, ended⟩
          have first : Run (Batch.Step processor) batch [event] (batch.after [] [] effect) :=
            .single step
          refine ⟨[event] ++ rest, final, ?_, first.trans run, ended⟩
          rw [submitted, List.filterMap_append]
          exact List.append_eq_nil_iff.mpr ⟨taken.submits_nothing, silent⟩

/-- In every run each call is executed once and receives the result at the position of its
item.  From every state that is reached the tasks come to an end if the processor returns, and
then every call has received its result. -/
theorem delivers_once (onePerItem : processor.OnePerItem) {config : BatchConfig}
    (run : Run (Batch.Step processor) (.new config) events batch) :
    Delivered events batch ∧
      ((∀ items, ∃ outcome, processor items outcome) →
        ∃ rest final, submitted rest = [] ∧ Run (Batch.Step processor) batch rest final ∧
          final.tasks = [] ∧ Delivered (events ++ rest) final) := by
  have sound := Sound.of_run run
  constructor
  · exact sound.delivered onePerItem
  · intro returns
    rcases sound.finishes returns with ⟨rest, final, silent, more, ended⟩
    exact ⟨rest, final, silent, more, ended, (Sound.of_run (run.trans more)).delivered onePerItem⟩

/-- Numbers are doubled. -/
def doubling : BatchProcessor Nat Nat Empty := fun items outcome =>
  outcome = .ok (items.map (2 * ·))

theorem doubling_onePerItem : doubling.OnePerItem := by
  intro items results returned
  rcases Except.ok.inj returned with rfl
  exact List.length_map _

theorem run_task {task : Task Item Result Error} {event : Event Item Result Error}
    {effect : Effect Item Result Error} {config : BatchConfig}
    (run : Run (Batch.Step processor) (.new config) events batch) (tasks : batch.tasks = [task])
    (taken : task.Step processor batch.queue event effect) :
    Run (Batch.Step processor) (.new config) (events ++ [event]) (batch.after [] [] effect) :=
  .snoc run (.task tasks taken)

/-- Two calls are executed together; a third that comes later is queued. -/
theorem two_of_three_delivered :
    ∃ (events : List (Event Nat Nat Empty)) (batch : Batch Nat Nat Empty),
      submitted events = [5, 7, 9] ∧ batch.sent = [(0, .ok 10), (1, .ok 14)] ∧
      batch.queue.items = [(9, 2)] ∧ Delivered events batch := by
  have first : Batch.Step doubling (.new {}) (.call 5 0) _ := .call _ 5 0
  have called := (Run.single first).snoc (.call _ 7 0)
  have taken := run_task (run_task (run_task called rfl .spawn) rfl (.wait 0)) rfl (.take _)
  have processed := run_task (.snoc taken (.call _ 9 0)) rfl
    (.process (List.cons_ne_nil (5, 0) [(7, 1)]) rfl)
  have sent := run_task (run_task processed rfl (.send _ _)) rfl (.send _ _)
  exact ⟨_, _, rfl, rfl, rfl, (delivers_once doubling_onePerItem sent).1⟩

end Ciphera.Batching
