/-
This file models what `master-progs/video_record.c` does with buffer headers: the
callbacks of the camera and of the encoder, and `fill_port_buffer`, take headers from
the queues of their pools, send them to ports and release them. The main result is that
a header is lost exactly when sending one fails.

The callbacks run in threads of their own, so that their calls of MMAL interleave; each
call is a step here. Whether a call of `mmal_port_send_buffer` succeeds and whether a
port is enabled is chosen at each step. MMAL itself is a parameter: its documentation
says that a header whose sending fails stays with the caller, and that a header that is
released goes back to the queue of its pool.
-/

import Mathlib.Data.List.Nodup
import Mathlib.Data.List.Perm.Basic
import Mathlib.Logic.Function.Basic

namespace Buildroot4G.VideoBuffers

/-- The pools of headers, each with the port its headers are sent to. -/
inductive Pool where
  | cameraVideo
  | encoderInput
  | encoderOutput
  deriving DecidableEq, Repr

/-- A buffer header. -/
structure Header where
  pool : Pool
  index : ℕ
  deriving DecidableEq, Repr

/-! ### The calls of MMAL -/

/-- The calls of MMAL, with the headers that are in the queue of each pool and those that the
port of each pool holds. -/
structure Mmal (World : Type) where
  queue : World → Pool → List Header
  port : World → Pool → List Header
  /-- `mmal_queue_length`. -/
  length : World → Pool → ℕ
  /-- `mmal_queue_get`. -/
  get : World → Pool → Option (Header × World)
  /-- `mmal_buffer_header_release`. -/
  release : World → Header → World
  /-- `mmal_port_send_buffer`, which succeeds or not. -/
  send : World → Pool → Header → Bool → World
  /-- A port gives one of its headers to its callback. -/
  deliver : World → Pool → ℕ → Option (Header × World)

/-- The list of a pool has one more header after a call, the other lists are the same. -/
def Gains (before after : Pool → List Header) (pool : Pool) (buffer : Header) : Prop :=
  (after pool).Perm (buffer :: before pool) ∧ ∀ other ≠ pool, after other = before other

variable {World : Type}

/-- The calls move headers between the lists as MMAL's documentation says. -/
structure Mmal.Documented (mmal : Mmal World) : Prop where
  get : ∀ {world pool buffer next}, mmal.get world pool = some (buffer, next) →
    Gains (mmal.queue next) (mmal.queue world) pool buffer ∧ mmal.port next = mmal.port world
  release : ∀ world buffer,
    Gains (mmal.queue world) (mmal.queue (mmal.release world buffer)) buffer.pool buffer ∧
      mmal.port (mmal.release world buffer) = mmal.port world
  sent : ∀ world pool buffer,
    mmal.queue (mmal.send world pool buffer true) = mmal.queue world ∧
      Gains (mmal.port world) (mmal.port (mmal.send world pool buffer true)) pool buffer
  refused : ∀ world pool buffer,
    mmal.queue (mmal.send world pool buffer false) = mmal.queue world ∧
      mmal.port (mmal.send world pool buffer false) = mmal.port world
  deliver : ∀ {world pool index buffer next},
    mmal.deliver world pool index = some (buffer, next) →
      mmal.queue next = mmal.queue world ∧
        Gains (mmal.port next) (mmal.port world) pool buffer

/-- Pools with a number of headers each, all in their queues. -/
structure Mmal.Fresh (mmal : Mmal World) (count : Pool → ℕ) (world : World) : Prop where
  queue : ∀ pool, mmal.queue world pool = (List.range (count pool)).map (Header.mk pool)
  port : ∀ pool, mmal.port world pool = []

/-! ### The functions -/

/-- A function at work, by the call it makes next and the headers it has. -/
inductive Activity where
  | cameraGet (buffer : Header)
  | cameraSend (buffer outputBuffer : Header)
  | encoderInput (buffer : Header)
  | release (pool : Pool) (buffer : Header)
  | refill (pool : Pool)
  | sendBack (pool : Pool) (newBuffer : Header)
  | fillStart (pool : Pool)
  | fill (pool : Pool) (count : ℕ)
  | fillSend (pool : Pool) (count : ℕ) (buffer : Header)
  deriving DecidableEq, Repr

/-- The callback of a port. -/
def callback : Pool → Header → Activity
  | .cameraVideo, buffer => .cameraGet buffer
  | .encoderInput, buffer => .encoderInput buffer
  | .encoderOutput, buffer => .release .encoderOutput buffer

/-- What a call leaves: the world, what the function does next, and the header it could not
send. -/
structure Outcome (World : Type) where
  world : World
  next : Option Activity
  failed : List Header

/-- A call of `mmal_port_send_buffer` that succeeds or not. -/
def trySend (mmal : Mmal World) (success : Bool) (world : World) (pool : Pool) (buffer : Header)
    (next : Option Activity) : Outcome World :=
  ⟨mmal.send world pool buffer success, next, if success then [] else [buffer]⟩

/-- One call of a function. `choice` says whether a header is sent or a port enabled. -/
def Activity.step (mmal : Mmal World) (choice : Bool) (world : World) : Activity → Outcome World
  -- camera_video_buffer_callback
  | .cameraGet buffer =>
    match mmal.get world .encoderInput with
    | some (outputBuffer, world) => ⟨world, some (.cameraSend buffer outputBuffer), []⟩
    | none => ⟨world, some (.release .cameraVideo buffer), []⟩
  | .cameraSend buffer outputBuffer =>
    trySend mmal choice world .encoderInput outputBuffer (some (.release .cameraVideo buffer))
  -- encoder_input_buffer_callback
  | .encoderInput buffer => ⟨mmal.release world buffer, none, []⟩
  -- the ends of camera_video_buffer_callback and encoder_output_buffer_callback
  | .release pool buffer => ⟨mmal.release world buffer, some (.refill pool), []⟩
  | .refill pool =>
    if choice then
      match mmal.get world pool with
      | some (newBuffer, world) => ⟨world, some (.sendBack pool newBuffer), []⟩
      | none => ⟨world, none, []⟩
    else ⟨world, none, []⟩
  | .sendBack pool newBuffer => trySend mmal choice world pool newBuffer none
  -- fill_port_buffer, which sends a null pointer when the queue is empty
  | .fillStart pool => ⟨world, some (.fill pool (mmal.length world pool)), []⟩
  | .fill _ 0 => ⟨world, none, []⟩
  | .fill pool (count + 1) =>
    match mmal.get world pool with
    | some (buffer, world) => ⟨world, some (.fillSend pool count buffer), []⟩
    | none => ⟨world, some (.fill pool count), []⟩
  | .fillSend pool count buffer => trySend mmal choice world pool buffer (some (.fill pool count))

/-! ### Runs -/

/-- The state of the program, with the functions that are at work. -/
structure State (World : Type) where
  world : World
  running : List Activity

/-- What happens next: a port gives a header to its callback, a port is filled, or a function
makes its next call. -/
inductive Move where
  | deliver (pool : Pool) (index : ℕ)
  | fill (pool : Pool)
  | act (index : ℕ) (choice : Bool)
  deriving DecidableEq, Repr

/-- The state after a move that is possible, and the header that was not sent. -/
def State.step (mmal : Mmal World) (state : State World) :
    Move → Option (State World × List Header)
  | .deliver pool index =>
    (mmal.deliver state.world pool index).map fun delivered =>
      (⟨delivered.2, state.running ++ [callback pool delivered.1]⟩, [])
  | .fill pool => some (⟨state.world, state.running ++ [.fillStart pool]⟩, [])
  | .act index choice =>
    state.running[index]?.map fun activity =>
      let outcome := activity.step mmal choice state.world
      (⟨outcome.world,
        state.running.take index ++ outcome.next.toList ++ state.running.drop (index + 1)⟩,
        outcome.failed)

/-- The state after a run, and the headers that were not sent. -/
def run (mmal : Mmal World) : State World → List Move → Option (State World × List Header)
  | state, [] => some (state, [])
  | state, move :: rest => do
    let (next, failed) ← state.step mmal move
    let (last, later) ← run mmal next rest
    some (last, failed ++ later)

/-- Every header is in the queue of its pool or held by the pool's port, once, and nowhere else. -/
def InOnePlace (mmal : Mmal World) (count : Pool → ℕ) (world : World) : Prop :=
  ∀ buffer : Header, buffer.index < count buffer.pool →
    (mmal.queue world buffer.pool ++ mmal.port world buffer.pool).count buffer = 1 ∧
      ∀ pool ≠ buffer.pool, buffer ∉ mmal.queue world pool ++ mmal.port world pool

/-- The header that the next call of a function sends. -/
def Activity.sending : Activity → Option Header
  | .cameraSend _ outputBuffer => some outputBuffer
  | .sendBack _ newBuffer => some newBuffer
  | .fillSend _ _ buffer => some buffer
  | _ => none

/-- A move in which sending a header fails. -/
def Move.Refuses (state : State World) : Move → Prop
  | .act index false => ∃ activity ∈ state.running[index]?, activity.sending ≠ none
  | _ => False

/-- Sending a header fails nowhere in a run. -/
def NeverRefused (mmal : Mmal World) : State World → List Move → Prop
  | _, [] => True
  | state, move :: rest =>
    ¬ move.Refuses state ∧ ∀ next ∈ state.step mmal move, NeverRefused mmal next.1 rest

/-! ### Counting a header -/

/-- The headers a function has. -/
def Activity.holds : Activity → List Header
  | .cameraGet buffer => [buffer]
  | .cameraSend buffer outputBuffer => [buffer, outputBuffer]
  | .encoderInput buffer => [buffer]
  | .release _ buffer => [buffer]
  | .refill _ => []
  | .sendBack _ newBuffer => [newBuffer]
  | .fillStart _ => []
  | .fill _ _ => []
  | .fillSend _ _ buffer => [buffer]

/-- How often a header is in the queue of its pool or held by the port of it. -/
def Mmal.count (mmal : Mmal World) (world : World) (buffer : Header) : ℕ :=
  (mmal.queue world buffer.pool).count buffer + (mmal.port world buffer.pool).count buffer

/-- Lists that have headers of their pools only. -/
def OfPools (lists : Pool → List Header) : Prop :=
  ∀ pool, ∀ buffer ∈ lists pool, buffer.pool = pool

structure Mmal.Sorted (mmal : Mmal World) (world : World) : Prop where
  queue : OfPools (mmal.queue world)
  port : OfPools (mmal.port world)

/-- A function sends headers to the port of their pool. -/
def Activity.Sorted : Activity → Prop
  | .cameraSend _ outputBuffer => outputBuffer.pool = .encoderInput
  | .sendBack pool newBuffer => newBuffer.pool = pool
  | .fillSend pool _ buffer => buffer.pool = pool
  | _ => True

namespace Gains

variable {before after : Pool → List Header} {pool : Pool} {buffer : Header}

theorem own (gains : Gains before after pool buffer) (sorted : OfPools after) :
    buffer.pool = pool :=
  sorted pool buffer (gains.1.mem_iff.mpr List.mem_cons_self)

theorem ofPools_before (gains : Gains before after pool buffer) (sorted : OfPools after) :
    OfPools before := by
  intro other header member
  by_cases same : other = pool
  · subst same
    exact sorted other header (gains.1.mem_iff.mpr (List.mem_cons_of_mem buffer member))
  · rw [← gains.2 other same] at member
    exact sorted other header member

theorem ofPools_after (gains : Gains before after pool buffer) (sorted : OfPools before)
    (own : buffer.pool = pool) : OfPools after := by
  intro other header member
  by_cases same : other = pool
  · subst same
    rcases List.mem_cons.mp (gains.1.mem_iff.mp member) with rfl | member
    · exact own
    · exact sorted other header member
  · rw [gains.2 other same] at member
    exact sorted other header member

/-- Only the header that is gained is counted once more. -/
theorem count (gains : Gains before after pool buffer) (own : buffer.pool = pool)
    (other : Header) :
    (after other.pool).count other = (before other.pool).count other + [buffer].count other := by
  by_cases same : other.pool = pool
  · rw [same, gains.1.count_eq, ← List.singleton_append, List.count_append, Nat.add_comm]
  · have different : other ∉ [buffer] := by
      intro member
      exact same ((List.mem_singleton.mp member) ▸ own)
    rw [gains.2 _ same, List.count_eq_zero.mpr different, Nat.add_zero]

end Gains

section Calls

variable {mmal : Mmal World} {world next : World} {pool : Pool} {buffer : Header}

/-- A header that is got leaves the queue. -/
theorem Mmal.Documented.of_get (documented : mmal.Documented) (sorted : mmal.Sorted world)
    (gets : mmal.get world pool = some (buffer, next)) :
    buffer.pool = pool ∧ mmal.Sorted next ∧
      ∀ other, mmal.count next other + [buffer].count other = mmal.count world other := by
  obtain ⟨gains, samePort⟩ := documented.get gets
  have own := gains.own sorted.queue
  refine ⟨own, ⟨gains.ofPools_before sorted.queue, samePort ▸ sorted.port⟩, fun other => ?_⟩
  rw [Mmal.count, Mmal.count, gains.count own, samePort]
  omega

/-- A header that is released enters the queue of its pool. -/
theorem Mmal.Documented.of_release (documented : mmal.Documented) (sorted : mmal.Sorted world)
    (buffer : Header) :
    mmal.Sorted (mmal.release world buffer) ∧
      ∀ other, mmal.count (mmal.release world buffer) other =
        mmal.count world other + [buffer].count other := by
  obtain ⟨gains, samePort⟩ := documented.release world buffer
  refine ⟨⟨gains.ofPools_after sorted.queue rfl, samePort ▸ sorted.port⟩, fun other => ?_⟩
  rw [Mmal.count, Mmal.count, gains.count rfl, samePort]
  omega

/-- A header that is sent is held by the port. -/
theorem Mmal.Documented.of_sent (documented : mmal.Documented) (sorted : mmal.Sorted world)
    (own : buffer.pool = pool) :
    mmal.Sorted (mmal.send world pool buffer true) ∧
      ∀ other, mmal.count (mmal.send world pool buffer true) other =
        mmal.count world other + [buffer].count other := by
  obtain ⟨sameQueue, gains⟩ := documented.sent world pool buffer
  refine ⟨⟨sameQueue ▸ sorted.queue, gains.ofPools_after sorted.port own⟩, fun other => ?_⟩
  rw [Mmal.count, Mmal.count, gains.count own, sameQueue]
  omega

/-- A header that could not be sent enters no list. -/
theorem Mmal.Documented.of_refused (documented : mmal.Documented) (sorted : mmal.Sorted world) :
    mmal.Sorted (mmal.send world pool buffer false) ∧
      ∀ other, mmal.count (mmal.send world pool buffer false) other = mmal.count world other := by
  obtain ⟨sameQueue, samePort⟩ := documented.refused world pool buffer
  refine ⟨⟨sameQueue ▸ sorted.queue, samePort ▸ sorted.port⟩, fun other => ?_⟩
  rw [Mmal.count, Mmal.count, sameQueue, samePort]

/-- A header that is delivered leaves the port. -/
theorem Mmal.Documented.of_deliver (documented : mmal.Documented) (sorted : mmal.Sorted world)
    {index : ℕ} (delivers : mmal.deliver world pool index = some (buffer, next)) :
    mmal.Sorted next ∧
      ∀ other, mmal.count next other + [buffer].count other = mmal.count world other := by
  obtain ⟨sameQueue, gains⟩ := documented.deliver delivers
  refine ⟨⟨sameQueue ▸ sorted.queue, gains.ofPools_before sorted.port⟩, fun other => ?_⟩
  rw [Mmal.count, Mmal.count, gains.count (gains.own sorted.port), sameQueue]
  omega

end Calls

/-! ### One call -/

/-- What a call keeps: headers stay with their pools, and each is where it was, or with the
function still, or could not be sent. -/
structure Outcome.Conserves (outcome : Outcome World) (mmal : Mmal World) (world : World)
    (activity : Activity) : Prop where
  sorted : mmal.Sorted outcome.world
  next : ∀ next ∈ outcome.next, next.Sorted
  count : ∀ buffer, mmal.count outcome.world buffer +
      (outcome.next.toList.flatMap Activity.holds).count buffer + outcome.failed.count buffer =
    mmal.count world buffer + activity.holds.count buffer

theorem sorted_some {activity : Activity} (sorted : activity.Sorted) :
    ∀ next ∈ some activity, next.Sorted := by
  rintro next ⟨⟩
  exact sorted

theorem sorted_none : ∀ next ∈ (none : Option Activity), next.Sorted := by
  rintro next ⟨⟩

section Conserves

variable {mmal : Mmal World} {world : World}

/-- A header is sent, or stays with nobody. -/
theorem trySend_conserves (documented : mmal.Documented) (sorted : mmal.Sorted world)
    {pool : Pool} {buffer : Header} (own : buffer.pool = pool) {activity : Activity}
    {next : Option Activity} (nextSorted : ∀ activity ∈ next, activity.Sorted)
    (holds : ∀ other, activity.holds.count other =
      (next.toList.flatMap Activity.holds).count other + [buffer].count other) (success : Bool) :
    (trySend mmal success world pool buffer next).Conserves mmal world activity := by
  cases success with
  | true =>
    obtain ⟨sentSorted, sentCount⟩ := documented.of_sent sorted own
    refine ⟨sentSorted, nextSorted, fun other => ?_⟩
    change mmal.count (mmal.send world pool buffer true) other +
      (next.toList.flatMap Activity.holds).count other + ([] : List Header).count other = _
    rw [sentCount, holds, List.count_nil]
    omega
  | false =>
    obtain ⟨refusedSorted, refusedCount⟩ :=
      @Mmal.Documented.of_refused _ mmal world pool buffer documented sorted
    refine ⟨refusedSorted, nextSorted, fun other => ?_⟩
    change mmal.count (mmal.send world pool buffer false) other +
      (next.toList.flatMap Activity.holds).count other + [buffer].count other = _
    rw [refusedCount, holds]
    omega

/-- The headers of a function that goes on. -/
theorem count_holds_some (activity : Activity) (buffer : Header) :
    ((some activity).toList.flatMap Activity.holds).count buffer =
      activity.holds.count buffer := by
  rw [Option.toList_some, List.flatMap_singleton]

/-- One call conserves headers, but for one that could not be sent. -/
theorem step_conserves (documented : mmal.Documented) (sorted : mmal.Sorted world)
    {activity : Activity} (activitySorted : activity.Sorted) (choice : Bool) :
    (activity.step mmal choice world).Conserves mmal world activity := by
  cases activity with
  | cameraGet buffer =>
    rw [Activity.step]
    cases gets : mmal.get world .encoderInput with
    | none =>
      refine ⟨sorted, sorted_some trivial, fun other => ?_⟩
      rw [count_holds_some]
      rfl
    | some got =>
      obtain ⟨outputBuffer, rest⟩ := got
      obtain ⟨own, restSorted, counts⟩ := documented.of_get sorted gets
      refine ⟨restSorted, sorted_some own, fun other => ?_⟩
      change mmal.count rest other + [buffer, outputBuffer].count other + 0 = _
      rw [← counts, ← List.singleton_append, List.count_append]
      change _ = _ + [buffer].count other
      omega
  | cameraSend buffer outputBuffer =>
    have releases : Activity.Sorted (.release .cameraVideo buffer) := trivial
    refine trySend_conserves documented sorted activitySorted (sorted_some releases)
      (fun other => ?_) choice
    rw [count_holds_some, ← List.count_append]
    rfl
  | encoderInput buffer =>
    obtain ⟨restSorted, counts⟩ := documented.of_release sorted buffer
    refine ⟨restSorted, sorted_none, fun other => ?_⟩
    exact counts other
  | release pool buffer =>
    obtain ⟨restSorted, counts⟩ := documented.of_release sorted buffer
    refine ⟨restSorted, sorted_some trivial, fun other => ?_⟩
    exact counts other
  | refill pool =>
    rw [Activity.step]
    cases choice with
    | false => exact ⟨sorted, sorted_none, fun other => rfl⟩
    | true =>
      rw [if_pos rfl]
      cases gets : mmal.get world pool with
      | none => exact ⟨sorted, sorted_none, fun other => rfl⟩
      | some got =>
        obtain ⟨newBuffer, rest⟩ := got
        obtain ⟨own, restSorted, counts⟩ := documented.of_get sorted gets
        refine ⟨restSorted, sorted_some own, fun other => ?_⟩
        exact counts other
  | sendBack pool newBuffer =>
    exact trySend_conserves documented sorted activitySorted sorted_none
      (fun other => (Nat.zero_add _).symm) choice
  | fillStart pool =>
    refine ⟨sorted, sorted_some trivial, fun other => ?_⟩
    rfl
  | fill pool count =>
    cases count with
    | zero => exact ⟨sorted, sorted_none, fun other => rfl⟩
    | succ count =>
      rw [Activity.step]
      cases gets : mmal.get world pool with
      | none =>
        refine ⟨sorted, sorted_some trivial, fun other => ?_⟩
        rfl
      | some got =>
        obtain ⟨buffer, rest⟩ := got
        obtain ⟨own, restSorted, counts⟩ := documented.of_get sorted gets
        refine ⟨restSorted, sorted_some own, fun other => ?_⟩
        exact counts other
  | fillSend pool count buffer =>
    have fills : Activity.Sorted (.fill pool count) := trivial
    exact trySend_conserves documented sorted activitySorted (sorted_some fills)
      (fun other => (Nat.zero_add _).symm) choice

end Conserves

/-! ### Runs conserve headers -/

/-- How often a header is in a place or with a function. -/
def State.count (mmal : Mmal World) (state : State World) (buffer : Header) : ℕ :=
  mmal.count state.world buffer + (state.running.flatMap Activity.holds).count buffer

structure State.Sorted (mmal : Mmal World) (state : State World) : Prop where
  world : mmal.Sorted state.world
  running : ∀ activity ∈ state.running, activity.Sorted

theorem sorted_callback {pool : Pool} {buffer : Header} : (callback pool buffer).Sorted := by
  cases pool <;> trivial

theorem holds_callback (pool : Pool) (buffer : Header) :
    (callback pool buffer).holds = [buffer] := by
  cases pool <;> rfl

section Moves

variable {mmal : Mmal World} {state next last : State World} {move : Move} {moves : List Move}
  {failed : List Header}

/-- A move conserves headers, but for one that could not be sent. -/
theorem State.Sorted.step (documented : mmal.Documented) (sorted : state.Sorted mmal)
    (moves : state.step mmal move = some (next, failed)) :
    next.Sorted mmal ∧
      ∀ buffer, next.count mmal buffer + failed.count buffer = state.count mmal buffer := by
  cases move with
  | deliver pool index =>
    obtain ⟨⟨buffer, rest⟩, delivers, same⟩ := Option.map_eq_some_iff.mp moves
    obtain ⟨rfl, rfl⟩ := Prod.mk.inj same
    obtain ⟨restSorted, counts⟩ := documented.of_deliver sorted.world delivers
    refine ⟨⟨restSorted, ?_⟩, fun other => ?_⟩
    · exact List.forall_mem_append.mpr
        ⟨sorted.running, List.forall_mem_singleton.mpr sorted_callback⟩
    · have counted := counts other
      rw [State.count, State.count, List.flatMap_append, List.count_append,
        List.flatMap_singleton, holds_callback, List.count_nil]
      change mmal.count rest other + (_ + [buffer].count other) + 0 = _
      omega
  | fill pool =>
    obtain ⟨rfl, rfl⟩ := Prod.mk.inj (Option.some.inj moves)
    refine ⟨⟨sorted.world, ?_⟩, fun other => ?_⟩
    · exact List.forall_mem_append.mpr ⟨sorted.running, List.forall_mem_singleton.mpr trivial⟩
    · rw [State.count, State.count, List.flatMap_append, List.count_append]
      rfl
  | act index choice =>
    obtain ⟨activity, found, same⟩ := Option.map_eq_some_iff.mp moves
    obtain ⟨inside, isActivity⟩ := List.getElem?_eq_some_iff.mp found
    have split : state.running =
        state.running.take index ++ activity :: state.running.drop (index + 1) := by
      rw [← isActivity, List.getElem_cons_drop, List.take_append_drop]
    have running := sorted.running
    rw [split] at running
    obtain ⟨before, after⟩ := List.forall_mem_append.mp running
    obtain ⟨activitySorted, after⟩ := List.forall_mem_cons.mp after
    have conserves := step_conserves documented sorted.world activitySorted choice
    generalize activity.step mmal choice state.world = outcome at same conserves
    obtain ⟨rfl, rfl⟩ := Prod.mk.inj same
    refine ⟨⟨conserves.sorted, ?_⟩, fun other => ?_⟩
    · refine List.forall_mem_append.mpr ⟨List.forall_mem_append.mpr ⟨before, ?_⟩, after⟩
      exact fun next member => conserves.next next (Option.mem_toList.mp member)
    · have counted := conserves.count other
      have total : (state.running.flatMap Activity.holds).count other =
          ((state.running.take index).flatMap Activity.holds).count other +
            (activity.holds.count other +
              ((state.running.drop (index + 1)).flatMap Activity.holds).count other) := by
        conv_lhs => rw [split]
        rw [List.flatMap_append, List.count_append, List.flatMap_cons, List.count_append]
      rw [State.count, State.count, total]
      simp only [List.flatMap_append, List.count_append]
      omega

/-- A run conserves headers, but for those that could not be sent. -/
theorem State.Sorted.run (documented : mmal.Documented) (sorted : state.Sorted mmal)
    (runs : run mmal state moves = some (last, failed)) :
    last.Sorted mmal ∧
      ∀ buffer, last.count mmal buffer + failed.count buffer = state.count mmal buffer := by
  induction moves generalizing state failed with
  | nil =>
    obtain ⟨rfl, rfl⟩ := Prod.mk.inj (Option.some.inj runs)
    exact ⟨sorted, fun _ => rfl⟩
  | cons move rest inductionHypothesis =>
    obtain ⟨⟨next, first⟩, moved, runs⟩ := Option.bind_eq_some_iff.mp runs
    obtain ⟨⟨last', later⟩, runsRest, same⟩ := Option.bind_eq_some_iff.mp runs
    obtain ⟨rfl, rfl⟩ := Prod.mk.inj (Option.some.inj same)
    obtain ⟨nextSorted, nextCount⟩ := sorted.step documented moved
    obtain ⟨lastSorted, lastCount⟩ := inductionHypothesis nextSorted runsRest
    refine ⟨lastSorted, fun buffer => ?_⟩
    rw [← nextCount, ← lastCount, List.count_append]
    omega

/-! ### The headers that were not sent -/

theorem failed_step (mmal : Mmal World) (choice : Bool) (world : World) (activity : Activity) :
    (activity.step mmal choice world).failed = if choice then [] else activity.sending.toList := by
  cases activity with
  | cameraSend | sendBack | fillSend => rfl
  | encoderInput | release | fillStart => cases choice <;> rfl
  | cameraGet buffer =>
    rw [Activity.step]
    cases mmal.get world .encoderInput <;> cases choice <;> rfl
  | refill pool =>
    rw [Activity.step]
    cases mmal.get world pool <;> cases choice <;> rfl
  | fill pool count =>
    cases count with
    | zero => cases choice <;> rfl
    | succ count =>
      rw [Activity.step]
      cases mmal.get world pool <;> cases choice <;> rfl

/-- A move leaves a header that was not sent exactly when sending one fails. -/
theorem failed_eq_nil_iff (moves : state.step mmal move = some (next, failed)) :
    failed = [] ↔ ¬ move.Refuses state := by
  cases move with
  | deliver pool index =>
    obtain ⟨delivered, -, same⟩ := Option.map_eq_some_iff.mp moves
    rw [← (Prod.mk.inj same).2]
    exact iff_of_true rfl not_false
  | fill pool =>
    rw [← (Prod.mk.inj (Option.some.inj moves)).2]
    exact iff_of_true rfl not_false
  | act index choice =>
    obtain ⟨activity, found, same⟩ := Option.map_eq_some_iff.mp moves
    rw [← (Prod.mk.inj same).2, failed_step]
    cases choice with
    | true => exact iff_of_true rfl not_false
    | false =>
      simp only [Move.Refuses, found, Option.mem_def, Option.some.injEq, exists_eq_left',
        Bool.false_eq_true, if_false, Option.toList_eq_nil_iff, ne_eq, not_not]

/-- A run leaves no header that was not sent exactly when sending one never fails. -/
theorem run_failed_eq_nil_iff (runs : run mmal state moves = some (last, failed)) :
    failed = [] ↔ NeverRefused mmal state moves := by
  induction moves generalizing state failed with
  | nil =>
    rw [← (Prod.mk.inj (Option.some.inj runs)).2]
    exact iff_of_true rfl trivial
  | cons move rest inductionHypothesis =>
    obtain ⟨⟨next, first⟩, moved, runs⟩ := Option.bind_eq_some_iff.mp runs
    obtain ⟨⟨last', later⟩, runsRest, same⟩ := Option.bind_eq_some_iff.mp runs
    obtain ⟨rfl, rfl⟩ := Prod.mk.inj (Option.some.inj same)
    rw [List.append_eq_nil_iff, failed_eq_nil_iff moved, inductionHypothesis runsRest,
      NeverRefused, moved]
    refine and_congr_right fun _ => ⟨?_, fun never => never (next, first) rfl⟩
    rintro never _ ⟨⟩
    exact never

end Moves

/-! ### The result -/

section Result

variable {mmal : Mmal World} {count : Pool → ℕ} {world : World}

theorem Mmal.Fresh.sorted (fresh : mmal.Fresh count world) : State.Sorted mmal ⟨world, []⟩ := by
  refine ⟨⟨fun pool buffer member => ?_, fun pool buffer member => ?_⟩, fun activity member => ?_⟩
  · rw [fresh.queue] at member
    obtain ⟨index, -, rfl⟩ := List.mem_map.mp member
    rfl
  · rw [fresh.port] at member
    cases member
  · cases member

/-- A pool has each of its headers once at the start. -/
theorem Mmal.Fresh.count_eq (fresh : mmal.Fresh count world) (buffer : Header) :
    State.count mmal ⟨world, []⟩ buffer = if buffer.index < count buffer.pool then 1 else 0 := by
  have distinct : ((List.range (count buffer.pool)).map (Header.mk buffer.pool)).Nodup :=
    List.Nodup.map (fun _ _ same => (Header.mk.inj same).2) List.nodup_range
  have inside : buffer ∈ (List.range (count buffer.pool)).map (Header.mk buffer.pool) ↔
      buffer.index < count buffer.pool := by
    rw [List.mem_map]
    constructor
    · rintro ⟨index, below, same⟩
      rw [← same]
      exact List.mem_range.mp below
    · exact fun below => ⟨buffer.index, List.mem_range.mpr below, rfl⟩
  rw [State.count, Mmal.count, fresh.queue, fresh.port, distinct.count, List.flatMap_nil,
    List.count_nil]
  simp only [inside, Nat.add_zero]

/-- A header is in one place when it is counted once. -/
theorem inOnePlace_iff_count (count : Pool → ℕ) (sorted : mmal.Sorted world) :
    InOnePlace mmal count world ↔
      ∀ buffer : Header, buffer.index < count buffer.pool → mmal.count world buffer = 1 := by
  refine forall_congr' fun buffer => forall_congr' fun below => ?_
  rw [List.count_append]
  refine and_iff_left fun pool different member => ?_
  rcases List.mem_append.mp member with queued | held
  · exact different (sorted.queue pool buffer queued).symm
  · exact different (sorted.port pool buffer held).symm

end Result

/-- Between the callbacks of any run every header is in the queue of its pool or held by a port,
exactly when sending a header never failed in the run. -/
theorem inOnePlace_iff_neverRefused {mmal : Mmal World} (documented : mmal.Documented)
    {count : Pool → ℕ} {world : World} (fresh : mmal.Fresh count world) (moves : List Move)
    (state : State World) (failed : List Header)
    (runs : run mmal ⟨world, []⟩ moves = some (state, failed)) (between : state.running = []) :
    InOnePlace mmal count state.world ↔ NeverRefused mmal ⟨world, []⟩ moves := by
  obtain ⟨sorted, counts⟩ := fresh.sorted.run documented runs
  have conserved : ∀ buffer : Header, mmal.count state.world buffer + failed.count buffer =
      if buffer.index < count buffer.pool then 1 else 0 := by
    intro buffer
    have total := counts buffer
    rw [State.count, between, fresh.count_eq] at total
    exact total
  rw [inOnePlace_iff_count count sorted.world, ← run_failed_eq_nil_iff runs]
  constructor
  · intro placed
    refine List.eq_nil_iff_forall_not_mem.mpr fun buffer member => ?_
    have lost := List.count_pos_iff.mpr member
    have total := conserved buffer
    by_cases below : buffer.index < count buffer.pool
    · rw [placed buffer below, if_pos below] at total
      omega
    · rw [if_neg below] at total
      omega
  · rintro rfl buffer below
    have total := conserved buffer
    rwa [if_pos below, List.count_nil] at total

/-! ### Queues that are lists -/

/-- Where headers are while no function works on them. -/
structure Places where
  queue : Pool → List Header
  port : Pool → List Header

/-- A queue gives its first header and gets a header back as the last one. -/
def lists : Mmal Places where
  queue := Places.queue
  port := Places.port
  length := fun places pool => (places.queue pool).length
  get := fun places pool => (places.queue pool).head?.map fun buffer =>
    (buffer, { places with
      queue := Function.update places.queue pool (places.queue pool).tail })
  release := fun places buffer =>
    { places with
      queue := Function.update places.queue buffer.pool (places.queue buffer.pool ++ [buffer]) }
  send := fun places pool buffer success =>
    if success then
      { places with port := Function.update places.port pool (places.port pool ++ [buffer]) }
    else places
  deliver := fun places pool index => (places.port pool)[index]?.map fun buffer =>
    (buffer, { places with
      port := Function.update places.port pool ((places.port pool).eraseIdx index) })

def initial (count : Pool → ℕ) : Places :=
  ⟨fun pool => (List.range (count pool)).map (Header.mk pool), fun _ => []⟩

theorem gains_update_concat (before : Pool → List Header) (pool : Pool) (buffer : Header) :
    Gains before (Function.update before pool (before pool ++ [buffer])) pool buffer := by
  refine ⟨?_, fun other different => Function.update_of_ne different _ _⟩
  rw [Function.update_self]
  exact List.perm_append_singleton buffer (before pool)

theorem update_gains {after : Pool → List Header} {pool : Pool} {buffer : Header}
    {rest : List Header} (perm : (after pool).Perm (buffer :: rest)) :
    Gains (Function.update after pool rest) after pool buffer := by
  refine ⟨?_, fun other different => (Function.update_of_ne different _ _).symm⟩
  rw [Function.update_self]
  exact perm

theorem documented_lists : lists.Documented where
  get := by
    intro places pool buffer next gets
    obtain ⟨head, isHead, same⟩ := Option.map_eq_some_iff.mp gets
    obtain ⟨rfl, rfl⟩ := Prod.mk.inj same
    refine ⟨update_gains (List.Perm.of_eq ?_), rfl⟩
    exact (List.cons_head?_tail isHead).symm
  release := fun places buffer => ⟨gains_update_concat places.queue buffer.pool buffer, rfl⟩
  sent := fun places pool buffer => ⟨rfl, gains_update_concat places.port pool buffer⟩
  refused := fun _ _ _ => ⟨rfl, rfl⟩
  deliver := by
    intro places pool index buffer next delivers
    obtain ⟨held, found, same⟩ := Option.map_eq_some_iff.mp delivers
    obtain ⟨rfl, rfl⟩ := Prod.mk.inj same
    obtain ⟨inside, rfl⟩ := List.getElem?_eq_some_iff.mp found
    exact ⟨rfl, update_gains (List.getElem_cons_eraseIdx_perm inside).symm⟩

theorem fresh_initial (count : Pool → ℕ) : lists.Fresh count (initial count) :=
  ⟨fun _ => rfl, fun _ => rfl⟩

/-- A frame goes from the camera to the encoder and both headers come back. -/
theorem inOnePlace_iff_neverRefused_frame :
    ∃ state failed,
      run lists ⟨initial fun _ => 1, []⟩
        [.fill .cameraVideo, .act 0 true, .act 0 true, .act 0 true, .act 0 true,
          .deliver .cameraVideo 0, .act 0 true, .act 0 true, .act 0 true, .act 0 true,
          .act 0 true, .deliver .encoderInput 0, .act 0 true] = some (state, failed) ∧
      state.running = [] ∧
      (InOnePlace lists (fun _ => 1) state.world ↔
        NeverRefused lists ⟨initial fun _ => 1, []⟩
          [.fill .cameraVideo, .act 0 true, .act 0 true, .act 0 true, .act 0 true,
            .deliver .cameraVideo 0, .act 0 true, .act 0 true, .act 0 true, .act 0 true,
            .act 0 true, .deliver .encoderInput 0, .act 0 true]) :=
  ⟨_, _, rfl, rfl, inOnePlace_iff_neverRefused documented_lists (fresh_initial _) _ _ _ rfl rfl⟩

/-- The camera has a frame, but sending the encoder's header fails: the header is lost. -/
theorem lost_when_refused :
    ∃ moves state failed,
      run lists ⟨initial fun _ => 2, []⟩ moves = some (state, failed) ∧
        state.running = [] ∧ ¬ InOnePlace lists (fun _ => 2) state.world := by
  refine ⟨[.fill .cameraVideo, .act 0 true, .act 0 true, .act 0 true, .act 0 true, .act 0 true,
    .act 0 true, .deliver .cameraVideo 0, .act 0 true, .act 0 false, .act 0 true, .act 0 true,
    .act 0 true], _, _, rfl, rfl, fun placed => ?_⟩
  have once := (placed ⟨.encoderInput, 0⟩ Nat.two_pos).1
  exact absurd once (by decide)

end Buildroot4G.VideoBuffers
