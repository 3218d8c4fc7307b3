import Idl.Plugin.Host
import Idl.Plugin.Script

/-!
# A host frees what it has got

Whatever a plugin does, the host frees each pointer that it has got, once, the last one first, and
after all its other calls. The ways in which a run can go are listed beforehand, with the calls that
are made and the pointers that are got on each of them; then each run is shown to go one of these
ways.

* §1 the ways in which a run can go, §2 the steps of a host,
* §3 every run goes one of these ways, §4 freeing.
-/

namespace Idl.Plugin

/-! ## §1 The ways in which a run can go -/

/-- The pointer in what is returned by a call for room: a single word that is not null. -/
def Returned.pointer? : Returned → Option UInt32
  | .words [w] => if w.toUInt32 = 0 then none else some w.toUInt32
  | _ => none

namespace Call

/-- The call for room. -/
def asking (size : Nat) : Call := ⟨.allocate, [size.toUInt32]⟩

/-- The call that generates, with the places of the request and of the pointer to the answer. -/
def generating (request slot : UInt32) : Call := ⟨.generate, [request, slot]⟩

/-- The call that frees. -/
def freeing (p : UInt32) : Call := ⟨.deallocate, [p]⟩

end Call

open Call (asking generating freeing)

section Ways

variable (m : Machine) (request : Bytes)

/-- The host finds all that it cannot do without. -/
structure Machine.Usable : Prop where
  memory : m.hasMemory = true
  allocate : m.has .allocate = true
  generate : m.has .generate = true

theorem Machine.usable_iff :
    m.Usable ↔ (m.hasMemory && m.has .allocate && m.has .generate) = true := by
  rw [Bool.and_eq_true, Bool.and_eq_true]
  exact ⟨fun h => ⟨⟨h.memory, h.allocate⟩, h.generate⟩, fun h => ⟨h.1.1, h.1.2, h.2⟩⟩

instance : Decidable m.Usable := decidable_of_iff _ m.usable_iff.symm

/-- There was room for the request at `p`, and it was written there. -/
inductive Machine.Written : (p : UInt32) → m.State → Prop
  | intro {r : Returned} {s : m.State} {p : UInt32} {mem : Memory}
      (room : m.call (asking request.length) m.start = (r, s)) (place : r.pointer? = some p)
      (written : (m.memory s).write? p.toNat request = some mem) :
      Written p (m.setMemory mem s)

/-- Then there was room at `slot` for the pointer to the answer. -/
inductive Machine.Ready : (p slot : UInt32) → m.State → Prop
  | intro {p slot : UInt32} {s s' : m.State} {r : Returned} (written : m.Written request p s)
      (room : m.call (asking 4) s = (r, s')) (place : r.pointer? = some slot) :
      Ready p slot s'

/-- A run makes these calls before it frees anything, and has got these pointers by then. -/
inductive Machine.Course : List Call → List UInt32 → Prop
  | unusable (h : ¬ m.Usable) : Course [] []
  /-- There is no room for the request. -/
  | noRoom {r : Returned} {s : m.State} (usable : m.Usable)
      (room : m.call (asking request.length) m.start = (r, s)) (place : r.pointer? = none) :
      Course [asking request.length] []
  /-- There is room for the request, but not as much as is written. -/
  | unwritten {r : Returned} {s : m.State} {p : UInt32} (usable : m.Usable)
      (room : m.call (asking request.length) m.start = (r, s)) (place : r.pointer? = some p)
      (written : (m.memory s).write? p.toNat request = none) :
      Course [asking request.length] [p]
  /-- There is no room for the pointer to the answer. -/
  | noSlot {r : Returned} {s s' : m.State} {p : UInt32} (usable : m.Usable)
      (written : m.Written request p s) (room : m.call (asking 4) s = (r, s'))
      (place : r.pointer? = none) :
      Course [asking request.length, asking 4] [p]
  /-- The plugin traps, or does not return exactly one word. -/
  | failed {r : Returned} {s s' : m.State} {p slot : UInt32} (usable : m.Usable)
      (ready : m.Ready request p slot s) (call : m.call (generating p slot) s = (r, s'))
      (status : ∀ w, r ≠ .words [w]) :
      Course [asking request.length, asking 4, generating p slot] [p, slot]
  /-- No pointer to an answer is left, or a null one. -/
  | unanswered {w : UInt64} {s s' : m.State} {p slot : UInt32} (usable : m.Usable)
      (ready : m.Ready request p slot s)
      (call : m.call (generating p slot) s = (.words [w], s'))
      (answer : ∀ a, (m.memory s').word? slot.toNat = some a → a = 0) :
      Course [asking request.length, asking 4, generating p slot] [p, slot]
  /-- A pointer to an answer is left, whether or not there is an answer to be read. -/
  | answered {w : UInt64} {s s' : m.State} {p slot a : UInt32} (usable : m.Usable)
      (ready : m.Ready request p slot s)
      (call : m.call (generating p slot) s = (.words [w], s'))
      (answer : (m.memory s').word? slot.toNat = some a) (nonzero : a ≠ 0) :
      Course [asking request.length, asking 4, generating p slot] [p, slot, a]

end Ways

theorem Returned.ne_zero_of_pointer? {r : Returned} {p : UInt32} (h : r.pointer? = some p) :
    p ≠ 0 := by
  unfold pointer? at h
  split at h
  · split at h
    · cases h
    · next hne =>
      cases h
      exact hne
  · cases h

section

variable {m : Machine} {request : Bytes} {calls : List Call} {pointers : List UInt32}

theorem Machine.Written.ne_zero {p : UInt32} {s : m.State} (h : m.Written request p s) : p ≠ 0 := by
  obtain ⟨-, place, -⟩ := h
  exact Returned.ne_zero_of_pointer? place

theorem Machine.Ready.ne_zero {p slot : UInt32} {s : m.State} (h : m.Ready request p slot s) :
    p ≠ 0 ∧ slot ≠ 0 := by
  obtain ⟨written, -, place⟩ := h
  exact ⟨written.ne_zero, Returned.ne_zero_of_pointer? place⟩

namespace Machine.Course

/-- No pointer is null. -/
theorem ne_zero (h : m.Course request calls pointers) : ∀ p ∈ pointers, p ≠ 0 := by
  cases h with
  | unusable | noRoom => nofun
  | unwritten usable room place => simpa using Returned.ne_zero_of_pointer? place
  | noSlot usable written => simpa using written.ne_zero
  | failed usable ready | unanswered usable ready => simpa using ready.ne_zero
  | answered usable ready call answer nonzero =>
    simpa using ⟨ready.ne_zero.1, ready.ne_zero.2, nonzero⟩

/-- Before anything is freed, room is asked for and the plugin generates, and that at most once and
only when the request has been written. -/
theorem calls_spec (h : m.Course request calls pointers) :
    (∀ c ∈ calls, c.function ≠ .deallocate)
      ∧ (calls.countP (·.function == .generate) ≤ 1)
      ∧ ∀ c ∈ calls, c.function = .generate → ∃ p s, m.Written request p s := by
  cases h with
  | failed usable ready | unanswered usable ready | answered usable ready =>
    obtain ⟨written⟩ := ready
    exact ⟨by simp [asking, generating], by simp [asking, generating], fun _ _ _ => ⟨_, _, written⟩⟩
  | _ => exact ⟨by simp [asking], by simp [asking], by simp [asking]⟩

end Machine.Course

end

/-! ## §2 The steps of a host -/

section

variable {m : Machine} {α β : Type} {s s' s'' : Session m}

/-- From one session a step of the host comes to a result and leaves another session. -/
def Ends (x : Host m α) (s : Session m) (o : Except HostError α) (s' : Session m) : Prop :=
  x.run.run s = (o, s')

theorem ends_pure (a : α) : Ends (pure a : Host m α) s (.ok a) s := rfl

theorem ends_throw (e : HostError) : Ends (throw e : Host m α) s (.error e) s := rfl

theorem Ends.bind {x : Host m α} {f : α → Host m β} {a : α} {o : Except HostError β}
    (h : Ends x s (.ok a) s') (h' : Ends (f a) s' o s'') : Ends (x >>= f) s o s'' := by
  unfold Ends at h h' ⊢
  rw [ExceptT.run_bind, StateT.run_bind, h]
  exact h'

theorem Ends.bind_error {x : Host m α} {f : α → Host m β} {e : HostError}
    (h : Ends x s (.error e) s') : Ends (x >>= f) s (.error e) s' := by
  unfold Ends at h ⊢
  rw [ExceptT.run_bind, StateT.run_bind, h]
  rfl

variable {r : Returned} {st : m.State}

/-- A call is noted and leaves what the plugin leaves. -/
theorem ends_call {f : Export} {args : List UInt32} (h : m.call ⟨f, args⟩ s.state = (r, st)) :
    Ends (Host.call f args) s (.ok r) { s with state := st, calls := ⟨f, args⟩ :: s.calls } := by
  have hget : Ends (get : Host m (Session m)) s (.ok s) s := rfl
  refine hget.bind ?_
  rw [h]
  rfl

theorem ends_note (p : UInt32) :
    Ends (Host.note p) s (.ok ()) { s with pointers := p :: s.pointers } := rfl

theorem ends_memory : Ends Host.memory s (.ok (m.memory s.state)) s := rfl

/-- Where there is room its place is noted. -/
theorem ends_allocate {size : Nat} {p : UInt32} (h : m.call (asking size) s.state = (r, st))
    (hp : r.pointer? = some p) :
    Ends (Host.allocate size) s (.ok p)
      { state := st, calls := asking size :: s.calls, pointers := p :: s.pointers } := by
  refine (ends_call h).bind ?_
  unfold Returned.pointer? at hp
  split at hp
  · next w =>
    split at hp
    · cases hp
    · -- one word, which is no zero
      next hne =>
      cases hp
      simp only [beq_iff_eq, hne, if_false]
      exact (ends_note _).bind (ends_pure _)
  · cases hp

/-- Where there is none nothing is noted. -/
theorem ends_allocate_error {size : Nat} (h : m.call (asking size) s.state = (r, st))
    (hp : r.pointer? = none) :
    ∃ e, Ends (Host.allocate size) s (.error e)
      { s with state := st, calls := asking size :: s.calls } := by
  unfold Returned.pointer? at hp
  cases r with
  | trap => exact ⟨_, (ends_call h).bind (ends_throw _)⟩
  | words l =>
    refine ⟨.noRoom size, (ends_call h).bind ?_⟩
    -- zero, no word at all, or more than one
    match l, hp with
    | [w], hp =>
      have hzero : w.toUInt32 = 0 := by simpa using hp
      simp only [hzero, beq_self_eq_true, if_true]
      exact (ends_throw _).bind_error
    | [], _ => exact ends_throw _
    | _ :: _ :: _, _ => exact ends_throw _

theorem ends_writeRequest {request : Bytes} {p : UInt32} {mem : Memory}
    (h : (m.memory s.state).write? p.toNat request = some mem) :
    Ends (Host.writeRequest p request) s (.ok ()) { s with state := m.setMemory mem s.state } := by
  refine ends_memory.bind ?_
  rw [h]
  rfl

theorem ends_writeRequest_error {request : Bytes} {p : UInt32}
    (h : (m.memory s.state).write? p.toNat request = none) :
    Ends (Host.writeRequest p request) s (.error .writeRequest) s := by
  refine ends_memory.bind ?_
  rw [h]
  exact ends_throw _

theorem ends_generate {p slot : UInt32} {w : UInt64}
    (h : m.call (generating p slot) s.state = (.words [w], st)) :
    Ends (Host.generate p slot) s (.ok w.toUInt8)
      { s with state := st, calls := generating p slot :: s.calls } :=
  (ends_call h).bind (ends_pure _)

theorem ends_generate_error {p slot : UInt32} (h : m.call (generating p slot) s.state = (r, st))
    (hr : ∀ w, r ≠ .words [w]) :
    ∃ e, Ends (Host.generate p slot) s (.error e)
      { s with state := st, calls := generating p slot :: s.calls } := by
  match r, hr with
  | .trap, _ => exact ⟨_, (ends_call h).bind (ends_throw _)⟩
  | .words [], _ => exact ⟨_, (ends_call h).bind (ends_throw _)⟩
  | .words [w], hr => exact absurd rfl (hr w)
  | .words (_ :: _ :: _), _ => exact ⟨_, (ends_call h).bind (ends_throw _)⟩

/-- A step that leaves the session as it is. -/
def Looks (x : Host m α) : Prop := ∀ s, ∃ o, Ends x s o s

theorem looks_pure (a : α) : Looks (pure a : Host m α) := fun _ => ⟨_, ends_pure a⟩

theorem looks_throw (e : HostError) : Looks (throw e : Host m α) := fun _ => ⟨_, ends_throw e⟩

theorem looks_memory : Looks (Host.memory : Host m Memory) := fun _ => ⟨_, ends_memory⟩

theorem Looks.bind {x : Host m α} {f : α → Host m β} (h : Looks x) (hf : ∀ a, Looks (f a)) :
    Looks (x >>= f) := by
  intro s
  obtain ⟨o, hx⟩ := h s
  cases o with
  | error e => exact ⟨_, hx.bind_error⟩
  | ok a =>
    obtain ⟨o, ha⟩ := hf a s
    exact ⟨o, hx.bind ha⟩

theorem looks_readFrame (p : UInt32) : Looks (Host.readFrame p : Host m Bytes) := by
  refine looks_memory.bind fun mem => ?_
  split
  · refine (looks_pure _).bind fun n => looks_memory.bind fun mem => ?_
    split
    · exact looks_pure _
    · exact looks_throw _
  · -- without a length the second look is not taken
    exact fun s => ⟨_, (ends_throw _).bind_error⟩

/-- A pointer to the answer is noted, whether or not the answer can be read. -/
theorem ends_readResponse {slot a : UInt32} (h : (m.memory s.state).word? slot.toNat = some a)
    (ha : a ≠ 0) :
    ∃ o, Ends (Host.readResponse slot) s o { s with pointers := a :: s.pointers } := by
  -- the pointer is noted before anything is read behind it
  suffices hrest : ∃ o, Ends (Host.note a >>= fun _ => Host.readFrame a) s o
      { s with pointers := a :: s.pointers } by
    obtain ⟨o, hrest⟩ := hrest
    refine ⟨o, ends_memory.bind ?_⟩
    rw [h]
    simp only [beq_iff_eq, ha, if_false]
    exact (ends_pure a).bind hrest
  obtain ⟨o, hlook⟩ := looks_readFrame a { s with pointers := a :: s.pointers }
  exact ⟨o, (ends_note a).bind hlook⟩

theorem ends_readResponse_error {slot : UInt32}
    (h : ∀ a, (m.memory s.state).word? slot.toNat = some a → a = 0) :
    Ends (Host.readResponse slot) s (.error .responsePointer) s := by
  refine ends_memory.bind ?_
  cases hword : (m.memory s.state).word? slot.toNat with
  | none => exact (ends_throw _).bind_error
  | some a =>
    obtain rfl := h a hword
    exact (ends_throw _).bind_error

end

/-! ## §3 Every run goes one of these ways -/

section

variable {m : Machine} {request : Bytes} {calls : List Call} {pointers : List UInt32}
  {p slot : UInt32} {s : m.State} {o : Except HostError (UInt8 × Bytes)} {s' : Session m}

theorem Machine.Written.ends (h : m.Written request p s)
    (hrest : Ends (Host.afterWriting p) ⟨s, [asking request.length], [p]⟩ o s') :
    Ends (Host.converse request) { state := m.start } o s' := by
  obtain ⟨room, place, written⟩ := h
  exact (ends_allocate room place).bind ((ends_writeRequest written).bind hrest)

theorem Machine.Ready.ends (h : m.Ready request p slot s)
    (hrest : Ends (do
        let status ← Host.generate p slot
        return (status, ← Host.readResponse slot))
      ⟨s, [asking 4, asking request.length], [slot, p]⟩ o s') :
    Ends (Host.converse request) { state := m.start } o s' := by
  obtain ⟨written, room, place⟩ := h
  exact written.ends ((ends_allocate room place).bind hrest)

/-- The host notes what it does on each of the ways. -/
theorem Machine.Course.ends (h : m.Course request calls pointers) (usable : m.Usable) :
    ∃ o s', Ends (Host.converse request) { state := m.start } o s'
      ∧ s'.calls = calls.reverse ∧ s'.pointers = pointers.reverse := by
  cases h with
  | unusable hnot => exact absurd usable hnot
  | noRoom _ room place =>
    obtain ⟨e, hend⟩ := ends_allocate_error (s := { state := m.start }) room place
    exact ⟨_, _, hend.bind_error, rfl, rfl⟩
  | unwritten _ room place written =>
    exact ⟨_, _, (ends_allocate room place).bind (ends_writeRequest_error written).bind_error,
      rfl, rfl⟩
  -- the request is there, and no room for the answer
  | @noSlot r s _ p _ written room place =>
    obtain ⟨e, hend⟩ := ends_allocate_error (s := ⟨s, [asking request.length], [p]⟩) room place
    exact ⟨_, _, written.ends hend.bind_error, rfl, rfl⟩
  | @failed r s _ p slot _ ready call status =>
    obtain ⟨e, hend⟩ := ends_generate_error
      (s := ⟨s, [asking 4, asking request.length], [slot, p]⟩) call status
    exact ⟨_, _, ready.ends hend.bind_error, rfl, rfl⟩
  | unanswered _ ready call answer =>
    exact ⟨_, _, ready.ends ((ends_generate call).bind (ends_readResponse_error answer).bind_error),
      rfl, rfl⟩
  -- the answer can be read or not, and its pointer is noted in either case
  | @answered w s s' p slot a _ ready call answer nonzero =>
    obtain ⟨o, hend⟩ := ends_readResponse (s := ⟨s', [generating p slot, asking 4,
      asking request.length], [slot, p]⟩) answer nonzero
    cases o with
    | error e => exact ⟨_, _, ready.ends ((ends_generate call).bind hend.bind_error), rfl, rfl⟩
    | ok b =>
      exact ⟨_, _, ready.ends ((ends_generate call).bind (hend.bind (ends_pure _))), rfl, rfl⟩

theorem Machine.exists_course_of_ready (usable : m.Usable) (ready : m.Ready request p slot s) :
    ∃ calls pointers, m.Course request calls pointers := by
  rcases hcall : m.call (generating p slot) s with ⟨r, s'⟩
  -- one word is a status, whatever it is; the answer is looked for in any case
  by_cases status : ∃ w, r = .words [w]
  · obtain ⟨w, rfl⟩ := status
    by_cases answer : ∃ a, (m.memory s').word? slot.toNat = some a ∧ a ≠ 0
    · obtain ⟨a, answer, nonzero⟩ := answer
      exact ⟨_, _, .answered usable ready hcall answer nonzero⟩
    · refine ⟨_, _, .unanswered usable ready hcall fun a ha => ?_⟩
      exact Decidable.not_not.mp fun hne => answer ⟨a, ha, hne⟩
  · exact ⟨_, _, .failed usable ready hcall fun w hw => status ⟨w, hw⟩⟩

theorem Machine.exists_course_of_written (usable : m.Usable) (written : m.Written request p s) :
    ∃ calls pointers, m.Course request calls pointers := by
  rcases hroom : m.call (asking 4) s with ⟨r, s'⟩
  cases hplace : r.pointer? with
  | none => exact ⟨_, _, .noSlot usable written hroom hplace⟩
  | some slot => exact exists_course_of_ready usable ⟨written, hroom, hplace⟩

/-- Whatever a plugin answers, the run goes one of the ways. -/
theorem Machine.exists_course (m : Machine) (request : Bytes) :
    ∃ calls pointers, m.Course request calls pointers := by
  by_cases unusable : ¬ m.Usable
  · exact ⟨_, _, .unusable unusable⟩
  have usable := Decidable.not_not.mp unusable
  -- each call is asked for its outcome, in the order of the calls
  rcases hroom : m.call (asking request.length) m.start with ⟨r, s⟩
  cases hplace : r.pointer? with
  | none => exact ⟨_, _, .noRoom usable hroom hplace⟩
  | some p =>
    cases hwritten : (m.memory s).write? p.toNat request with
    | none => exact ⟨_, _, .unwritten usable hroom hplace hwritten⟩
    | some mem =>
      exact exists_course_of_written usable ⟨hroom, hplace, hwritten⟩

end

/-! ## §4 Freeing -/

/-- Each pointer is freed by one call. -/
theorem calls_free {m : Machine} (s : Session m) (pointers : List UInt32) :
    (s.free pointers).calls = (pointers.map freeing).reverse ++ s.calls := by
  unfold Session.free
  induction pointers generalizing s with
  | nil => rfl
  | cons p r ih =>
    rw [List.foldl_cons, ih, List.map_cons, List.reverse_cons, List.append_assoc]
    rfl

theorem calls_finish {m : Machine} (s : Session m) :
    s.finish.calls
      = (if m.has .deallocate then s.pointers.map freeing else []).reverse ++ s.calls := by
  unfold Session.finish
  split
  · exact calls_free s s.pointers
  · rfl

/-- The calls of a run are those of its course, and then those that free, if the plugin has the
function for that. -/
theorem Machine.Course.calls_run {m : Machine} {request : Bytes} {calls : List Call}
    {pointers : List UInt32} (h : m.Course request calls pointers) (path : Bytes) :
    (m.run path request).calls
      = calls ++ if m.has .deallocate then pointers.reverse.map freeing else [] := by
  by_cases usable : m.Usable
  · obtain ⟨o, s, hend, hcalls, hpointers⟩ := h.ends usable
    have hrun : (m.run path request).calls = s.finish.calls.reverse := by
      rw [Machine.run, m.usable_iff.mp usable]
      rw [show (Host.converse request : Host m (UInt8 × Bytes)).run { state := m.start } = (o, s)
        from hend]
      rfl
    -- calls are noted last first, and pointers are freed in the order in which they are noted
    rw [hrun, calls_finish, hcalls, hpointers, List.reverse_append, List.reverse_reverse,
      List.reverse_reverse]
  · have hneeds := Bool.eq_false_iff.mpr fun hall => usable (m.usable_iff.mpr hall)
    cases h with
    | unusable =>
      rw [Machine.run, hneeds]
      simp
    | _ => contradiction

/-- Whatever a plugin does, its run goes one of the ways, and after the calls of that way it frees
each pointer that the host has got, once, the last one first, if the plugin has the function for
that; no pointer is null, nothing is freed earlier, and the plugin generates at most once and only
when the request has been written. -/
theorem Machine.run_frees_pointers (m : Machine) (path request : Bytes) :
    (∃ calls pointers, m.Course request calls pointers)
      ∧ ∀ calls pointers, m.Course request calls pointers →
        (m.run path request).calls
            = calls ++ (if m.has .deallocate then pointers.reverse.map freeing else [])
          ∧ (∀ p ∈ pointers, p ≠ 0) ∧ (∀ c ∈ calls, c.function ≠ .deallocate)
          ∧ calls.countP (·.function == .generate) ≤ 1
          ∧ ∀ c ∈ calls, c.function = .generate → ∃ p s, m.Written request p s :=
  ⟨m.exists_course request, fun _ _ h => ⟨h.calls_run path, h.ne_zero, h.calls_spec⟩⟩

/-- A plugin that answers, and whose function for freeing fails. -/
theorem Machine.run_frees_pointers_trapping :
    ∃ m, Script.load { deallocateTraps := true, response := some "ok" } 1 = .ok m
      ∧ m.Course [1] [asking 1, asking 4, generating 1024 1025] [1024, 1025, 32768]
      ∧ (m.run "p" [1]).calls = [asking 1, asking 4, generating 1024 1025,
          freeing 32768, freeing 1025, freeing 1024] := by
  refine ⟨_, rfl, ?_⟩
  refine (fun hcourse => ⟨hcourse, ((run_frees_pointers _ "p" [1]).2 _ _ hcourse).1⟩) ?_
  exact .answered ⟨rfl, rfl, rfl⟩ ⟨⟨rfl, rfl, rfl⟩, rfl, rfl⟩ rfl (by decide +kernel) (by decide)

end Idl.Plugin
