import Idl.Proofs.Bindings.Routing
import Idl.Proofs.Schema.Alike
import Mathlib.Control.Traversable.Basic

/-!
# A multiplexer answers from its history

Registrations, messages and listings reach a multiplexer in any order. What it answers to one of
them depends on the registrations that came before, and `Due` says how, without a word about what
the multiplexer keeps: a name is given away once, to whoever asked for it first, and for good. A
registration that is refused leaves nothing behind.

* §1 runs, §2 what a history makes due,
* §3 what a multiplexer keeps of its history, §4 every reply is the one that is due.
-/

namespace Idl.Rpc.Mux

/-! ## §1 Runs -/

/-- Taking notes does not change what comes of a message. -/
theorem deliver_eq_dispatch (x : Mux) (m : Message) : (x.deliver m).run' [] = x.dispatch m := by
  rw [deliver, dispatch]
  cases x.route? m.method with
  | some d => rfl
  | none => rfl

variable {x : Mux} {past future : List Request} {service : Bytes} {d : Option Dispatcher}
  {m : Message} {q : Request} {r : Reply}

theorem run_append (x : Mux) (past future : List Request) :
    run x (past ++ future)
      = ((run x past).1 ++ (run (run x past).2 future).1, (run (run x past).2 future).2) := by
  induction past generalizing x with
  | nil => rfl
  | cons q past ih => simp [run, ih]

theorem length_run (x : Mux) (past : List Request) : (run x past).1.length = past.length := by
  induction past generalizing x with
  | nil => rfl
  | cons q past ih => simp [run, ih]

/-- The reply to a request, among those of a run. -/
theorem getElem?_run (x : Mux) (past future : List Request) (q : Request) :
    (run x (past ++ q :: future)).1[past.length]? = some ((run x past).2.step q).1 := by
  rw [run_append]
  rw [List.getElem?_append_right (length_run x past).le, length_run, Nat.sub_self]
  rfl

/-! ## §2 What is due -/

/-- The names that can be registered. -/
def IsServiceName (service : Bytes) : Prop := service ≠ [] ∧ dot ∉ service

/-- A name has been registered: it can be, and this is what the first request for it came with. -/
def Registered (past : List Request) (service : Bytes) (d : Option Dispatcher) : Prop :=
  IsServiceName service ∧ ∃ before after, past = before ++ .handle service d :: after
    ∧ ∀ d', .handle service d' ∉ before

/-- A message is for a dispatcher: it is registered, as somebody, under what stands in front of the
first dot of the method. -/
def Addressed (past : List Request) (m : Message) (d : Dispatcher) : Prop :=
  ∃ service rest, dot ∉ service ∧ m.method = service ++ dot :: rest
    ∧ Registered past service (some d)

/-- The reply that a request is due after a history. -/
inductive Due (past : List Request) : Request → Reply → Prop where
  | accepted {service : Bytes} {d : Option Dispatcher} (name : IsServiceName service)
      (new : ¬ ∃ d', Registered past service d') :
      Due past (.handle service d) (.handled (.ok ()))
  | malformed {service : Bytes} {d : Option Dispatcher} (name : ¬ IsServiceName service) :
      Due past (.handle service d) (.handled (.error (.invalidName service)))
  | taken {service : Bytes} {d d' : Option Dispatcher} (old : Registered past service d') :
      Due past (.handle service d) (.handled (.error (.alreadyRegistered service)))
  /-- The dispatcher that a message is for is handed just this message, and nobody else is handed
  anything. -/
  | handed {m : Message} {d : Dispatcher} (goal : Addressed past m d) :
      Due past (.dispatch m) (.dispatched [(d, m)] (d m))
  /-- A message that is for nobody is handed to nobody. -/
  | refused {m : Message} (nobody : ¬ ∃ d, Addressed past m d) :
      Due past (.dispatch m) (.dispatched [] ⟨m.arg, .error (.notHandled m.method)⟩)
  | listed {names : List Bytes} (sorted : names.Pairwise (· < ·))
      (mem : ∀ service, service ∈ names ↔ ∃ d, Registered past service d) :
      Due past .services (.services names)

namespace Registered

/-- A name is given away for good. -/
theorem append (h : Registered past service d) (future : List Request) :
    Registered (past ++ future) service d := by
  obtain ⟨hname, before, after, rfl, hnew⟩ := h
  exact ⟨hname, before, after ++ future, by simp, hnew⟩

theorem mem (h : Registered past service d) : Request.handle service d ∈ past := by
  obtain ⟨-, before, after, rfl, -⟩ := h
  simp

end Registered

/-- Whoever asks for a name that can be registered, it is somebody's from then on. -/
theorem exists_registered_of_mem (hname : IsServiceName service)
    (h : Request.handle service d ∈ past) : ∃ d', Registered past service d' := by
  induction past with
  | nil => cases h
  | cons q past ih =>
    -- either this is the first request for the name, or the first one is further on
    by_cases hq : ∃ d', q = .handle service d'
    · obtain ⟨d', rfl⟩ := hq
      exact ⟨d', hname, [], past, rfl, by simp⟩
    · have hrest : Request.handle service d ∈ past := by
        rcases List.mem_cons.mp h with rfl | hrest
        · exact absurd ⟨d, rfl⟩ hq
        · exact hrest
      obtain ⟨d', -, before, after, rfl, hnew⟩ := ih hrest
      refine ⟨d', hname, q :: before, after, rfl, fun d'' hmem => ?_⟩
      rcases List.mem_cons.mp hmem with rfl | hmem
      · exact hq ⟨d'', rfl⟩
      · exact hnew d'' hmem

/-- One more request registers nothing, or the one name that it asks for. -/
theorem registered_concat_iff :
    Registered (past ++ [q]) service d
      ↔ Registered past service d
        ∨ (q = .handle service d ∧ IsServiceName service ∧ ¬ ∃ d', Registered past service d') := by
  constructor
  · rintro ⟨hname, before, after, hsplit, hnew⟩
    rcases List.eq_nil_or_concat after with rfl | ⟨after, last, rfl⟩
    · -- the first request for the name is the last of all
      obtain ⟨rfl, hq⟩ := List.append_inj' hsplit rfl
      refine .inr ⟨by simpa using hq, hname, ?_⟩
      rintro ⟨d', h⟩
      exact hnew d' h.mem
    · refine .inl ⟨hname, before, after, ?_, hnew⟩
      have hsplit : past ++ [q] = (before ++ Request.handle service d :: after) ++ [last] := by
        simpa using hsplit
      exact (List.append_inj' hsplit rfl).1
  · rintro (h | ⟨rfl, hname, hnew⟩)
    · exact h.append [q]
    · refine ⟨hname, past, [], rfl, fun d' hmem => hnew ?_⟩
      exact exists_registered_of_mem hname hmem

/-! ## §3 What is kept -/

/-- A multiplexer keeps what has been registered, each name once. -/
structure Keeps (past : List Request) (x : Mux) : Prop where
  nodup : (x.entries.map (·.1)).Nodup
  mem : ∀ service d, (service, d) ∈ x.entries ↔ Registered past service d

namespace Keeps

theorem nil : Keeps [] {} where
  nodup := List.nodup_nil
  mem service d := by
    refine ⟨nofun, fun h => ?_⟩
    simpa using h.mem

theorem mem_names (h : Keeps past x) :
    service ∈ x.entries.map (·.1) ↔ ∃ d, Registered past service d := by
  simp [h.mem]

/-- The names that are kept are names that can be registered. -/
theorem isServiceName (h : Keeps past x) (hmem : (service, d) ∈ x.entries) :
    IsServiceName service := ((h.mem service d).mp hmem).1

/-- A name belongs to one only. -/
theorem registered_unique (h : Keeps past x) {d' : Option Dispatcher}
    (hd : Registered past service d) (hd' : Registered past service d') : d = d' := by
  have hfind := find?_of_mem h.nodup ((h.mem service d).mpr hd)
  have hfind' := find?_of_mem h.nodup ((h.mem service d').mpr hd')
  exact Option.some.inj (hfind.symm.trans hfind')

/-- What is registered under a name is found there. -/
theorem find?_eq_some_iff (h : Keeps past x) :
    x.find? service = some d ↔ Registered past service d := by
  constructor
  · intro hfind
    obtain ⟨l, r, hsplit, -⟩ := List.lookup_eq_some_iff.mp hfind
    exact (h.mem service d).mp (by simp [hsplit])
  · intro hd
    exact find?_of_mem h.nodup ((h.mem service d).mpr hd)

/-! ### Registering -/

theorem handle_of_malformed (hname : ¬ IsServiceName service) :
    x.handle service d = .error (.invalidName service) := by
  have hcheck : (service.isEmpty || service.contains dot) = true := by
    by_contra hcheck
    apply hname
    simpa [IsServiceName] using hcheck
  rw [handle, if_pos hcheck]

theorem handle_of_taken (h : Keeps past x) {d' : Option Dispatcher}
    (hold : Registered past service d') :
    x.handle service d = .error (.alreadyRegistered service) := by
  have hcheck : ¬ (service.isEmpty || service.contains dot) = true := by
    simpa [IsServiceName] using hold.1
  rw [handle, if_neg hcheck, h.find?_eq_some_iff.mpr hold]
  rfl

theorem handle_of_new (h : Keeps past x) (hname : IsServiceName service)
    (hnew : ¬ ∃ d', Registered past service d') :
    x.handle service d = .ok ⟨x.entries ++ [(service, d)]⟩ :=
  handle_eq_ok d hname.1 hname.2 (mt h.mem_names.mp hnew)

/-- Nothing is registered by anything but a registration that is accepted. -/
theorem concat_of_same (h : Keeps past x)
    (hq : ∀ service d, q = .handle service d →
      ¬ (IsServiceName service ∧ ¬ ∃ d', Registered past service d')) : Keeps (past ++ [q]) x where
  nodup := h.nodup
  mem service d := by
    rw [h.mem, registered_concat_iff]
    constructor
    · exact .inl
    · rintro (hd | ⟨rfl, hfit⟩)
      · exact hd
      · exact absurd hfit (hq service d rfl)

/-- A new name is added, and the old ones are kept. -/
theorem concat_of_new (h : Keeps past x) (hname : IsServiceName service)
    (hnew : ¬ ∃ d', Registered past service d') :
    Keeps (past ++ [.handle service d]) ⟨x.entries ++ [(service, d)]⟩ where
  nodup := by
    -- the name is in the table only if it was registered before
    have hout : service ∉ x.entries.map (·.1) := mt h.mem_names.mp hnew
    rw [List.map_append]
    exact List.nodup_append.mpr ⟨h.nodup, List.nodup_singleton _, by aesop⟩
  mem service' d' := by
    rw [List.mem_append, h.mem, registered_concat_iff, List.mem_singleton, Prod.mk.injEq]
    refine or_congr_right ⟨?_, ?_⟩
    · rintro ⟨rfl, rfl⟩
      exact ⟨rfl, hname, hnew⟩
    · rintro ⟨hq, -⟩
      cases hq
      exact ⟨rfl, rfl⟩

/-- One request, and the history is longer by it. -/
theorem step (h : Keeps past x) (q : Request) : Keeps (past ++ [q]) (x.step q).2 := by
  cases q with
  | handle service d =>
    -- the name is malformed, taken or new
    by_cases hname : IsServiceName service
    · by_cases hold : ∃ d', Registered past service d'
      · obtain ⟨d', hd'⟩ := hold
        rw [Mux.step, h.handle_of_taken hd']
        refine h.concat_of_same fun s d hq => ?_
        cases hq
        exact fun hfit => hfit.2 ⟨d', hd'⟩
      · rw [Mux.step, h.handle_of_new hname hold]
        exact h.concat_of_new hname hold
    · rw [Mux.step, handle_of_malformed hname]
      refine h.concat_of_same fun s d hq => ?_
      cases hq
      exact fun hfit => hname hfit.1
  | dispatch m => exact h.concat_of_same nofun
  | services => exact h.concat_of_same nofun

/-- A run from the start, by induction on the history from its end. -/
theorem run (past : List Request) : Keeps past (Mux.run {} past).2 := by
  induction past using List.reverseRecOn with
  | nil => exact nil
  | append_singleton past q ih =>
    rw [run_append]
    exact ih.step q

end Keeps

/-! ## §4 Replies -/

/-- What stands in front of the first dot is one thing only. -/
theorem front_unique {service service' rest rest' : Bytes} (h : dot ∉ service)
    (h' : dot ∉ service') (heq : service ++ dot :: rest = service' ++ dot :: rest') :
    service = service' := by
  have hcut (a : Bytes) (ha : dot ∉ a) (b : Bytes) :
      (a ++ dot :: b).takeWhile (· != dot) = a := by
    rw [List.takeWhile_append_of_pos]
    · simp
    · intro c hc
      rw [bne_iff_ne]
      rintro rfl
      exact ha hc
  rw [← hcut service h rest, heq, hcut service' h' rest']

namespace Keeps

/-- A message goes to the dispatcher that it is for. -/
theorem route?_eq_some_iff (h : Keeps past x) {d : Dispatcher} :
    x.route? m.method = some d ↔ Addressed past m d := by
  constructor
  · intro hroute
    -- without a dot no service is named
    by_cases hdot : dot ∈ m.method
    · obtain ⟨service, rest, hservice, hm⟩ := exists_mark_append hdot
      rw [route?, hm, serviceOf?_mark_append hservice, Option.bind_eq_bind, Option.bind_some,
        Option.bind_eq_bind, Option.bind_eq_some_iff] at hroute
      obtain ⟨entry, hfind, rfl⟩ := hroute
      refine ⟨service, rest, hservice, ?_, h.find?_eq_some_iff.mp hfind⟩
      rw [hm, Receiver.mark, List.append_assoc]
      rfl
    · rw [route?, serviceOf?_eq_none hdot] at hroute
      cases hroute
  · rintro ⟨service, rest, hservice, hm, hd⟩
    -- the name ends at the first dot
    have hmark : m.method = Receiver.mark service ++ rest := by
      rw [hm, Receiver.mark, List.append_assoc]
      rfl
    rw [hmark]
    exact route?_mark_append h.nodup hservice ((h.mem service (some d)).mpr hd) rest

theorem route?_eq_none (h : Keeps past x) (hnobody : ¬ ∃ d, Addressed past m d) :
    x.route? m.method = none := by
  rw [Option.eq_none_iff_forall_ne_some]
  intro d hroute
  exact hnobody ⟨d, h.route?_eq_some_iff.mp hroute⟩

/-- The names are listed in ascending order, each once. -/
theorem sorted_services (h : Keeps past x) : x.services.Pairwise (· < ·) := by
  have hle : x.services.Pairwise fun a b => Bytes.le a b = true :=
    List.pairwise_mergeSort (fun a b c => @Bytes.le_trans a b c) Bytes.le_total _
  have hne : x.services.Pairwise (· ≠ ·) :=
    ((List.mergeSort_perm _ _).nodup_iff).mpr h.nodup
  refine (hle.and hne).imp fun {a b} hab => ?_
  -- of two different names one comes before the other
  by_contra hlt
  have hba : Bytes.le b a = true := by simpa [Bytes.le] using hlt
  exact hab.2 (Bytes.le_antisymm hab.1 hba)

theorem mem_services (h : Keeps past x) :
    service ∈ x.services ↔ ∃ d, Registered past service d := by
  rw [services, (List.mergeSort_perm _ _).mem_iff]
  exact h.mem_names

/-- The reply is the one that is due. -/
theorem due_step (h : Keeps past x) (q : Request) : Due past q (x.step q).1 := by
  cases q with
  | handle service d =>
    by_cases hname : IsServiceName service
    · by_cases hold : ∃ d', Registered past service d'
      · obtain ⟨d', hd'⟩ := hold
        rw [Mux.step, h.handle_of_taken hd']
        exact .taken hd'
      · rw [Mux.step, h.handle_of_new hname hold]
        exact .accepted hname hold
    · rw [Mux.step, handle_of_malformed hname]
      exact .malformed hname
  | dispatch m =>
    -- a message goes to the service it names, or to none
    by_cases hto : ∃ d, Addressed past m d
    · obtain ⟨d, hd⟩ := hto
      have hroute := h.route?_eq_some_iff.mpr hd
      rw [Mux.step, deliver, hroute]
      exact .handed hd
    · rw [Mux.step, deliver, h.route?_eq_none hto]
      exact .refused hto
  | services => exact .listed h.sorted_services fun service => h.mem_services

/-- No two replies are due. -/
theorem due_unique (h : Keeps past x) {r' : Reply} (hr : Due past q r) (hr' : Due past q r') :
    r = r' := by
  cases hr with
  | accepted name new =>
    cases hr' with
    | accepted => rfl
    | malformed name' => exact absurd name name'
    | taken old => exact absurd ⟨_, old⟩ new
  | malformed name =>
    cases hr' with
    | accepted name' => exact absurd name' name
    | malformed => rfl
    | taken old => exact absurd old.1 name
  | taken old =>
    cases hr' with
    | accepted name new => exact absurd ⟨_, old⟩ new
    | malformed name => exact absurd old.1 name
    | taken => rfl
  | handed goal =>
    cases hr' with
    | handed goal' =>
      obtain ⟨service, rest, hdot, hm, hd⟩ := goal
      obtain ⟨service', rest', hdot', hm', hd'⟩ := goal'
      obtain rfl := front_unique hdot hdot' (hm.symm.trans hm')
      obtain rfl := Option.some.inj (h.registered_unique hd hd')
      rfl
    | refused nobody => exact absurd ⟨_, goal⟩ nobody
  | refused nobody =>
    cases hr' with
    | handed goal => exact absurd ⟨_, goal⟩ nobody
    | refused => rfl
  | listed sorted mem =>
    cases hr' with
    | listed sorted' mem' =>
      -- two ascending lists with the same members are one
      have hne {a b : Bytes} (hlt : a < b) : a ≠ b := by
        rintro rfl
        exact List.lt_irrefl a hlt
      have hperm : List.Perm _ _ := (List.perm_ext_iff_of_nodup (sorted.imp hne)
        (sorted'.imp hne)).mpr fun service => (mem service).trans (mem' service).symm
      rw [hperm.eq_of_pairwise (fun a b _ _ hab hba => absurd hba (List.lt_asymm hab)) sorted
        sorted']

end Keeps

/-- Each reply of a run from a new multiplexer on is the one that is due after the requests before
it, and no other. -/
theorem getElem?_run_iff_due :
    (run {} (past ++ q :: future)).1[past.length]? = some r ↔ Due past q r := by
  rw [getElem?_run, Option.some.injEq]
  have hkeeps := Keeps.run past
  refine ⟨fun h => h ▸ hkeeps.due_step q, fun h => hkeeps.due_unique (hkeeps.due_step q) h⟩

/-- A registration that is refused changes nothing. -/
theorem run_concat_of_refused {e : RegisterError}
    (h : Due past (.handle service d) (.handled (.error e))) :
    (run {} (past ++ [.handle service d])).2 = (run {} past).2 := by
  have hkeeps := Keeps.run past
  rw [run_append]
  show ((run {} past).2.step (.handle service d)).2 = _
  cases h with
  | malformed name => rw [step, Keeps.handle_of_malformed name]
  | taken old => rw [step, hkeeps.handle_of_taken old]

/-- Whatever a multiplexer has been asked for, in whatever order: the names that it knows can all be
registered; a message goes where dispatching takes it; each request is replied to with what is due
after those before it, and with nothing else; a registration that is refused leaves the multiplexer
as it was, and so the way of every message; and what is first registered under a name is found there
for the rest of the run. -/
theorem run_obeys_history (past : List Request) :
    (∀ e ∈ (run {} past).2.entries, IsServiceName e.1)
      ∧ (∀ m : Message, ((run {} past).2.deliver m).run' [] = (run {} past).2.dispatch m)
      ∧ (∀ (q : Request) (future : List Request) (r : Reply),
          (run {} (past ++ q :: future)).1[past.length]? = some r ↔ Due past q r)
      ∧ (∀ (service : Bytes) (d : Option Dispatcher) (e : RegisterError),
          Due past (.handle service d) (.handled (.error e)) →
            (run {} (past ++ [.handle service d])).2 = (run {} past).2)
      ∧ ∀ (service : Bytes) (d : Option Dispatcher), Registered past service d →
          ∀ future : List Request, (run {} (past ++ future)).2.find? service = some d := by
  have hkeeps := Keeps.run past
  refine ⟨?_, deliver_eq_dispatch _, ?_, ?_, ?_⟩
  · rintro ⟨service, d⟩ hmem
    exact hkeeps.isServiceName hmem
  · intro q future r
    exact getElem?_run_iff_due
  · intro service d e hdue
    exact run_concat_of_refused hdue
  · intro service d hd future
    -- what is registered stays so, and what is registered is found
    exact (Keeps.run (past ++ future)).find?_eq_some_iff.mpr (hd.append future)

/-- A dispatcher that gives back what it gets. -/
def echo : Dispatcher := fun m => ⟨m.arg, .ok (some m)⟩

/-- A second registration of `A`, without a dispatcher, is refused; `A` stays with the first one, and
a listing at the end has it once. -/
theorem run_obeys_history_of_taken :
    Due [.handle "A" (some echo)] (.handle "A" none)
        (.handled (.error (.alreadyRegistered "A")))
      ∧ (run {} [.handle "A" (some echo), .handle "A" none]).2.find? "A" = some (some echo)
      ∧ (run {} [.handle "A" (some echo), .handle "A" none]).2
          = (run {} [.handle "A" (some echo)]).2 := by
  have hname : IsServiceName "A" := ⟨by decide, by decide⟩
  -- the first registration counts, with nothing before it
  have hfirst : Registered [.handle "A" (some echo)] "A" (some echo) :=
    ⟨hname, [], [], rfl, by simp⟩
  have hlaw := run_obeys_history [.handle "A" (some echo)]
  have hdue : Due [.handle "A" (some echo)] (.handle "A" none)
      (.handled (.error (.alreadyRegistered "A"))) := .taken hfirst
  exact ⟨hdue, hlaw.2.2.2.2 "A" (some echo) hfirst [.handle "A" none],
    hlaw.2.2.2.1 "A" none _ hdue⟩

end Idl.Rpc.Mux
