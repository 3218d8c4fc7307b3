import Idl.Proofs.Bindings.GoNames
import Idl.Proofs.Bindings.Receiver

/-!
# Requests reach the method they name

The receivers of all servers of a file can be registered together, in any order. A request for a
method of one of them is then handed to the arm for that method, and every other request is refused
under its own name. The name of a method is cut twice, at its first dot by the multiplexer and
behind the name of the service by the receiver; since no name of a service has a dot in it, both
cuts are one.

* §1 registering, §2 the service of a request, §3 the arm of a request,
* §4 the receivers of a file.
-/

namespace Idl

open Rpc (Dispatcher Mux dot)

/-! ## §1 Registering -/

namespace Rpc.Mux

variable {x : Mux} {l : List (Bytes × Option Dispatcher)} {service : Bytes}

theorem find?_eq_none (h : service ∉ x.entries.map (·.1)) : x.find? service = none := by
  refine List.lookup_eq_none_iff.mpr fun e he => bne_iff_ne.mpr ?_
  rintro rfl
  exact h (List.mem_map_of_mem he)

theorem find?_of_mem {d : Option Dispatcher} (hnodup : (x.entries.map (·.1)).Nodup)
    (h : (service, d) ∈ x.entries) : x.find? service = some d := by
  obtain ⟨l, r, hsplit⟩ := List.append_of_mem h
  refine List.lookup_eq_some_iff.mpr ⟨l, r, hsplit, fun e he => bne_iff_ne.mpr ?_⟩
  rintro rfl
  rw [hsplit, List.map_append, List.map_cons] at hnodup
  exact (List.nodup_append.mp hnodup).2.2 _ (List.mem_map_of_mem he) _ List.mem_cons_self rfl

/-- A service with a name that can be registered. -/
theorem handle_eq_ok (d : Option Dispatcher) (hne : service ≠ []) (hdot : dot ∉ service)
    (hnew : service ∉ x.entries.map (·.1)) :
    x.handle service d = .ok ⟨x.entries ++ [(service, d)]⟩ := by
  have hcontains : service.contains dot = false :=
    Bool.eq_false_iff.mpr fun h => hdot (List.contains_iff_mem.mp h)
  rw [handle, find?_eq_none hnew, hcontains]
  simp [hne]

/-- Services with names of their own can be registered one after the other. -/
theorem foldlM_handle_eq_ok (hnames : ∀ e ∈ l, e.1 ≠ [] ∧ dot ∉ e.1)
    (hnodup : (x.entries.map (·.1) ++ l.map (·.1)).Nodup) :
    l.foldlM (fun x e => x.handle e.1 e.2) x = .ok ⟨x.entries ++ l⟩ := by
  induction l generalizing x with
  | nil =>
    rw [List.append_nil]
    rfl
  | cons e r ih =>
    obtain ⟨⟨hne, hdot⟩, hr⟩ := List.forall_mem_cons.mp hnames
    -- the names already registered grow by this one, and those of the rest stay apart from them
    have hnew : e.1 ∉ x.entries.map (·.1) := fun hmem =>
      (List.nodup_append.mp hnodup).2.2 _ hmem _ List.mem_cons_self rfl
    rw [List.foldlM_cons, handle_eq_ok e.2 hne hdot hnew]
    refine (ih hr ?_).trans (by simp)
    simpa using hnodup

/-! ## §2 The service of a request -/

theorem serviceOf?_eq_none {method : Bytes} (h : dot ∉ method) : serviceOf? method = none := by
  have hcontains : method.contains dot = false :=
    Bool.eq_false_iff.mpr fun hc => h (List.contains_iff_mem.mp hc)
  rw [serviceOf?, hcontains]
  rfl

/-- What stands before the first dot. -/
theorem serviceOf?_mark_append (hdot : dot ∉ service) (rest : Bytes) :
    serviceOf? (Receiver.mark service ++ rest) = some service := by
  have hmark : Receiver.mark service ++ rest = service ++ dot :: rest := by
    rw [Receiver.mark, List.append_assoc]
    rfl
  have hall : ∀ b ∈ service, (b != dot) = true := by
    intro b hb
    rw [bne_iff_ne]
    rintro rfl
    exact hdot hb
  have hcontains : (service ++ dot :: rest).contains dot = true := by simp
  rw [serviceOf?, hmark, if_pos hcontains, List.takeWhile_append_of_pos hall]
  simp

/-- A method with a dot has a service. -/
theorem exists_mark_append {method : Bytes} (h : dot ∈ method) :
    ∃ service rest, dot ∉ service ∧ method = Receiver.mark service ++ rest := by
  obtain ⟨service, rest, rfl, hdot⟩ := List.eq_append_cons_of_mem h
  refine ⟨service, rest, hdot, ?_⟩
  rw [Receiver.mark, List.append_assoc]
  rfl

/-- A request goes to the dispatcher that is registered for its service. -/
theorem route?_mark_append {d : Dispatcher} (hnodup : (x.entries.map (·.1)).Nodup)
    (hdot : dot ∉ service) (h : (service, some d) ∈ x.entries) (rest : Bytes) :
    x.route? (Receiver.mark service ++ rest) = some d := by
  rw [route?, serviceOf?_mark_append hdot, Option.bind_eq_bind, Option.bind_some,
    find?_of_mem hnodup h]
  rfl

theorem dispatch_of_route? {d : Dispatcher} {m : Rpc.Message} (h : x.route? m.method = some d) :
    x.dispatch m = d m := by
  rw [dispatch, h]

/-- A request without a service, or for one that is not registered, is refused. -/
theorem dispatch_eq_notHandled {m : Rpc.Message}
    (h : ∀ service rest, dot ∉ service → m.method = Receiver.mark service ++ rest →
      service ∉ x.entries.map (·.1)) : x.dispatch m = notHandled m := by
  have hroute : x.route? m.method = none := by
    by_cases hdot : dot ∈ m.method
    · obtain ⟨service, rest, hservice, hm⟩ := exists_mark_append hdot
      rw [route?, hm, serviceOf?_mark_append hservice, Option.bind_eq_bind, Option.bind_some,
        find?_eq_none (h service rest hservice hm)]
      rfl
    · rw [route?, serviceOf?_eq_none hdot]
      rfl
  rw [dispatch, hroute]

end Rpc.Mux

namespace GoView

/-! ## §3 The arm of a request -/

section

variable {w : Service}

theorem Service.wire_eq (w : Service) (k : Method) : w.wire k = Receiver.mark w.name ++ k.name :=
  rfl

/-- The label that is left of a request for a service. -/
theorem Service.choose_mark_append (w : Service) (rest : Bytes) :
    w.receiver.choose (Receiver.mark w.name ++ rest)
      = match w.methods.find? (·.name == rest) with
        | some k => .arm k
        | none => .unhandled (Receiver.mark w.name ++ rest) := by
  have htrim : Bytes.trimStart (Receiver.mark w.name ++ rest) (Receiver.mark w.name) = rest :=
    Bytes.trimStart_of_append _ _
  simp only [Receiver.choose, Service.receiver, Receiver.inGo, htrim, List.find?_map,
    Function.comp_def]
  cases w.methods.find? (·.name == rest) with
  | none => simp
  | some k => rfl

/-- A method is found under its label. -/
theorem Service.find?_of_mem (hnodup : (w.methods.map (·.name)).Nodup) {k : Method}
    (hk : k ∈ w.methods) : w.methods.find? (·.name == k.name) = some k := by
  obtain ⟨l, r, hsplit⟩ := List.append_of_mem hk
  rw [hsplit, List.map_append, List.map_cons] at hnodup
  have hfirst : l.find? (·.name == k.name) = none := by
    refine List.find?_eq_none.mpr fun a ha heq => ?_
    exact (List.nodup_append.mp hnodup).2.2 _ (List.mem_map_of_mem ha) _ List.mem_cons_self
      (eq_of_beq heq)
  rw [hsplit, List.find?_append, hfirst]
  simp

/-- A request for a method is handed to its arm. -/
theorem Service.choose_wire (hnodup : (w.methods.map (·.name)).Nodup) {k : Method}
    (hk : k ∈ w.methods) : w.receiver.choose (w.wire k) = .arm k := by
  rw [Service.wire_eq, Service.choose_mark_append, Service.find?_of_mem hnodup hk]

/-- Any other request for the service is refused under its own name. -/
theorem Service.choose_of_ne_wire {rest : Bytes}
    (h : ∀ k ∈ w.methods, Receiver.mark w.name ++ rest ≠ w.wire k) :
    w.receiver.choose (Receiver.mark w.name ++ rest)
      = .unhandled (Receiver.mark w.name ++ rest) := by
  have hfind : w.methods.find? (·.name == rest) = none := by
    refine List.find?_eq_none.mpr fun k hk heq => h k hk ?_
    rw [Service.wire_eq, eq_of_beq heq]
  rw [Service.choose_mark_append, hfind]

end

/-! ## §4 The receivers of a file -/

/-- The services of a file that have a receiver. -/
def servers (v : GoView) : List Service := v.services.filter (·.server)

/-- Registers receivers under the names of their services, given what their arms do. -/
def register (serve : Service → Method → Dispatcher) (l : List Service) :
    Except Rpc.RegisterError Mux :=
  l.foldlM (fun x w => x.handle w.name (some (w.receiver.dispatcher (serve w)))) {}

/-- The names of services and methods that receivers are registered and chosen by. -/
structure Routable (l : List Service) : Prop where
  names : ∀ w ∈ l, w.name ≠ [] ∧ dot ∉ w.name
  apart : (l.map (·.name)).Nodup
  methods : ∀ w ∈ l, (w.methods.map (·.name)).Nodup

theorem Routable.perm {l l' : List Service} (h : Routable l) (hperm : l'.Perm l) : Routable l' where
  names w hw := h.names w (hperm.mem_iff.mp hw)
  apart := (hperm.map _).nodup_iff.mpr h.apart
  methods w hw := h.methods w (hperm.mem_iff.mp hw)

section

variable {l : List Service} {serve : Service → Method → Dispatcher}

/-- What is registered for the services of a file. -/
def registered (serve : Service → Method → Dispatcher) (l : List Service) : Mux where
  entries := l.map fun w => (w.name, some (w.receiver.dispatcher (serve w)))

theorem names_registered (serve : Service → Method → Dispatcher) (l : List Service) :
    (registered serve l).entries.map (·.1) = l.map (·.name) := by
  simp [registered, Function.comp_def]

theorem Routable.register_eq_ok (h : Routable l) (serve : Service → Method → Dispatcher) :
    register serve l = .ok (registered serve l) := by
  have hfold := Mux.foldlM_handle_eq_ok (x := {})
    (l := l.map fun w => (w.name, some (w.receiver.dispatcher (serve w)))) (by simpa using h.names)
    (by simpa [Function.comp_def] using h.apart)
  rw [List.foldlM_map] at hfold
  exact hfold

/-- A request for a service goes to its receiver. -/
theorem Routable.route?_mark_append (h : Routable l) {w : Service} (hw : w ∈ l) (rest : Bytes) :
    (registered serve l).route? (Receiver.mark w.name ++ rest)
      = some (w.receiver.dispatcher (serve w)) := by
  have hnodup : ((registered serve l).entries.map (·.1)).Nodup := by
    rw [names_registered]
    exact h.apart
  exact Mux.route?_mark_append hnodup (h.names w hw).2 (List.mem_map_of_mem hw) rest

/-- A request for a method is handed to its arm. -/
theorem Routable.dispatch_wire (h : Routable l) {w : Service} (hw : w ∈ l) {k : Method}
    (hk : k ∈ w.methods) {m : Rpc.Message} (hm : m.method = w.wire k) :
    (registered serve l).dispatch m = serve w k m := by
  have hroute : (registered serve l).route? m.method = some (w.receiver.dispatcher (serve w)) := by
    rw [hm]
    exact h.route?_mark_append hw k.name
  rw [Mux.dispatch_of_route? hroute, Receiver.dispatcher, hm,
    Service.choose_wire (h.methods w hw) hk]

/-- Every other request is refused under its own name. -/
theorem Routable.dispatch_of_ne_wire (h : Routable l) {m : Rpc.Message}
    (hm : ∀ w ∈ l, ∀ k ∈ w.methods, m.method ≠ w.wire k) :
    (registered serve l).dispatch m = Rpc.notHandled m := by
  -- either a receiver is found for the request, which has no arm for it, or none is found
  by_cases hservice : ∃ w ∈ l, ∃ rest, m.method = Receiver.mark w.name ++ rest
  · obtain ⟨w, hw, rest, hmethod⟩ := hservice
    have hroute : (registered serve l).route? m.method
        = some (w.receiver.dispatcher (serve w)) := by
      rw [hmethod]
      exact h.route?_mark_append hw rest
    have hchoose : w.receiver.choose m.method = .unhandled m.method := by
      rw [hmethod]
      exact Service.choose_of_ne_wire fun k hk => hmethod ▸ hm w hw k hk
    rw [Mux.dispatch_of_route? hroute, Receiver.dispatcher, hchoose]
    rfl
  · refine Mux.dispatch_eq_notHandled fun service rest hdot hmethod hmem => hservice ?_
    rw [names_registered] at hmem
    obtain ⟨w, hw, rfl⟩ := List.mem_map.mp hmem
    exact ⟨w, hw, rest, hmethod⟩

end

/-- The names of the services are among the names that a file declares. -/
theorem Distinct.apart {v : GoView} (h : v.Distinct) : (v.servers.map (·.name)).Nodup := by
  have hapart := (List.nodup_flatMap.mp (List.nodup_append.mp h.declared).2.1).2
  have hnames : (v.services.map (·.name)).Nodup := by
    refine List.pairwise_map.mpr (hapart.imp fun hdisjoint heq => ?_)
    exact hdisjoint List.mem_cons_self (heq ▸ List.mem_cons_self)
  exact hnames.sublist (List.filter_sublist.map _)

/-- The receivers of a file for a compiled schema can be registered. -/
theorem routable_of {s : Schema} (hnamed : s.Named) {package rpcImport : Bytes}
    (hdistinct : (of s package rpcImport).Distinct) :
    Routable (of s package rpcImport).servers := by
  refine ⟨fun w hw => ?_, hdistinct.apart,
    fun w hw => hdistinct.methods w (List.mem_of_mem_filter hw)⟩
  obtain ⟨x, hx, rfl⟩ := List.mem_map.mp (List.mem_of_mem_filter hw)
  obtain ⟨hne, hplain⟩ := hnamed.services x hx
  exact ⟨Naming.pascal_ne_nil hplain hne,
    (Naming.restyled_pascal hplain).plain.not_mem (by decide)⟩

/-- The receivers of the servers of a file for a compiled schema can be registered together, in any
order. A request for a method of one of them is then handed to the arm of that method, and every
other request is refused under its own name. -/
theorem routed_of_compileSource {src sourcePath : Bytes} {allowMissingPackage : Bool}
    {c : Compilation} {s : Schema} (h : compileSource src sourcePath allowMissingPackage = .ok c)
    (hs : c.outcome = .ok s) {o : Bindings.Options} {v : GoView} (hv : ofSchema s o = .ok v)
    {l : List Service} (hl : l.Perm v.servers) (serve : Service → Method → Dispatcher) :
    ∃ x, register serve l = .ok x
      ∧ (∀ w ∈ v.servers, ∀ k ∈ w.methods, w.receiver.choose (w.wire k) = .arm k
        ∧ ∀ m : Rpc.Message, m.method = w.wire k →
          x.route? m.method = some (w.receiver.dispatcher (serve w)) ∧ x.dispatch m = serve w k m)
      ∧ ∀ m : Rpc.Message, (∀ w ∈ v.servers, ∀ k ∈ w.methods, m.method ≠ w.wire k) →
        x.dispatch m = ⟨m.arg, .error (.notHandled m.method)⟩ := by
  have hwell := compileSource_wellFormed h hs
  have hnamed := named_of_compileSource h hs
  obtain ⟨hapart, package, rpcImport, rfl⟩ := eq_of_of_ofSchema hwell hnamed hv
  have hservers : Routable (of s package rpcImport).servers :=
    routable_of hnamed (distinct_of hapart package rpcImport)
  have hroutable : Routable l := hservers.perm hl
  refine ⟨_, hroutable.register_eq_ok serve, fun w hw k hk => ⟨?_, fun m hm => ⟨?_, ?_⟩⟩, ?_⟩
  · exact Service.choose_wire (hservers.methods w hw) hk
  · rw [hm]
    exact hroutable.route?_mark_append (hl.mem_iff.mpr hw) k.name
  · exact hroutable.dispatch_wire (hl.mem_iff.mpr hw) hk hm
  · intro m hm
    exact hroutable.dispatch_of_ne_wire fun w hw => hm w (hl.mem_iff.mp hw)

/-- Services of which one name begins with the other, with a method that is called like a service: a
request with a service before its service is refused. -/
theorem routed_of_compileSource_nested :
    ∃ c s v, compileSource ("package p;service foo{rpc get();rpc foo();}"
        ++ "service foo_bar{rpc get();}") [] false = .ok c ∧ c.outcome = .ok s
      ∧ ofSchema s {} = .ok v
      ∧ (v.servers.map fun w => w.methods.map w.wire)
        = ([["Foo.Get", "Foo.Foo"], ["FooBar.Get"]] : List (List Bytes))
      ∧ ∀ serve, ∃ x, register serve v.servers.reverse = .ok x
        ∧ x.dispatch ⟨"Foo.Foo.Get", []⟩ = ⟨[], .error (.notHandled "Foo.Foo.Get")⟩ := by
  have hok : (compileSource ("package p;service foo{rpc get();rpc foo();}"
      ++ "service foo_bar{rpc get();}") [] false).toOption.any
        (·.outcome.toOption.any fun s => (ofSchema s {}).toOption.any fun v =>
          (v.servers.map fun w => w.methods.map w.wire)
            == ([["Foo.Get", "Foo.Foo"], ["FooBar.Get"]] : List (List Bytes))) = true := by
    decide +kernel
  obtain ⟨c, s, hc, hs, hview⟩ := exists_outcome_of_any hok
  cases hv : ofSchema s {} with
  | error e =>
    rw [hv] at hview
    cases hview
  | ok v =>
    rw [hv] at hview
    have hwires := eq_of_beq hview
    refine ⟨c, s, v, hc, hs, hv, hwires, fun serve => ?_⟩
    obtain ⟨x, hx, -, hother⟩ := routed_of_compileSource hc hs hv v.servers.reverse_perm serve
    refine ⟨x, hx, hother ⟨"Foo.Foo.Get", []⟩ fun w hw k hk hwire => ?_⟩
    -- no method is called by that name
    have hmem : w.methods.map w.wire ∈ v.servers.map fun w => w.methods.map w.wire :=
      List.mem_map_of_mem hw
    have hlabel : ("Foo.Foo.Get" : Bytes) ∈ w.methods.map w.wire :=
      List.mem_map.mpr ⟨k, hk, hwire.symm⟩
    rw [hwires] at hmem
    have hnone : ∀ l ∈ ([["Foo.Get", "Foo.Foo"], ["FooBar.Get"]] : List (List Bytes)),
        ("Foo.Foo.Get" : Bytes) ∉ l := by decide
    exact hnone _ hmem hlabel

end GoView

end Idl
