import Idl.Bindings.GoText
import Idl.Bindings.Receiver
import Idl.Bindings.RustText
import Idl.Proofs.Bindings.Filling
import Mathlib.Tactic.Choose

/-!
# What receivers do

That the receivers in both languages are what the templates say is read off the text that the
templates are filled in to. They choose alike unless taking the name of the service off once and
taking it off as often as it occurs leave different labels.

* §1 taking a part off as often as it occurs, §2 the text of receivers,
* §3 where both languages agree.
-/

namespace Idl

/-! ## §1 Taking a part off -/

namespace Bytes

variable {b p : Bytes}

theorem startsWith_append (p b : Bytes) : startsWith (p ++ b) p = true :=
  List.isPrefixOf_iff_prefix.mpr (List.prefix_append p b)

theorem exists_of_startsWith (h : startsWith b p = true) : ∃ r, b = p ++ r := by
  obtain ⟨r, hr⟩ := List.isPrefixOf_iff_prefix.mp h
  exact ⟨r, hr.symm⟩

theorem trimStart_of_append (p b : Bytes) : trimStart (p ++ b) p = b := by
  rw [trimStart, if_pos (startsWith_append p b), List.drop_left]

theorem trimStart_of_not (h : startsWith b p = false) : trimStart b p = b := by
  rw [trimStart, h]
  rfl

theorem trimStartAll_of_append (hp : p ≠ []) (b : Bytes) :
    trimStartAll (p ++ b) p = trimStartAll b p := by
  rw [trimStartAll, dif_pos ⟨startsWith_append p b, hp⟩, List.drop_left]

theorem trimStartAll_of_not (h : startsWith b p = false) : trimStartAll b p = b := by
  rw [trimStartAll, h, dif_neg]
  simp

theorem length_trimStartAll_le (b p : Bytes) : (trimStartAll b p).length ≤ b.length := by
  fun_induction trimStartAll b p with
  | case1 b _ ih => exact Nat.le_trans ih (List.length_drop ▸ Nat.sub_le _ _)
  | case2 => exact Nat.le_refl _

end Bytes

/-! ## §2 The text of receivers -/

section

open Template Template.Short

variable (call : Bytes → Data → Except Fault Bytes)

/-- The text of a receiver in Go ends in the switch. -/
theorem GoView.fill_receiver (w : GoView.Service) : ∃ head, ∃ body : GoView.Method → Bytes,
    fill call w.toData w.toData GoView.receiver = .ok (head ++ w.receiver.goText body) := by
  -- the nodes from the switch on; of what an arm does only counts that it can be filled in
  obtain ⟨arm, hsplit, harm⟩ : ∃ arm, GoView.receiver.drop 21
      = [t "\n\tmethod := strings.TrimPrefix(msg.Method, \"", f "Name",
          t ".\")\n\tswitch method \x7b",
          each "Methods" (t "\n\tcase " :: q "Name" :: t ":" :: arm),
          t "\n\tdefault:\n\t\tif strings.Contains(method, \".\") \x7b\n",
          t "\t\t\treturn nil, rpc.NotHandled(msg.Method)\n\t\t\x7d\n",
          t "\t\treturn nil, rpc.NotHandled(\"", top "Name",
          t ".\" + method)\n\t\x7d\n\x7d"]
      ∧ ∀ m : GoView.Method, (fill call w.toData (m.toData w) arm).isOk = true := by
    refine ⟨_, rfl, fun m => ?_⟩
    obtain ⟨name, input, output, docs⟩ := m
    cases input with
    | none => cases output <;> rfl
    | some p =>
      obtain ⟨_, isMessage, _⟩ := p
      cases isMessage <;> cases output <;> rfl
  obtain ⟨head, hhead⟩ : ∃ head,
      fill call w.toData w.toData (GoView.receiver.take 21) = .ok head := by
    refine exists_of_isOk ?_
    unfold GoView.Service.toData
    cases w.methods.any GoView.Method.usesCodec <;> rfl
  choose body hbody using fun m => exists_of_isOk (harm m)
  have harms (m : GoView.Method) : fill call w.toData (m.toData w)
      (t "\n\tcase " :: q "Name" :: t ":" :: arm)
        = .ok ("\n\tcase " ++ (quote m.name ++ (":" ++ body m))) :=
    fill_cons (fillNode_t _) (fill_cons (fillNode_q rfl) (fill_cons (fillNode_t _) (hbody m)))
  have hname : w.toData.field "Name" = .ok (.text w.name) := rfl
  have hmethods : w.toData.field "Methods"
      = .ok (.list (w.methods.map (GoView.Method.toData w))) := rfl
  refine ⟨head, body, ?_⟩
  rw [← List.take_append_drop 21 GoView.receiver, hsplit]
  refine (fill_append hhead (fill_cons (fillNode_t _) (fill_cons (fillNode_f hname)
    (fill_cons (fillNode_t _) (fill_cons (fillNode_each hmethods fun m _ => harms m)
      (fill_cons (fillNode_t _) (fill_cons (fillNode_t _) (fill_cons (fillNode_t _)
        (fill_cons (fillNode_top hname) (fill_cons (fillNode_t _)
          (fill_nil call w.toData w.toData))))))))))).trans ?_
  simp [Receiver.goText, GoView.Service.receiver, Receiver.inGo, List.flatMap_map]

/-- The text of a receiver in Rust ends in the match. -/
theorem RustView.fill_receiver (w : RustView.Service) : ∃ head, ∃ body : RustView.Method → Bytes,
    fill call w.toData w.toData RustView.receiver = .ok (head ++ w.receiver.rustText body) := by
  -- the dispatch begins behind eleven pieces; what an arm does with a call is left open
  obtain ⟨arm, hsplit, harm⟩ : ∃ arm, RustView.receiver.drop 11
      = [t "        let method = message.method.trim_start_matches(\"", f "Name",
          t ".\");\n        match method \x7b",
          each "Methods" (t "\n            " :: q "Name" :: t " => \x7b" :: arm), t "\n",
          t "            _ if method.contains('.') => ",
          t "Err(RpcError::MethodNotHandled(message.method.to_string())),\n",
          t "            _ => Err(RpcError::MethodNotHandled(format!(\"", f "Name",
          t ".\x7b\x7d\", method))),\n        \x7d\n    \x7d\n\x7d"]
      ∧ ∀ m : RustView.Method, (fill call w.toData (m.toData w) arm).isOk = true := by
    refine ⟨_, rfl, fun m => ?_⟩
    obtain ⟨label, function, input, output, docs⟩ := m
    cases input with
    | none => cases output <;> rfl
    | some p =>
      obtain ⟨_, _, byReference⟩ := p
      cases byReference <;> cases output <;> rfl
  obtain ⟨head, hhead⟩ : ∃ head,
      fill call w.toData w.toData (RustView.receiver.take 11) = .ok head := exists_of_isOk rfl
  choose body hbody using fun m => exists_of_isOk (harm m)
  have harms (m : RustView.Method) : fill call w.toData (m.toData w)
      (t "\n            " :: q "Name" :: t " => \x7b" :: arm)
        = .ok ("\n            " ++ (quote m.label ++ (" => \x7b" ++ body m))) :=
    fill_cons (fillNode_t _) (fill_cons (fillNode_q rfl) (fill_cons (fillNode_t _) (hbody m)))
  have hname : w.toData.field "Name" = .ok (.text w.name) := rfl
  have hmethods : w.toData.field "Methods"
      = .ok (.list (w.methods.map (RustView.Method.toData w))) := rfl
  refine ⟨head, body, ?_⟩
  rw [← List.take_append_drop 11 RustView.receiver, hsplit]
  refine (fill_append hhead (fill_cons (fillNode_t _) (fill_cons (fillNode_f hname)
    (fill_cons (fillNode_t _) (fill_cons (fillNode_each hmethods fun m _ => harms m)
      (fill_cons (fillNode_t _) (fill_cons (fillNode_t _) (fill_cons (fillNode_t _)
        (fill_cons (fillNode_t _) (fill_cons (fillNode_f hname) (fill_cons (fillNode_t _)
          (fill_nil call w.toData w.toData)))))))))))).trans ?_
  simp [Receiver.rustText, RustView.Service.receiver, Receiver.inRust, List.flatMap_map]

end

/-! ## §3 Where both languages agree -/

namespace Receiver

variable {α : Type} {service : Bytes} {arms : List (Bytes × α)} {r : Receiver α} {label : Bytes}

theorem mark_ne_nil (service : Bytes) : mark service ≠ [] := by
  rw [mark, Ne, List.append_eq_nil_iff]
  exact fun h => absurd h.2 (by decide)

theorem dot_mem_mark (service : Bytes) : Rpc.dot ∈ mark service :=
  List.mem_append_right service (by decide)

/-- No arm is for a label with a dot. -/
theorem find?_of_dot_mem (h : ∀ a ∈ arms, Rpc.dot ∉ a.1) (hlabel : Rpc.dot ∈ label) :
    arms.find? (·.1 == label) = none := by
  refine List.find?_eq_none.mpr fun a ha heq => h a ha ?_
  rwa [eq_of_beq heq]

/-- A request is refused under its own name if there is a dot in what is left of it. -/
theorem choose_of_dot_mem (h : ∀ a ∈ r.arms, Rpc.dot ∉ a.1) {method : Bytes}
    (hdot : Rpc.dot ∈ r.trim method (mark r.service)) : r.choose method = .unhandled method := by
  have hcontains : (r.trim method (mark r.service)).contains Rpc.dot = true :=
    List.contains_iff_mem.mpr hdot
  simp only [choose, find?_of_dot_mem h hdot, hcontains, if_true]

/-- Otherwise it is handed to an arm, or refused under what is left with the service before it. -/
theorem choose_ne_unhandled {method name : Bytes}
    (hdot : Rpc.dot ∉ r.trim method (mark r.service))
    (hname : name ≠ mark r.service ++ r.trim method (mark r.service)) :
    r.choose method ≠ .unhandled name := by
  have hcontains : (r.trim method (mark r.service)).contains Rpc.dot = false :=
    Bool.eq_false_iff.mpr fun h => hdot (List.contains_iff_mem.mp h)
  simp only [choose, hcontains]
  split
  · nofun
  · intro heq
    exact hname (Choice.unhandled.inj heq).symm

/-- A part that does not occur twice is taken off alike. -/
theorem trimStart_eq_trimStartAll {b p : Bytes} (hp : p ≠ [])
    (h : Bytes.startsWith b (p ++ p) = false) : Bytes.trimStart b p = Bytes.trimStartAll b p := by
  cases hstart : Bytes.startsWith b p with
  | false => rw [Bytes.trimStart_of_not hstart, Bytes.trimStartAll_of_not hstart]
  | true =>
    obtain ⟨r, rfl⟩ := Bytes.exists_of_startsWith hstart
    have hrest : Bytes.startsWith r p = false := by
      refine Bool.eq_false_iff.mpr fun hr => ?_
      obtain ⟨r, rfl⟩ := Bytes.exists_of_startsWith hr
      rw [← List.append_assoc, Bytes.startsWith_append] at h
      cases h
    rw [Bytes.trimStart_of_append, Bytes.trimStartAll_of_append hp,
      Bytes.trimStartAll_of_not hrest]

/-- What becomes of a request depends on what is left of its method. -/
theorem choose_congr {method : Bytes} (h : Bytes.trimStart method (mark service)
    = Bytes.trimStartAll method (mark service)) :
    (inGo service arms).choose method = (inRust service arms).choose method := by
  simp only [choose, inGo, inRust, h]
  rfl

/-- The method of a request begins with the name of the service twice, and no dot is left if it is
taken off as often as it occurs. -/
def Doubled (service method : Bytes) : Prop :=
  Bytes.startsWith method (mark service ++ mark service) = true
    ∧ Rpc.dot ∉ Bytes.trimStartAll method (mark service)

/-- Receivers of one service in Go and in Rust, with labels that have no dot, do the same with a
request unless its method begins with the name of the service twice and has no dot behind those
names. Such a request is refused under its own name in Go. -/
theorem inGo_choose_eq_inRust_iff (h : ∀ a ∈ arms, Rpc.dot ∉ a.1) (method : Bytes) :
    ((inGo service arms).choose method = (inRust service arms).choose method
        ↔ ¬ Doubled service method)
      ∧ (Doubled service method → (inGo service arms).choose method = .unhandled method) := by
  cases hstart : Bytes.startsWith method (mark service ++ mark service) with
  | false =>
    have hnot : ¬ Doubled service method := fun hdoubled => by
      rw [Doubled, hstart] at hdoubled
      cases hdoubled.1
    have heq : (inGo service arms).choose method = (inRust service arms).choose method :=
      choose_congr (trimStart_eq_trimStartAll (mark_ne_nil service) hstart)
    exact ⟨iff_of_true heq hnot, fun hdoubled => absurd hdoubled hnot⟩
  | true =>
    obtain ⟨rest, rfl⟩ := Bytes.exists_of_startsWith hstart
    have hgo : (inGo service arms).choose (mark service ++ mark service ++ rest)
        = .unhandled (mark service ++ mark service ++ rest) := by
      refine choose_of_dot_mem h ?_
      change Rpc.dot ∈ Bytes.trimStart (mark service ++ mark service ++ rest) (mark service)
      rw [List.append_assoc, Bytes.trimStart_of_append]
      exact List.mem_append_left _ (dot_mem_mark service)
    refine ⟨?_, fun _ => hgo⟩
    rw [hgo]
    -- in Rust a dot is left only if there is one behind all of the names
    by_cases hdot : Rpc.dot ∈
        Bytes.trimStartAll (mark service ++ mark service ++ rest) (mark service)
    · have hrust : (inRust service arms).choose (mark service ++ mark service ++ rest)
          = .unhandled (mark service ++ mark service ++ rest) := choose_of_dot_mem h hdot
      exact iff_of_true hrust.symm fun hdoubled => hdoubled.2 hdot
    · -- what is left is shorter by the name of the service at least twice, and gets it back once
      have hrust : (inRust service arms).choose (mark service ++ mark service ++ rest)
          ≠ .unhandled (mark service ++ mark service ++ rest) := by
        refine choose_ne_unhandled hdot fun heq => ?_
        have hlength := congrArg List.length heq
        have hpos := List.length_pos_iff.mpr (mark_ne_nil service)
        have hleft := Bytes.length_trimStartAll_le rest (mark service)
        simp only [inRust, List.append_assoc, Bytes.trimStartAll_of_append (mark_ne_nil service),
          List.length_append] at hlength
        omega
      exact iff_of_false hrust.symm fun hnot => hnot ⟨hstart, hdot⟩

/-- A request with the name of its service twice: it is refused in Go, not so in Rust. -/
theorem inGo_choose_eq_inRust_iff_doubled :
    (∀ a ∈ [(("Get" : Bytes), ())], Rpc.dot ∉ a.1)
      ∧ (inGo "S" [("Get", ())]).choose "S.S.Get" = .unhandled "S.S.Get"
      ∧ (inRust "S" [("Get", ())]).choose "S.S.Get" ≠ .unhandled "S.S.Get" := by
  have hlabels : ∀ a ∈ [(("Get" : Bytes), ())], Rpc.dot ∉ a.1 := by decide
  have hdoubled : Doubled "S" "S.S.Get" := by
    refine ⟨by decide, ?_⟩
    rw [show ("S.S.Get" : Bytes) = mark "S" ++ (mark "S" ++ "Get") by decide,
      Bytes.trimStartAll_of_append (mark_ne_nil "S"),
      Bytes.trimStartAll_of_append (mark_ne_nil "S"), Bytes.trimStartAll_of_not (by decide)]
    decide
  obtain ⟨hiff, hgo⟩ := @inGo_choose_eq_inRust_iff _ "S" _ hlabels "S.S.Get"
  refine ⟨hlabels, hgo hdoubled, fun hrust => hiff.mp ?_ hdoubled⟩
  rw [hgo hdoubled, hrust]

end Receiver

end Idl
