import Cascade.Run.Pipeline
import Cascade.Proofs.Recorded.Document

/-! # Runs of recorded trees

A run of a recorded tree ends without a fault. If no line of its document stops it, it records the
document; else it records the document up to the first stop and then the aftermath of the path to it.
-/
namespace Cascade

open Json (Value)

variable {ι α β : Type}

namespace CallLog

def Writable (s : State) : Prop := ∃ calls, entries s = .ok calls

theorem writable_iff {s : State} : Writable s ↔ s.get? "calls" = none ∨
    s.get? "calls" = some .null ∨ ∃ calls, s.get? "calls" = some (.array calls) := by
  unfold Writable entries
  rw [show key.raw = "calls" from rfl]
  split
  · rename_i h
    simp [h]
  · rename_i h
    simp [h]
  · rename_i calls h
    simp [h]
  · rename_i other hnull harray h
    simp only [h, reduceCtorEq, exists_false, Option.some.injEq, false_or, false_iff]
    rintro (rfl | ⟨calls,rfl⟩)
    · exact hnull rfl
    · exact harray calls rfl

/-- In `t` the names are added to the log of `s`, and no other entry differs. -/
structure Adds (s t : State) (names : List String) : Prop where
  log : ∃ calls, entries s = .ok calls ∧ entries t = .ok (calls ++ names.map .string)
  other (k : String) (h : k ≠ key.raw) : t.get? k = s.get? k

theorem Adds.writable {s t : State} {names : List String} (h : Adds s t names) : Writable t := by
  obtain ⟨calls,_,ht⟩ := h.log
  exact ⟨_,ht⟩

theorem Writable.adds {s : State} (h : Writable s) : Adds s s [] := by
  obtain ⟨calls,hs⟩ := h
  exact ⟨⟨calls,hs,by simpa using hs⟩,fun _ _ => rfl⟩

theorem Adds.trans {s t u : State} {a b : List String} (hst : Adds s t a) (htu : Adds t u b) :
    Adds s u (a ++ b) := by
  obtain ⟨calls,hs,ht⟩ := hst.log
  obtain ⟨calls',ht',hu⟩ := htu.log
  rw [ht] at ht'
  cases ht'
  refine ⟨⟨calls,hs,?_⟩,fun k h => (htu.other k h).trans (hst.other k h)⟩
  rw [hu, List.map_append, List.append_assoc]

theorem Adds.fail {s t : State} {names : List String} (h : Adds s t names) :
    Adds s t.fail names := ⟨h.log,h.other⟩

theorem adds_record {s : State} {calls : List Value} (h : entries s = .ok calls) (name : String) :
    Adds s (s.put key (.array (calls ++ [.string name]))) [name] := by
  refine ⟨⟨calls,h,entries_put s _⟩,?_⟩
  intro k hk
  rw [State.get?_put, if_neg fun he => hk he.symm]

end CallLog

namespace Exec

open CallLog (Writable Adds)

/-- From `w` the execution ends with `a`, adds the names to the log and leaves that mark. -/
structure Records (x : Exec ι α) (w : World ι) (a : α) (names : List String) (failed : Bool) :
    Prop where
  result : (x w).result = .ok a
  adds : Adds w.state (x w).world.state names
  mark : (x w).world.state.failed = failed

theorem Records.bind {x : Exec ι α} {f : α → Exec ι β} {w : World ι} {a : α} {b : β}
    {names more : List String} {marked failed : Bool} (hx : x.Records w a names marked)
    (hf : ∀ v : World ι, Writable v.state → v.state.failed = marked →
      (f a).Records v b more failed) : (x >>= f).Records w b (names ++ more) failed := by
  obtain ⟨hr,ha,hm⟩ := hx
  rcases h : x w with ⟨r,v,e⟩
  rw [h] at hr ha hm
  obtain rfl : r = .ok a := hr
  have hv := hf v ha.writable hm
  constructor
  · rw [bind_of_ok h]
    exact hv.result
  · rw [bind_of_ok h]
    exact ha.trans hv.adds
  · rw [bind_of_ok h]
    exact hv.mark

theorem Records.map {x : Exec ι α} {w : World ι} {a : α} {names : List String} {failed : Bool}
    (hx : x.Records w a names failed) (g : α → β) :
    (x >>= fun a => pure (g a)).Records w (g a) names failed := by
  have h : (x >>= fun a => pure (g a)).Records w (g a) (names ++ []) failed :=
    hx.bind fun v hv hm => ⟨rfl,hv.adds,hm⟩
  rwa [List.append_nil] at h

theorem Records.congr {x y : Exec ι α} {w : World ι} {a : α} {names : List String} {failed : Bool}
    (h : x w = y w) (hy : y.Records w a names failed) : x.Records w a names failed := by
  obtain ⟨hr,ha,hm⟩ := hy
  rw [← h] at hr ha hm
  exact ⟨hr,ha,hm⟩

variable {w : World ι} {failed : Bool} (hw : Writable w.state) (hm : w.state.failed = failed)
include hw hm

theorem records_pure (a : α) : (pure a : Exec ι α).Records w a [] failed := ⟨rfl,hw.adds,hm⟩

theorem records_emit (e : Event ι) : (emit e).Records w () [] failed := ⟨rfl,hw.adds,hm⟩

theorem records_successful :
    (state >>= fun s => pure (.bool s.successful) : Exec ι Value).Records w (.bool !failed) []
      failed :=
  ⟨by rw [← hm]; rfl,hw.adds,hm⟩

theorem records_change (name : String) :
    (change (.record name) : Exec ι Unit).Records w () [name] failed := by
  obtain ⟨calls,hc⟩ := hw
  have h : (change (.record name) : Exec ι Unit) w =
      ⟨.ok (), { w with state := w.state.put CallLog.key (.array (calls ++ [.string name])) },
        [.changed (.record name)]⟩ := by
    rw [change_apply, show Change.apply (.record name) w.state = _ from
      CallLog.record_of_entries hc name]
  constructor
  · rw [h]
  · rw [h]
    exact CallLog.adds_record hc name
  · rw [h]
    exact hm

theorem records_failIf (c : Bool) :
    (if c then (do setState (← state).fail) else pure () : Exec ι Unit).Records w () []
      (failed || c) := by
  cases c with
  | true => exact ⟨rfl,hw.adds.fail,by simp [bind_apply]⟩
  | false => exact ⟨rfl,hw.adds,by simpa using hm⟩

end Exec

/-! ## Single instructions -/

variable {family : Family ι} {launch : Launch ι} {site : Site ι} {w : World ι} {failed : Bool}

open CallLog (Writable Adds)

theorem Site.records_announce (hw : Writable w.state) (hm : w.state.failed = failed)
    (i : Instruction ι) : (site.announce family i).Records w () [] failed := by
  have h := site.announce_apply family i w
  exact ⟨by rw [h],by rw [h]; exact hw.adds,by rw [h]; exact hm⟩

variable (family launch site) in
theorem Site.records_dispatch (hw : Writable w.state) (hm : w.state.failed = failed) (role : Role)
    (o : Options) (name : String) (result : Value) :
    (site.dispatch family launch role o (.recordingStep name result)).Records w result [name]
      failed := by
  have hp := (Exec.records_change hw hm name).map fun _ => (result, 0)
  exact hp.map fun r => r.1

/-- A wrap records its name around what its children record. -/
theorem Handler.records_wrap {children : Exec ι Unit} {inner : List String} {left : Bool}
    (hw : Writable w.state) (hm : w.state.failed = failed) (hc : ∀ v : World ι,
      Writable v.state → v.state.failed = failed → children.Records v () inner left)
    (name : String) (o : Options) :
    ((Handler.recordingWrap name true).wrap family launch o children).Records w (.bool true, 1)
      ([name ++ ":enter"] ++ (inner ++ [name ++ ":exit"])) left := by
  refine (Exec.records_change hw hm (name ++ ":enter")).bind fun v hv hm => ?_
  have hnext : (children >>= fun _ => Exec.state >>= fun s =>
      pure (Value.bool s.successful)).Records v (.bool !left) (inner ++ []) left :=
    (hc v hv hm).bind fun u hu hf => Exec.records_successful hu hf
  rw [List.append_nil] at hnext
  refine hnext.bind fun u hu hf => ?_
  exact (Exec.records_change hu hf (name ++ ":exit")).map fun _ => (Value.bool true, 1)

theorem Handler.records_wrap_alone {children : Exec ι Unit} (hw : Writable w.state)
    (hm : w.state.failed = failed) (name : String) (o : Options) :
    ((Handler.recordingWrap name false).wrap family launch o children).Records w (.bool true, 0)
      ([name ++ ":enter"] ++ [name ++ ":exit"]) failed := by
  refine (Exec.records_change hw hm (name ++ ":enter")).bind fun v hv hm => ?_
  exact (Exec.records_change hv hm (name ++ ":exit")).map fun _ => (Value.bool true, 0)

variable (family launch site) in
theorem Site.records_step (hw : Writable w.state) (hm : w.state.failed = failed) (name : String)
    (result : Value) (o : Options) :
    (site.perform family launch (.step (.recordingStep name result) o)).Records w () [name]
      (failed || (!result.truthy && o.fail)) := by
  refine (Site.records_announce hw hm _).bind fun v hv hm => ?_
  have hd := Site.records_dispatch family launch site hv hm .step o name result
  refine hd.bind fun u hu hm => ?_
  refine (Exec.records_emit hu hm _).bind fun t ht hm => ?_
  exact Exec.records_failIf ht hm (!result.truthy && o.fail)

variable (family launch site) in
theorem Site.records_failure (hw : Writable w.state) (hm : w.state.failed = failed)
    (name : String) (result : Value) (o : Options) :
    (site.perform family launch (.failure (.recordingStep name result) o)).Records w () [name]
      failed := by
  refine (Site.records_announce hw hm _).bind fun v hv hm => ?_
  have hd := Site.records_dispatch family launch site hv hm .failure o name result
  exact hd.bind fun u hu hm => Exec.records_emit hu hm _

theorem Site.records_around {children : List (Instruction ι)} {h : Handler ι} {o : Options}
    {r : Value × Nat} {names : List String} {left : Bool} (hw : Writable w.state)
    (hm : w.state.failed = failed) (hh : ∀ v : World ι, Writable v.state →
      v.state.failed = failed → (h.wrap family launch o
        (site.deeper.traverse family launch [] children)).Records v r names left) :
    (site.perform family launch (.wrap h o children)).Records w () names left := by
  have hp : (site.perform family launch (.wrap h o children)).Records w () ([] ++ (names ++ []))
      left := by
    refine (Site.records_announce hw hm _).bind fun v hv hm => ?_
    refine (hh v hv hm).bind fun u hu hm => ?_
    exact Exec.records_emit hu hm _
  rw [List.append_nil] at hp
  exact hp

/-- Without required options an instruction is executed as it is. -/
theorem Site.enact_nil (i : Instruction ι) :
    site.enact family launch [] i = site.perform family launch i := by
  rw [enact_eq]
  cases i <;> rfl

/-! ## Levels -/

theorem Site.records_forM {rs : List Recorded} (hr : ∀ r ∈ rs, r.isFailure = true)
    (hw : Writable w.state) (hm : w.state.failed = failed) :
    ((rs.map Recorded.instruction).forM (site.enact family launch [])).Records w ()
      (rs.map Recorded.name) failed := by
  induction rs generalizing w with
  | nil => exact Exec.records_pure hw hm ()
  | cons r rest ih =>
    have hrest := fun v hv hm => ih (w := v) (fun s hs => hr s (List.mem_cons_of_mem r hs)) hv hm
    cases r with
    | failure name result o =>
      have hp := Site.records_failure family launch site hw hm name result o
      rw [← enact_nil] at hp
      exact hp.bind hrest
    | _ => cases hr _ List.mem_cons_self

/-- On a level that is failed, what is left takes over. -/
theorem Site.records_takeover (hw : Writable w.state) (hm : w.state.failed = true)
    (remaining : List Recorded) :
    (site.traverse family launch [] (Recorded.instructions remaining)).Records w ()
      (Recorded.takeover remaining) true := by
  cases remaining with
  | nil => exact Exec.records_pure hw hm ()
  | cons r rest =>
    have hc : (site.cascade family launch []
        (Recorded.instructions (r :: rest))).Records w () (Recorded.takeover (r :: rest)) true := by
      rw [cascade_eq, Recorded.cascade_instructions]
      refine (Exec.records_emit hw hm _).bind fun v hv hm => records_forM ?_ hv hm
      intro s hs
      exact (List.mem_filter.1 (mem_of_mem_upThrough hs)).2
    refine Exec.Records.congr ?_ hc
    rw [Recorded.instructions, traverse_cons, if_pos hm]

theorem Tree.run_of_entry_eq_none {q : ι} (h : (family q).entry = none) (tree : Tree ι)
    (level : Level) : tree.run family launch q level = (do
      Exec.emit (.started q level)
      Site.traverse family launch ⟨q, tree.settings, level⟩ [] tree.roots
      Exec.emit (.finished q level (← Exec.state).successful)) := by
  unfold Tree.run
  rw [h]

namespace Recorded

/-- Executed in a state that is not failed, the instruction records what is told of it. -/
def RecordsTold (family : Family ι) (launch : Launch ι) (r : Recorded) : Prop :=
  ∀ (site : Site ι) (n : Nat) (w : World ι), Writable w.state → w.state.failed = false →
    (site.execute family launch [] r.instruction).Records w [] (r.toldAt n)
      (firstStop (r.lines n)).isSome

/-- A level records what is told of it if its instructions do, by induction on what is left. -/
theorem records_level (pre : List Recorded) {rest : List Recorded}
    (hr : ∀ r ∈ rest, RecordsTold family launch r)
    (hw : Writable w.state) (hm : w.state.failed = false) :
    (site.traverse family launch [] (instructions rest)).Records w ()
      (told (pre ++ rest) (linesFrom pre.length rest))
      (firstStop (linesFrom pre.length rest)).isSome := by
  -- Positions count from the start of the level, so what is passed moves over to `pre`.
  induction rest generalizing pre w with
  | nil => exact Exec.records_pure hw hm ()
  | cons r rest ih =>
    have hi := hr r List.mem_cons_self site pre.length w hw hm
    have hcons : site.traverse family launch [] (instructions (r :: rest)) w =
        (site.execute family launch [] r.instruction >>= fun keys =>
          site.traverse family launch keys (instructions rest)) w := by
      rw [instructions, Site.traverse_cons, if_neg (by simp [hm])]
    refine Exec.Records.congr hcons ?_
    cases h : firstStop (r.lines pre.length) with
    | none =>
      have hs : firstStop (linesFrom pre.length (r :: rest)) =
          firstStop (linesFrom (pre.length + 1) rest) := by
        rw [linesFrom, firstStop_append, h, Option.none_or]
      rw [told_cons_of_none h, hs]
      rw [h] at hi
      refine hi.bind fun v hv hm => ?_
      have hv := ih (pre ++ [r]) (fun s hs => hr s (List.mem_cons_of_mem r hs)) hv hm
      rw [List.append_assoc, List.length_append] at hv
      exact hv
    | some path =>
      have hs : firstStop (linesFrom pre.length (r :: rest)) = some path := by
        rw [linesFrom, firstStop_append, h, Option.some_or]
      rw [told_cons_of_some h, hs]
      rw [h] at hi
      exact hi.bind fun v hv hm => Site.records_takeover hv hm rest

theorem recordsTold (r : Recorded) : RecordsTold family launch r := by
  induction r using Recorded.induction with
  | step name result o =>
    intro site n w hw hm
    have hp := (Site.records_step family launch site hw hm name result o).map fun _ =>
      ([] : List Key)
    rw [instruction, Site.execute_of_not_isFailure family launch site rfl, Site.enact_nil,
      toldAt_step, firstStop_step]
    rw [Bool.false_or] at hp
    cases h : !result.truthy && o.fail with
    | true =>
      rw [h] at hp
      exact hp
    | false =>
      rw [h] at hp
      exact hp
  | failure name result o =>
    intro site n w hw hm
    exact Exec.records_pure hw hm []
  | wrap name runChildren o children ih =>
    intro site n w hw hm
    rw [instruction, Site.execute_of_not_isFailure family launch site rfl, Site.enact_nil]
    cases runChildren with
    | true =>
      rw [toldAt_wrap, firstStop_wrap, Option.isSome_map]
      refine (Site.records_around (r := (.bool true, 1)) hw hm fun v hv hm => ?_).map fun _ => []
      exact Handler.records_wrap hv hm (fun u hu hf => records_level [] ih hu hf) name o
    | false =>
      refine (Site.records_around (r := (.bool true, 0)) hw hm fun v hv hm => ?_).map fun _ => []
      exact Handler.records_wrap_alone hv hm name o

/-! ## Whole runs -/

/-- What a run from `s` comes to: with no stop in the document the state is successful and the log
has got the document, else the state is failed and the log has got what the path to the stop says. -/
def Follows (plan : List Recorded) (s : State) (out : Outcome ι Unit) : Prop :=
  out.result = .ok () ∧
    match firstStop (document plan) with
    | none => out.world.state.failed = false ∧
        Adds s out.world.state ((document plan).map Line.text)
    | some path => out.world.state.failed = true ∧
        Adds s out.world.state (upToStop (document plan) ++ aftermath path plan)

theorem follows_of_records {plan : List Recorded} {x : Exec ι Unit}
    (h : x.Records w () (told plan (document plan)) (firstStop (document plan)).isSome) :
    Follows plan w.state (x w) := by
  refine ⟨h.result,?_⟩
  have ha := h.adds
  have hm := h.mark
  unfold told at ha
  cases hs : firstStop (document plan) with
  | none =>
    rw [hs, Option.map_none, Option.getD_none, List.append_nil, upToStop_of_none hs] at ha
    rw [hs] at hm
    exact ⟨hm,ha⟩
  | some path =>
    rw [hs] at ha hm
    exact ⟨hm,ha⟩

theorem records_run {plan : List Recorded} {q : ι} (hentry : (family q).entry = none)
    (hw : Writable w.state) (hm : w.state.failed = false) (level : Level) (settings : Settings ι) :
    ((Tree.mk (instructions plan) settings).run family launch q level).Records w ()
      (told plan (document plan)) (firstStop (document plan)).isSome := by
  have hrun : ((Tree.mk (instructions plan) settings).run family launch q level).Records w ()
      ([] ++ (told plan (document plan) ++ [])) (firstStop (document plan)).isSome := by
    rw [Tree.run_of_entry_eq_none hentry]
    refine (Exec.records_emit hw hm _).bind fun v hv hm => ?_
    refine (records_level [] (fun r _ => recordsTold r) hv hm).bind fun u hu hm => ?_
    have hf := Exec.records_emit hu hm (.finished q level u.state.successful)
    refine Exec.Records.congr ?_ hf
    rfl
  rwa [List.nil_append, List.append_nil] at hrun

/-- From a state that is not failed and whose log can be written to, a recorded tree runs as its
document says: as a level at any place, and as the tree of a pipeline without an entry. -/
theorem follows_document (plan : List Recorded) (hm : w.state.failed = false)
    (hc : w.state.get? "calls" = none ∨ w.state.get? "calls" = some .null ∨
      ∃ calls, w.state.get? "calls" = some (.array calls)) :
    (∀ site : Site ι,
      Follows plan w.state (site.traverse family launch [] (instructions plan) w)) ∧
    ∀ q level settings, (family q).entry = none →
      Follows plan w.state ((Tree.mk (instructions plan) settings).run family launch q level w) := by
  have hw : Writable w.state := CallLog.writable_iff.2 hc
  constructor
  · intro site
    exact follows_of_records (records_level [] (fun r _ => recordsTold r) hw hm)
  · intro q level settings hentry
    exact follows_of_records (records_run hentry hw hm level settings)

/-- A step two levels down stops the run. On its own level one failure handler stops the cascade
before another, and that does not keep those of the outer level from running. -/
def nested : List Recorded :=
  [failure "early" .null .empty, step "first" (.bool false) (.ofList [("fail", .bool false)]),
    wrap "outer" true .empty
      [wrap "closed" false .empty [step "hidden" .null .empty], step "fatal" .null .empty,
        step "after" (.bool false) .empty,
        failure "near" .null (.ofList [("fail_fast", .bool true)]), failure "cut" .null .empty],
    step "last" (.bool true) .empty, failure "far" (.bool true) .empty]

theorem follows_document_nested :
    firstStop (document nested) = some [2, 1] ∧
    upToStop (document nested) ++ aftermath [2, 1] nested =
      ["first", "outer:enter", "closed:enter", "closed:exit", "fatal", "near", "outer:exit",
        "far"] ∧
    Follows nested .empty ((Tree.mk (instructions nested) {}).run (fun _ : Unit => ⟨"p", [], none,
      none⟩) ⟨fun _ _ => Exec.tooDeep, fun _ _ _ => Exec.tooDeep⟩ () 0 {}) := by
  refine ⟨rfl,rfl,?_⟩
  exact (follows_document nested rfl (Or.inl rfl)).2 () 0 {} rfl

end Recorded

end Cascade
