import Cascade.Proofs.Law.Trees
import Cascade.Proofs.Printable
import Cascade.Proofs.Traced.Records

/-! # Records are lines

The record of an instruction is shown as one line of its level, whatever the options and the state
hold: it is broken only if the name of the handler is. Its level is told by the blanks that it
starts with, two for each level, since something else follows them.
-/
namespace Cascade

open Trace (Record)

variable {ι : Type}

/-- There is no line feed and no carriage return. -/
def Unbroken (cs : List Char) : Prop := ∀ c ∈ cs, c ≠ '\n' ∧ c ≠ '\r'

theorem Printable.unbroken {cs : List Char} (h : Printable cs) : Unbroken cs := by
  intro c hc
  have hlow := h c hc
  constructor <;> rintro rfl <;> exact absurd hlow (by decide)

theorem unbroken_append {cs ds : List Char} :
    Unbroken (cs ++ ds) ↔ Unbroken cs ∧ Unbroken ds := List.forall_mem_append

namespace Trace.Record

/-- The level that is read off the blanks at the start of a line. -/
def levelShown (line : String) : Nat := (line.toList.takeWhile (· = ' ')).length / 2

/-- The text starts with two blanks for each level, and then tells what is executed. -/
structure Indented (r : Record) : Prop where
  starts : ∃ more, r.render.toList =
    List.replicate (2 * r.level.toNat) ' ' ++ ("-> Execute type=".toList ++ more)
  level_eq : levelShown r.render = r.level.toNat

theorem toList_render (r : Record) : r.render.toList =
    (List.replicate (2 * r.level.toNat) ' ' ++ ("-> ".toList ++ (r.message.toList ++
      (" type=".toList ++ (r.kind.toList ++ " handler=".toList))))) ++ (r.handler.toList ++ (" options=".toList ++
        (r.options.toList ++ (" state=".toList ++ r.state.toList)))) := by
  simp only [render, indentation, String.toList_append, String.toList_ofList, List.append_assoc]

theorem indented_of_message {r : Record} (h : r.message = "Execute") : r.Indented := by
  have hstarts : ∃ more, r.render.toList =
      List.replicate (2 * r.level.toNat) ' ' ++ ("-> Execute type=".toList ++ more) := by
    rw [toList_render, h, List.append_assoc]
    exact ⟨_,congrArg _ (by simp only [List.append_assoc]; rfl)⟩
  have hblanks : ∀ c ∈ List.replicate (2 * r.level.toNat) ' ', decide (c = ' ') = true :=
    fun c hc => decide_eq_true (List.eq_of_mem_replicate hc)
  refine ⟨hstarts,?_⟩
  obtain ⟨more,hmore⟩ := hstarts
  have harrow : ("-> Execute type=".toList ++ more).takeWhile (· = ' ') = [] := rfl
  rw [levelShown, hmore, List.takeWhile_append_of_pos hblanks, harrow, List.append_nil,
    List.length_replicate]
  omega

end Trace.Record

variable {family : Family ι}

/-- All but the name of the handler is printable. -/
theorem Site.unbroken_record_iff (site : Site ι) (i : Instruction ι) (s : State) :
    Unbroken (site.record family i s).render.toList ↔
      Unbroken (i.handler.name family.signature).toList := by
  have hfixed : ∀ text ∈ ["-> ", "Execute", " type=", " handler=", " options=", " state=", "step",
      "failure", "wrap", "depend"], Printable text.toList := by decide
  have hkind : Printable i.kind.toList := by
    refine hfixed i.kind ?_
    cases i <;> simp [Instruction.kind]
  have hvalue : ∀ v : Json.Value, Printable v.text.toList := by
    intro v
    rw [Json.Value.text, String.toList_ofList]
    exact v.printable_chars
  have hblanks : Printable (List.replicate (2 * site.level.toNat) ' ') := .replicate (by decide) _
  have hbefore := hblanks.append ((hfixed "-> " (by simp)).append
    ((hfixed "Execute" (by simp)).append ((hfixed " type=" (by simp)).append
      (hkind.append (hfixed " handler=" (by simp))))))
  have hbehind := (hfixed " options=" (by simp)).append ((hvalue i.options.value).append
    ((hfixed " state=" (by simp)).append (hvalue s.value)))
  rw [Record.toList_render]
  exact ⟨fun h => (unbroken_append.1 (unbroken_append.1 h).2).1,fun h =>
    unbroken_append.2 ⟨hbefore.unbroken,unbroken_append.2 ⟨h,hbehind.unbroken⟩⟩⟩

/-- What is recorded is the record of an instruction that is executed on that level. -/
theorem Recording.exists_executing {events : List (Event ι)} (h : Recording family events)
    {logger : Trace.Logger} {r : Record} (hr : .logged logger r ∈ events) :
    ∃ q i s, .executing q r.level i s ∈ events ∧
      r = (family.site q r.level).record family i s := by
  unfold Recording at h
  rw [h] at hr
  obtain ⟨e,he,hr⟩ := List.mem_flatMap.1 hr
  obtain ⟨hmem,hl⟩ := List.mem_filter.1 he
  rcases List.mem_cons.1 hr with rfl | hr
  · cases hl
  cases e with
  | executing q level i s =>
    unfold Event.records at hr
    dsimp only at hr
    split at hr
    · split at hr
      · cases List.mem_singleton.1 hr
        exact ⟨q,i,s,hmem,rfl⟩
      · cases hr
    · cases hr
  | _ => cases hr

theorem Event.eq_logged_of_collected? {e : Event ι} {id : String} {r : Record}
    (h : e.collected? = some (id, r)) : e = .logged (.collector id) r := by
  cases e with
  | logged logger r =>
    cases logger <;> cases h
    rfl
  | _ => cases h

/-- Every record that a session makes is that of an instruction executed on its level, whatever its
options are and whatever state it is executed in. It is shown with two blanks for each level and
then what is executed, so that the level can be told from the text; and it is shown as one line
unless the name of the handler is broken itself. -/
theorem session_lines [DecidableEq ι] (family : Family ι) :
    (∀ (site : Site ι) i s, (site.record family i s).level = site.level ∧
      (site.record family i s).Indented ∧
      (Unbroken (site.record family i s).render.toList ↔
        Unbroken (i.handler.name family.signature).toList)) ∧
    ∀ depth turns w, w.forest.Faithful family → ∀ out ∈ session family depth turns w,
      ∀ logger r, .logged logger r ∈ out.events → r.Indented ∧
        (Unbroken r.handler.toList → Unbroken r.render.toList) ∧
        ∃ q i s, .executing q r.level i s ∈ out.events ∧
          r = (family.site q r.level).record family i s := by
  have hsite : ∀ (site : Site ι) i s, (site.record family i s).level = site.level ∧
      (site.record family i s).Indented ∧
      (Unbroken (site.record family i s).render.toList ↔
        Unbroken (i.handler.name family.signature).toList) :=
    fun site i s => ⟨rfl,Record.indented_of_message rfl,site.unbroken_record_iff i s⟩
  refine ⟨hsite,fun depth turns w hw out hout logger r hr => ?_⟩
  obtain ⟨q,i,s,he,hrecord⟩ := (session_recording depth turns hw out hout).exists_executing hr
  obtain ⟨_,hindented,hunbroken⟩ := hsite (family.site q r.level) i s
  rw [← hrecord] at hindented hunbroken
  refine ⟨hindented,fun h => hunbroken.2 ?_,q,i,s,he,hrecord⟩
  rw [hrecord] at h
  exact h

/-- A wrap that writes line ends to the state, as a key and as a value, around a step with line ends
in its options. -/
def scribbling : Family Unit := fun _ =>
  { name := "scribble"
    declarations := [.debug true, .logger (.collector "log"),
      .wrap (.around (.change (.set "x" (.object [("a\n", .string "\r\n  -> ")]))
          (.call .next .done))) .empty
        [.step (.function (.done .null)) (.ofList [("\r", .array [.string "\n", .null])])]] }

theorem session_lines_scribbled :
    let turns : List (Turn Unit) := [.request id (.run () 1)]
    let out := Turn.exec scribbling 1 {} (.request id (.run () 1))
    let step : Instruction Unit := .step (.function (.done .null))
      (.ofList [("\r", .array [.string "\n", .null])])
    let s := State.empty.put ⟨"x", rfl⟩ (.object [("a\n", .string "\r\n  -> ")])
    let r := (scribbling.site () 2).record scribbling step s
    out ∈ session scribbling 1 turns {} ∧ .logged (.collector "log") r ∈ out.events ∧
    Unbroken r.handler.toList ∧ r.options = "\x7b\"\\r\":[\"\\n\",null]\x7d" ∧
    Unbroken r.render.toList ∧ Record.levelShown r.render = 2 := by
  intro turns out step s r
  have hout : out ∈ session scribbling 1 turns {} := List.mem_singleton_self out
  have hcollected : ("log", r) ∈ out.events.filterMap Event.collected? := by decide +kernel
  obtain ⟨e,he,hlog⟩ := List.mem_filterMap.1 hcollected
  have hr : .logged (.collector "log") r ∈ out.events := Event.eq_logged_of_collected? hlog ▸ he
  have hname : Unbroken r.handler.toList := Printable.unbroken (by decide)
  obtain ⟨hindented,hunbroken,_⟩ :=
    (session_lines scribbling).2 1 turns {} Forest.faithful_nil out hout (.collector "log") r hr
  exact ⟨hout,hr,hname,by decide +kernel,hunbroken hname,hindented.level_eq⟩

end Cascade
