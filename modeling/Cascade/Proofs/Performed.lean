import Cascade.Proofs.Law.Trees

/-! # What is executed is performed

Where a run tells that an instruction is executed, what it tells from there on begins with all that
performing the instruction tells: in the state that is shown, on the level that is shown, and with
the settings that are declared for the pipeline. So what holds of an instruction by itself holds of
it wherever a run comes to it.
-/
namespace Cascade

variable {ι : Type} [DecidableEq ι] {family : Family ι}

/-- The instruction is of the tree of its pipeline, and the events begin with what it tells when it
is performed. -/
structure Family.Performs (family : Family ι) (q : ι) (level : Level) (i : Instruction ι)
    (s : State) (events : List (Event ι)) : Prop where
  has : family.Has q i
  performed : ∃ depth v, v.state = s ∧ v.forest.Faithful family ∧
    ((family.site q level).perform family (family.launchWith family.tree depth) i v).events <+:
      events

/-- First it is announced, and then it acts. -/
theorem Family.Performs.exists_act {q : ι} {level : Level} {i : Instruction ι} {s : State}
    {events : List (Event ι)} (h : family.Performs q level i s events) :
    ∃ depth v more, v.state = s ∧ v.forest.Faithful family ∧
      events = (family.site q level).announcement family i s ++
        (((family.site q level).act family (family.launchWith family.tree depth) i v).events ++
          more) := by
  obtain ⟨_,depth,v,rfl,hv,more,rfl⟩ := h
  rw [Site.perform_apply]
  exact ⟨depth,v,more,rfl,hv,List.append_assoc _ _ _⟩

def Event.Performed (family : Family ι) (rest : List (Event ι)) : Event ι → Prop
  | executing q level i s => family.Performs q level i s (executing q level i s :: rest)
  | _ => True

/-- Every instruction that is executed is performed. -/
def Performed (family : Family ι) : List (Event ι) → Prop
  | [] => True
  | e :: rest => e.Performed family rest ∧ Performed family rest

theorem Event.Performed.append {e : Event ι} {rest : List (Event ι)}
    (h : e.Performed family rest) (more : List (Event ι)) : e.Performed family (rest ++ more) := by
  cases e with
  | executing q level i s =>
    obtain ⟨hi,depth,v,hv,hf,hp⟩ := h
    exact ⟨hi,depth,v,hv,hf,hp.trans (List.prefix_append _ more)⟩
  | _ => trivial

namespace Performed

theorem append {d e : List (Event ι)} (hd : Performed family d) (he : Performed family e) :
    Performed family (d ++ e) := by
  induction d with
  | nil => exact he
  | cons a rest ih => exact ⟨hd.1.append e,ih hd.2⟩

theorem of_append {before events : List (Event ι)} (h : Performed family (before ++ events)) :
    Performed family events := by
  induction before with
  | nil => exact h
  | cons a rest ih => exact ih h.2

end Performed

def performedTelling (family : Family ι) : Telling ι where
  Of := Performed family
  nil := trivial
  append := .append
  aside {e} h := by
    cases e with
    | executing _ _ _ _ => cases h
    | _ => exact ⟨trivial,trivial⟩

theorem performedTelling_changed (c : Change) : (performedTelling family).Of [.changed c] :=
  ⟨trivial,trivial⟩

/-- Performing an instruction tells first that it is executed, and then all the rest of it. -/
theorem Site.performed_perform {depth : Nat}
    (hl : (family.launchWith family.tree depth).Obeys ((performedTelling family).law family))
    {site : Site ι} {i : Instruction ι} (hs : site.Stands family i)
    (hc : (site.deeper.traverse family (family.launchWith family.tree depth) [] i.children).Obeys
      ((performedTelling family).law family)) :
    (site.perform family (family.launchWith family.tree depth) i).Obeys
      ((performedTelling family).law family) := by
  intro w hw
  have hact := Telling.act_obeys (fun c _ => performedTelling_changed c) family.changesOnly hl hs
    hc w hw
  have hnoted : Performed family (if site.settings.debug then
      [Event.logged site.settings.logger (site.record family i w.state)] else []) := by
    split
    · exact ⟨trivial,trivial⟩
    · trivial
  rw [site.perform_apply]
  refine ⟨hact.1,⟨hs.has i i.mem_nodes_self,depth,w,rfl,hw,?_⟩,hnoted.append hact.2⟩
  rw [← hs.site_eq, site.perform_apply]
  exact List.prefix_rfl

/-- In every run each instruction that is executed is performed. -/
theorem Request.performed (family : Family ι) (depth : Nat) (r : Request ι) {w : World ι}
    (hw : w.forest.Faithful family) {before after : List (Event ι)} {q : ι} {level : Level}
    {i : Instruction ι} {s : State}
    (h : (r.exec family depth w).events = before ++ .executing q level i s :: after) :
    family.Performs q level i s (.executing q level i s :: after) := by
  have hall : Performed family (r.exec family depth w).events :=
    Telling.request (fun c _ => performedTelling_changed c) family.changesOnly
      (fun _ hl _ _ hs hc => Site.performed_perform hl hs hc) depth r hw
  rw [h] at hall
  exact hall.of_append.1

end Cascade
