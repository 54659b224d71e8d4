import Cascade.Proofs.Law.Parts
import Cascade.Proofs.Level.Dispatch

/-! # Laws of runs whose trees are those of the family

Something may be said of events: of none, of all that is told beside instructions and changes, and
of more events if it is said of each part. If it is said of the changes that handlers make and of
each instruction when it is performed, it is said of every run that starts with trees of the family.
-/
namespace Cascade

open Declaration (settingsOf)

variable {ι : Type}

/-- Where instructions of the pipeline run on that level: its settings are all that is declared. -/
def Family.site (family : Family ι) (q : ι) (level : Level) : Site ι :=
  ⟨q, settingsOf (family q).declarations, level⟩

/-- The site has the settings of its pipeline, and the instruction is of its tree, as are all below
it. -/
structure Site.Stands (family : Family ι) (site : Site ι) (i : Instruction ι) : Prop where
  site_eq : site = family.site site.pipeline site.level
  has : ∀ j ∈ i.nodes, family.Has site.pipeline j

theorem Site.Stands.deeper {family : Family ι} {site : Site ι} {h : Handler ι} {o : Options}
    {children : List (Instruction ι)} {c : Instruction ι}
    (hs : site.Stands family (.wrap h o children)) (hc : c ∈ children) :
    site.deeper.Stands family c where
  site_eq := congrArg Site.deeper hs.site_eq
  has j hj := hs.has j (by
    rw [Instruction.nodes]
    exact List.mem_cons_of_mem _ (Instruction.mem_nodesOf_of_mem hc hj))

/-- The event tells neither of an instruction that is executed nor of a change. -/
def Event.isAside : Event ι → Bool
  | executing .. | changed _ => false
  | _ => true

structure Telling (ι : Type) where
  Of : List (Event ι) → Prop
  nil : Of []
  append {d e : List (Event ι)} : Of d → Of e → Of (d ++ e)
  aside {e : Event ι} (h : e.isAside = true) : Of [e]

namespace Telling

variable {t : Telling ι}

/-- From a forest that holds the trees of the family, it is said of what is told. -/
def law (t : Telling ι) (family : Family ι) [DecidableEq ι] : Law ι where
  Holds u events v := u.forest.Faithful family → v.forest.Faithful family ∧ t.Of events
  refl _ h := ⟨h,t.nil⟩
  trans hd he h := ⟨(he (hd h).1).1,t.append (hd h).2 (he (hd h).1).2⟩

theorem of_forall {events : List (Event ι)} (h : ∀ e ∈ events, t.Of [e]) : t.Of events := by
  induction events with
  | nil => exact t.nil
  | cons e rest ih =>
    have he := h e List.mem_cons_self
    exact t.append he (ih fun d hd => h d (List.mem_cons_of_mem e hd))

variable [DecidableEq ι] {family : Family ι}

theorem obeys_emit {e : Event ι} (h : e.isAside = true) : (Exec.emit e).Obeys (t.law family) :=
  fun _ hw => ⟨hw,t.aside h⟩

theorem tree_obeys (q : ι) : (family.tree q).Obeys (t.law family) := by
  have hdeclaring : ∀ d ∈ family.declaring q, d.isAside = true :=
    Family.forall_declaring rfl fun _ => rfl
  have hmore : ∀ e : Event ι, e.isAside = true → ∀ d ∈ family.declaring q ++ [e], t.Of [d] :=
    fun e he d hd =>
      t.aside (List.forall_mem_append.2 ⟨hdeclaring,List.forall_mem_singleton.2 he⟩ d hd)
  intro w hw
  cases hc : family.compile q with
  | ok tree =>
    obtain ⟨forest,events,hx,hforest,he⟩ := Family.tree_of_compile hc hw
    rw [hx]
    exact ⟨hforest,of_forall fun e h => hmore (.compiled q) rfl e (he e h)⟩
  | error f =>
    rw [Family.tree_of_flawed hc hw]
    exact ⟨hw,of_forall (hmore (.raised f w.state) rfl)⟩

variable {C : Change → Prop} (hchanged : ∀ c, C c → t.Of [.changed c])
  (hf : ∀ q, (family q).All (Program.ChangesOnly C))
include hchanged

theorem allows : (t.law family).Allows C where
  changed hc _ _ _ hw := ⟨hw,t.of_forall (List.forall_mem_singleton.2 (hchanged _ hc))⟩
  raised _ _ hw := ⟨hw,t.aside rfl⟩

section

variable {launch : Launch ι} (hl : launch.Obeys (t.law family))
include hf hl

theorem act_obeys {site : Site ι} {i : Instruction ι} (hs : site.Stands family i)
    (hc : (site.deeper.traverse family launch [] i.children).Obeys (t.law family)) :
    (site.act family launch i).Obeys (t.law family) := by
  refine site.obeys_act (allows hchanged) hl hf ((hs.has i i.mem_nodes_self).all (hf _)) ?_ hc
  intro result v hv
  rw [Site.conclude_apply]
  exact ⟨hv,t.aside rfl⟩

theorem run_obeys (hperform : ∀ site i, Site.Stands family site i →
      (site.deeper.traverse family launch [] i.children).Obeys (t.law family) →
      (site.perform family launch i).Obeys (t.law family))
    {tree : Tree ι} {q : ι} (hc : family.compile q = .ok tree) (level : Level) :
    (tree.run family launch q level).Obeys (t.law family) := by
  have hsettings : tree.settings = settingsOf (family q).declarations :=
    congrArg Tree.settings ((family.compile_eq_ok_iff q).1 hc).2
  have hroots : ∀ i ∈ tree.roots, Site.Stands family ⟨q, tree.settings, level⟩ i := by
    intro i hi
    refine ⟨?_,fun j hj => ⟨tree,hc,Instruction.mem_nodesOf_of_mem hi hj⟩⟩
    rw [hsettings]
    rfl
  have htraverse := Site.obeys_traverse_of (allows hchanged) (fun _ _ _ hw => ⟨hw,t.aside rfl⟩)
    (Site.Stands family) Site.Stands.deeper hperform ⟨q, tree.settings, level⟩ hroots []
  have hbody : (tree.body family launch q level).Obeys (t.law family) :=
    Family.obeys_body (allows hchanged) hl hf (fun _ _ hw => ⟨hw,t.aside rfl⟩) htraverse
  rw [tree.run_eq]
  exact (obeys_emit rfl).bind fun _ => hbody.bind fun _ =>
    Exec.obeys_state.bind fun s => obeys_emit rfl

end

variable (hperform : ∀ depth, (family.launchWith family.tree depth).Obeys (t.law family) →
  ∀ site i, Site.Stands family site i →
    (site.deeper.traverse family (family.launchWith family.tree depth) [] i.children).Obeys
      (t.law family) →
    (site.perform family (family.launchWith family.tree depth) i).Obeys (t.law family))
include hf hperform

theorem launch_obeys (depth : Nat) : (family.launchWith family.tree depth).Obeys (t.law family) := by
  refine Family.launchWith_obeys_of (allows hchanged) hf (fun _ _ _ hw => ⟨hw,t.aside rfl⟩)
    (fun depth hl q level => ?_) depth
  rw [Family.runWith_eq]
  intro w hw
  refine Exec.ObeysAt.bind (tree_obeys q w) (fun tree v events hx => ?_) hw
  cases hc : family.compile q with
  | ok built =>
    obtain ⟨forest,told,ht,_⟩ := Family.tree_of_compile hc hw
    rw [ht] at hx
    cases hx
    exact run_obeys hchanged hf hl (hperform depth hl) hc level _
  | error f =>
    rw [Family.tree_of_flawed hc hw] at hx
    cases hx

/-- It is said of all that is told in a run. -/
theorem request (depth : Nat) (r : Request ι) {w : World ι} (hw : w.forest.Faithful family) :
    t.Of (r.exec family depth w).events := by
  rw [r.exec_eq]
  exact (r.execBy_holds (launch_obeys hchanged hf hperform depth) w hw).2

end Telling

end Cascade
