import Cascade.Run.Pipeline
import Cascade.Proofs.Level.Split

/-! # Keys in force on a level

A gate on options asks its keys of the steps and failure handlers that come after it in the same
traversal of its level, until the next such gate is executed. So the keys in force are told by what
the traversal has executed before, and each traversal starts with none.
-/
namespace Cascade

open Json (Value)

variable {ι : Type}

/-- The option is there and is not `null`. -/
def Options.Has (o : Options) (key : Key) : Prop := ∃ v, o.get? key.raw = some v ∧ v ≠ .null

theorem Options.contains_iff {o : Options} {key : Key} : o.contains key.raw = true ↔ o.Has key := by
  unfold contains Has
  cases o.get? key.raw with
  | none => simp
  | some v => simp [← Value.isNull_iff]

namespace Instruction

/-- Steps and failure handlers need all the keys among their options, wraps and gates none. -/
def Meets (required : List Key) (i : Instruction ι) : Prop :=
  i.isStep = true ∨ i.isFailure = true → ∀ key ∈ required, i.options.Has key

/-- A step or failure handler does not have `key`, the first such key of those required. -/
def Lacks (required : List Key) (i : Instruction ι) (key : Key) : Prop :=
  (i.isStep = true ∨ i.isFailure = true) ∧ ∃ before after, required = before ++ key :: after ∧
    (∀ k ∈ before, i.options.Has k) ∧ ¬ i.options.Has key

def optionKeys? : Instruction ι → Option (List Key)
  | gate g => if g.category = .options then some g.keys else none
  | _ => none

/-- The keys of the last gate on options among what is executed, none if there is no such gate. -/
def inForce (executed : List (Instruction ι)) : List Key :=
  ((executed.filterMap optionKeys?).getLast?).getD []

theorem lacking?_of_leaf {i : Instruction ι} (hi : i.isStep = true ∨ i.isFailure = true)
    (required : List Key) : i.lacking? required = i.options.lacking? required := by
  cases i with
  | step h o => rfl
  | failure h o => rfl
  | wrap h o children => simp [isStep, isFailure] at hi
  | gate g => simp [isStep, isFailure] at hi

theorem lacking?_of_not_leaf {i : Instruction ι} (hi : ¬ (i.isStep = true ∨ i.isFailure = true))
    (required : List Key) : i.lacking? required = none := by
  cases i with
  | step h o => exact absurd (Or.inl rfl) hi
  | failure h o => exact absurd (Or.inr rfl) hi
  | wrap h o children => rfl
  | gate g => rfl

theorem meets_iff {required : List Key} {i : Instruction ι} :
    i.Meets required ↔ i.lacking? required = none := by
  unfold Meets
  by_cases hi : i.isStep = true ∨ i.isFailure = true
  · rw [lacking?_of_leaf hi, Options.lacking?, List.find?_eq_none]
    simp [hi, ← Options.contains_iff]
  · simp [hi, lacking?_of_not_leaf hi]

theorem lacks_iff {required : List Key} {i : Instruction ι} {key : Key} :
    i.Lacks required key ↔ i.lacking? required = some key := by
  unfold Lacks
  by_cases hi : i.isStep = true ∨ i.isFailure = true
  · rw [lacking?_of_leaf hi, Options.lacking?, List.find?_eq_some_iff_append]
    simp only [hi, true_and, ← Options.contains_iff, Bool.not_eq_true, Bool.not_eq_true',
      Bool.not_not]
    constructor
    · rintro ⟨before,after,hr,hb,hkey⟩
      exact ⟨hkey,before,after,hr,hb⟩
    · rintro ⟨hkey,before,after,hr,hb⟩
      exact ⟨before,after,hr,hb,hkey⟩
  · simp [hi, lacking?_of_not_leaf hi]

theorem Meets.not_lacks {required : List Key} {i : Instruction ι} {key : Key}
    (hm : i.Meets required) : ¬ i.Lacks required key := by
  intro hl
  cases (meets_iff.1 hm).symm.trans (lacks_iff.1 hl)

/-- Only a gate on options changes the keys in force. -/
theorem inForce_append (executed : List (Instruction ι)) (i : Instruction ι) :
    inForce (executed ++ [i]) = i.requiredAfter (inForce executed) := by
  unfold inForce
  rw [List.filterMap_append]
  cases i with
  | gate g =>
    by_cases hg : g.category = .options <;>
      simp [optionKeys?, requiredAfter, Gate.requiredAfter, hg]
  | _ => simp [optionKeys?, requiredAfter]

example (h : Handler Unit) (a b : Key) :
    inForce [.gate ⟨.options, [a]⟩, .step h .empty, .gate ⟨.state, [b]⟩] = [a] := rfl

end Instruction

open Instruction (inForce inForce_append)

namespace Site

variable (family : Family ι) (launch : Launch ι) (site : Site ι)

/-- Instructions that are due are executed one after the other, each if it meets the keys in force
at that time; only failure handlers may start in a failed state. The first that does not meet the
keys is refused before anything of it happens. -/
inductive Progress : List (Instruction ι) → List (Instruction ι) → World ι → Outcome ι Unit →
    Prop where
  | done {executed : List (Instruction ι)} {w : World ι} : Progress executed [] w ⟨.ok (), w, []⟩
  | executed {executed due : List (Instruction ι)} {i : Instruction ι} {w v u : World ι}
    {events later : List (Event ι)} {result : Except Halt Unit}
    (hw : i.isFailure = false → w.state.failed = false) (hm : i.Meets (inForce executed))
    (h : site.perform family launch i w = ⟨.ok (), v, events⟩)
    (hrest : Progress (executed ++ [i]) due v ⟨result, u, later⟩) :
    Progress executed (i :: due) w ⟨result, u, events ++ later⟩
  | halted {executed due : List (Instruction ι)} {i : Instruction ι} {w v : World ι}
    {events : List (Event ι)} {halt : Halt}
    (hw : i.isFailure = false → w.state.failed = false) (hm : i.Meets (inForce executed))
    (h : site.perform family launch i w = ⟨.error halt, v, events⟩) :
    Progress executed (i :: due) w ⟨.error halt, v, events⟩
  | refused {executed due : List (Instruction ι)} {i : Instruction ι} {w : World ι} {key : Key}
    (hw : i.isFailure = false → w.state.failed = false) (hl : i.Lacks (inForce executed) key) :
    Progress executed (i :: due) w ⟨.error (.fault (.missingOption key.raw i.options.text)), w,
      [.raised (.missingOption key.raw i.options.text) w.state]⟩

/-- A traversal either goes through its level, or it goes over to the failure handlers at the split;
these have to meet the keys in force there. -/
inductive Course (executed is : List (Instruction ι)) (w : World ι) : Outcome ι Unit → Prop where
  | through {out : Outcome ι Unit}
    (h : Progress family launch site executed (is.filter fun i => !i.isFailure) w out)
    (hs : out.result = .ok () →
      SplitsAt family launch site (inForce executed) is w is.length) :
    Course executed is w out
  | handover {k : Nat} {events later : List (Event ι)} {u : World ι} {result : Except Halt Unit}
    (hk : k < is.length)
    (hs : SplitsAt family launch site (inForce executed) is w k)
    (hpassed : Progress family launch site executed ((is.take k).filter fun i => !i.isFailure) w
      ⟨.ok (), worldBefore family launch site (inForce executed) is w k, events⟩)
    (hhandled : Progress family launch site (executed ++ (is.take k).filter fun i => !i.isFailure)
      (Instruction.cascade (is.drop k)) (worldBefore family launch site (inForce executed) is w k)
      ⟨result, u, later⟩) :
    Course executed is w ⟨result, u, events ++ .cascading site.pipeline site.level :: later⟩

theorem progress_of_enact (executed : List (Instruction ι)) {i : Instruction ι} {w : World ι}
    (hw : i.isFailure = false → w.state.failed = false) :
    (∃ halt v events, site.enact family launch (inForce executed) i w =
        ⟨.error halt, v, events⟩ ∧
      ∀ due, Progress family launch site executed (i :: due) w ⟨.error halt, v, events⟩) ∨
    ∃ v events, site.enact family launch (inForce executed) i w = ⟨.ok (), v, events⟩ ∧
      ∀ due out, Progress family launch site (executed ++ [i]) due v out →
        Progress family launch site executed (i :: due) w
          ⟨out.result, out.world, events ++ out.events⟩ := by
  rw [enact_eq]
  cases hl : i.lacking? (inForce executed) with
  | some key =>
    exact Or.inl ⟨_,_,_,rfl,fun due => .refused hw (Instruction.lacks_iff.2 hl)⟩
  | none =>
    have hm := Instruction.meets_iff.2 hl
    rcases h : site.perform family launch i w with ⟨halt | _,v,events⟩
    · exact Or.inl ⟨halt,v,events,h,fun due => .halted hw hm h⟩
    · exact Or.inr ⟨v,events,h,fun due out hrest => .executed hw hm h hrest⟩

/-- Failure handlers leave the keys as they are. -/
theorem progress_of_forM {is : List (Instruction ι)} (hi : ∀ i ∈ is, i.isFailure = true)
    (executed : List (Instruction ι)) (w : World ι) :
    Progress family launch site executed is w
      (is.forM (site.enact family launch (inForce executed)) w) := by
  induction is generalizing executed w with
  | nil => exact .done
  | cons i rest ih =>
    have hfailure : i.isFailure = true := hi i List.mem_cons_self
    have hkeys : inForce (executed ++ [i]) = inForce executed := by
      rw [inForce_append]
      cases i with
      | failure h o => rfl
      | _ => cases hfailure
    have hw : i.isFailure = false → w.state.failed = false := by simp [hfailure]
    rcases site.progress_of_enact family launch executed hw with
      ⟨halt,v,events,h,hp⟩ | ⟨v,events,h,hp⟩
    · have hout : (i :: rest).forM (site.enact family launch (inForce executed)) w =
          ⟨.error halt, v, events⟩ := Exec.bind_of_error h
      rw [hout]
      exact hp rest
    · have hrest := ih (fun j hj => hi j (List.mem_cons_of_mem i hj)) (executed ++ [i]) v
      rw [hkeys] at hrest
      have hout : (i :: rest).forM (site.enact family launch (inForce executed)) w =
          ⟨(rest.forM (site.enact family launch (inForce executed)) v).result,
            (rest.forM (site.enact family launch (inForce executed)) v).world,
            events ++ (rest.forM (site.enact family launch (inForce executed)) v).events⟩ :=
        Exec.bind_of_ok h
      rw [hout]
      exact hp rest _ hrest

variable {family launch site}

/-- A failure handler before the split is passed over. -/
theorem Course.skip {executed rest : List (Instruction ι)} {i : Instruction ι} {w : World ι}
    {out : Outcome ι Unit} (hi : i.isFailure = true) (hw : w.state.failed = false)
    (h : Course family launch site executed rest w out) :
    Course family launch site executed (i :: rest) w out := by
  have he : site.execute family launch (inForce executed) i w =
      ⟨.ok (inForce executed), w, []⟩ := by
    rw [execute_of_isFailure family launch site hi]
    rfl
  have hfilter : ∀ is : List (Instruction ι),
      ((i :: is).filter fun i => !i.isFailure) = is.filter fun i => !i.isFailure :=
    fun is => List.filter_cons_of_neg (by simp [hi])
  cases h with
  | through hp hs =>
    refine .through ?_ fun hok => (hs hok).succ hw he
    rw [hfilter]
    exact hp
  | @handover k events later u result hk hs hpassed hhandled =>
    have hworld := worldBefore_succ he rest k
    refine .handover (k := k + 1) (Nat.succ_lt_succ hk) (hs.succ hw he) ?_ ?_
    · rw [List.take_succ_cons, hfilter, hworld]
      exact hpassed
    · rw [List.take_succ_cons, hfilter, hworld]
      exact hhandled

/-- An instruction that is executed counts among what is executed before the rest. -/
theorem Course.step {executed rest : List (Instruction ι)} {i : Instruction ι} {w v : World ι}
    {events : List (Event ι)} {out : Outcome ι Unit} (hi : i.isFailure = false)
    (hw : w.state.failed = false)
    (he : site.enact family launch (inForce executed) i w = ⟨.ok (), v, events⟩)
    (hp : ∀ due out, Progress family launch site (executed ++ [i]) due v out →
      Progress family launch site executed (i :: due) w
        ⟨out.result, out.world, events ++ out.events⟩)
    (h : Course family launch site (executed ++ [i]) rest v out) :
    Course family launch site executed (i :: rest) w
      ⟨out.result, out.world, events ++ out.events⟩ := by
  have hexecute : site.execute family launch (inForce executed) i w =
      ⟨.ok (inForce (executed ++ [i])), v, events⟩ := by
    rw [execute_of_not_isFailure family launch site hi, Exec.bind_of_ok he, inForce_append]
    simp
  have hfilter : ∀ is : List (Instruction ι),
      ((i :: is).filter fun i => !i.isFailure) = i :: is.filter fun i => !i.isFailure :=
    fun is => List.filter_cons_of_pos (by simp [hi])
  cases h with
  | through hrest hs =>
    refine .through ?_ fun hok => (hs hok).succ hw hexecute
    rw [hfilter]
    exact hp _ _ hrest
  | @handover k passed later u result hk hs hpassed hhandled =>
    have hworld := worldBefore_succ hexecute rest k
    rw [List.append_assoc, List.singleton_append] at hhandled
    show Course family launch site executed (i :: rest) w
      ⟨result, u, events ++ (passed ++ .cascading site.pipeline site.level :: later)⟩
    rw [← List.append_assoc]
    refine .handover (k := k + 1) (Nat.succ_lt_succ hk) (hs.succ hw hexecute) ?_ ?_
    · rw [List.take_succ_cons, hfilter, hworld]
      exact hp _ _ hpassed
    · rw [List.take_succ_cons, hfilter, hworld]
      exact hhandled

/-! ## Courses are determined -/

theorem Progress.unique {executed due : List (Instruction ι)} {w : World ι}
    {out out' : Outcome ι Unit} (h : Progress family launch site executed due w out)
    (h' : Progress family launch site executed due w out') : out = out' := by
  induction h generalizing out' with
  | done =>
    cases h'
    rfl
  | executed hw hm hp _ ih =>
    cases h' with
    | executed _ _ hp' hrest =>
      cases hp.symm.trans hp'
      cases ih hrest
      rfl
    | halted _ _ hp' => cases hp.symm.trans hp'
    | refused _ hl => exact absurd hl hm.not_lacks
  | halted hw hm hp =>
    cases h' with
    | executed _ _ hp' _ => cases hp.symm.trans hp'
    | halted _ _ hp' =>
      cases hp.symm.trans hp'
      rfl
    | refused _ hl => exact absurd hl hm.not_lacks
  | refused hw hl =>
    cases h' with
    | executed _ hm _ _ => exact absurd hl hm.not_lacks
    | halted _ hm _ => exact absurd hl hm.not_lacks
    | refused _ hl' =>
      cases (Instruction.lacks_iff.1 hl).symm.trans (Instruction.lacks_iff.1 hl')
      rfl

/-- What comes after instructions that end without a fault starts in the world that they leave. -/
theorem Progress.after {executed first rest : List (Instruction ι)} {w v : World ι}
    {events : List (Event ι)} {out : Outcome ι Unit}
    (h : Progress family launch site executed (first ++ rest) w out)
    (hf : Progress family launch site executed first w ⟨.ok (), v, events⟩) :
    ∃ out', Progress family launch site (executed ++ first) rest v out' ∧
      out = ⟨out'.result, out'.world, events ++ out'.events⟩ := by
  induction first generalizing executed w events out with
  | nil =>
    cases hf
    rw [List.append_nil]
    exact ⟨out,h,rfl⟩
  | cons i first ih =>
    cases hf with
    | executed _ hm hp hrest =>
      cases h with
      | executed _ _ hp' hrest' =>
        cases hp.symm.trans hp'
        obtain ⟨out',hafter,hout⟩ := ih hrest' hrest
        rw [List.append_assoc, List.singleton_append] at hafter
        refine ⟨out',hafter,?_⟩
        cases hout
        rw [List.append_assoc]
      | halted _ _ hp' => cases hp.symm.trans hp'
      | refused _ hl => exact absurd hl hm.not_lacks

theorem Progress.successful {executed due : List (Instruction ι)} {i : Instruction ι}
    {w : World ι} {out : Outcome ι Unit}
    (h : Progress family launch site executed (i :: due) w out) (hi : i.isFailure = false) :
    w.state.failed = false := by
  cases h with
  | executed hw _ _ _ => exact hw hi
  | halted hw _ _ => exact hw hi
  | refused hw _ => exact hw hi

/-- A traversal that meets a split does not go through its level. -/
theorem not_through_of_splitsAt {executed is : List (Instruction ι)} {w : World ι} {k : Nat}
    {events : List (Event ι)} {out : Outcome ι Unit} (hk : k < is.length)
    (hs : SplitsAt family launch site (inForce executed) is w k)
    (hpassed : Progress family launch site executed ((is.take k).filter fun i => !i.isFailure) w
      ⟨.ok (), worldBefore family launch site (inForce executed) is w k, events⟩)
    (h : Progress family launch site executed (is.filter fun i => !i.isFailure) w out) :
    ¬ (out.result = .ok () → SplitsAt family launch site (inForce executed) is w is.length) := by
  intro hend
  have hsplit : (is.filter fun i => !i.isFailure) =
      ((is.take k).filter fun i => !i.isFailure) ++ (is.drop k).filter fun i => !i.isFailure := by
    rw [← List.filter_append, List.take_append_drop]
  rw [hsplit] at h
  obtain ⟨out',hafter,rfl⟩ := h.after hpassed
  cases hrest : (is.drop k).filter fun i => !i.isFailure with
  | nil =>
    rw [hrest] at hafter
    cases hafter
    exact absurd (hs.unique (hend rfl)) (Nat.ne_of_lt hk)
  | cons i rest =>
    have hmem : i ∈ (is.drop k).filter fun i => !i.isFailure := hrest ▸ List.mem_cons_self
    have hi : i.isFailure = false := by simpa using (List.mem_filter.1 hmem).2
    rw [hrest] at hafter
    have hsuccessful := hafter.successful hi
    rw [hs.failed hk] at hsuccessful
    cases hsuccessful

theorem Course.unique {executed is : List (Instruction ι)} {w : World ι}
    {out out' : Outcome ι Unit} (h : Course family launch site executed is w out)
    (h' : Course family launch site executed is w out') : out = out' := by
  cases h with
  | through hp hend =>
    cases h' with
    | through hp' _ => exact hp.unique hp'
    | handover hk hs hpassed _ => exact absurd hend (not_through_of_splitsAt hk hs hpassed hp)
  | handover hk hs hpassed hhandled =>
    cases h' with
    | through hp hend => exact absurd hend (not_through_of_splitsAt hk hs hpassed hp)
    | handover hk' hs' hpassed' hhandled' =>
      cases hs.unique hs'
      cases hpassed.unique hpassed'
      cases hhandled.unique hhandled'
      rfl

variable (family launch site)

theorem course_of_traverse (executed is : List (Instruction ι)) (w : World ι) :
    Course family launch site executed is w
      (site.traverse family launch (inForce executed) is w) := by
  -- What is executed may change the keys in force as well as the world.
  induction is generalizing executed w with
  | nil => exact .through .done fun _ => ⟨Nat.le_refl 0,by simp,by simp⟩
  | cons i rest ih =>
    rw [traverse_cons]
    cases hw : w.state.failed with
    | true =>
      have hcascade : ∀ j ∈ Instruction.cascade (i :: rest), j.isFailure = true :=
        fun j hj => (List.mem_filter.1 (mem_of_mem_upThrough hj)).2
      have hhandled := site.progress_of_forM family launch hcascade executed w
      rw [if_pos rfl, cascade_eq, Exec.bind_of_ok (Exec.emit_apply _ w)]
      show Course family launch site executed (i :: rest) w
        ⟨_, _, [] ++ .cascading site.pipeline site.level :: _⟩
      refine .handover (k := 0) (Nat.zero_lt_succ _) ⟨Nat.zero_le _,by simp,fun _ => hw⟩ .done ?_
      rw [List.take_zero, List.filter_nil, List.append_nil]
      exact hhandled
    | false =>
      rw [if_neg (by simp)]
      cases hi : i.isFailure with
      | true =>
        rw [execute_of_isFailure family launch site hi]
        exact (ih executed w).skip hi hw
      | false =>
        rw [execute_of_not_isFailure family launch site hi, Exec.bind_assoc]
        rcases site.progress_of_enact family launch executed fun _ => hw with
          ⟨halt,v,events,he,hp⟩ | ⟨v,events,he,hp⟩
        · rw [Exec.bind_of_error he]
          refine .through ?_ fun hok => by cases hok
          rw [List.filter_cons_of_pos (by simp [hi])]
          exact hp _
        · have hrest := ih (executed ++ [i]) v
          rw [inForce_append] at hrest
          rw [Exec.bind_of_ok he]
          exact Course.step hi hw he hp hrest

/-- The course of a traversal that starts with no keys is exactly what the traversal does: the keys
in force are those of the last gate on options that it has executed. A wrap is executed the same
whatever keys are in force, and starts a traversal of its own whenever it runs its children; so does
the run of a tree. Other gates leave the keys as they are. -/
theorem keys_in_force (is : List (Instruction ι)) (w : World ι) :
    (∀ out, Course family launch site [] is w out ↔
      out = site.traverse family launch [] is w) ∧
    (∀ required h o children, site.execute family launch required (.wrap h o children) = (do
      site.announce family (.wrap h o children)
      let r ← h.wrap family launch o (site.deeper.traverse family launch [] children)
      Exec.emit (.returned site.pipeline site.level (.wrap h o children) r.1)
      return required)) ∧
    (∀ tree q level, ∃ rest, Tree.run family launch tree q level = (do
      Exec.emit (.started q level)
      Site.traverse family launch ⟨q, tree.settings, level⟩ [] tree.roots
      rest)) ∧
    ∀ executed g, g.category ≠ .options →
      inForce (executed ++ [.gate g] : List (Instruction ι)) = inForce executed := by
  have hcourse := site.course_of_traverse family launch [] is w
  refine ⟨fun out => ⟨fun h => h.unique hcourse,?_⟩,fun _ _ _ _ => rfl,fun _ _ _ => ⟨_,rfl⟩,?_⟩
  · rintro rfl
    exact hcourse
  · intro executed g hg
    rw [inForce_append]
    exact if_neg hg

end Site

end Cascade
