import Cascade.Proofs.Law.Parts
import Cascade.Proofs.Traced.Records
import Cascade.Proofs.Ways

/-! # Levels of a run

What a run tells is its own, or is all that a pipeline tells which it starts. Of its own it executes
the instructions of its tree, each that many levels below the run as there are wraps around it. This
goes by induction on the instructions: a wrap runs its children one level deeper.
-/
namespace Cascade

open Json (Value)

variable {ι α β : Type}

/-! ## Instructions within wraps -/

/-- The instruction stands somewhere in the list, with that many wraps of the list around it. -/
inductive Instruction.Within : List (Instruction ι) → Nat → Instruction ι → Prop where
  | here {is : List (Instruction ι)} {i : Instruction ι} (h : i ∈ is) : Within is 0 i
  | inside {is children : List (Instruction ι)} {h : Handler ι} {o : Options} {n : Nat}
    {i : Instruction ι} (hw : .wrap h o children ∈ is) (hi : Within children n i) :
    Within is (n + 1) i

theorem Instruction.depth_le_depthOf {is : List (Instruction ι)} {i : Instruction ι}
    (h : i ∈ is) : i.depth ≤ depthOf is := by
  induction is with
  | nil => cases h
  | cons j rest ih =>
    rw [depthOf]
    rcases List.mem_cons.1 h with rfl | h
    · exact Nat.le_max_left _ _
    · exact Nat.le_trans (ih h) (Nat.le_max_right _ _)

namespace Instruction.Within

theorem mono {is js : List (Instruction ι)} {n : Nat} {i : Instruction ι} (h : Within is n i)
    (hj : ∀ j ∈ is, j ∈ js) : Within js n i := by
  cases h with
  | here h => exact .here (hj _ h)
  | inside hw hi => exact .inside (hj _ hw) hi

theorem lt_depthOf {is : List (Instruction ι)} {n : Nat} {i : Instruction ι}
    (h : Within is n i) : n < Instruction.depthOf is := by
  induction h with
  | @here is i h =>
    have hdepth := depth_le_depthOf h
    cases i <;> simp only [depth] at hdepth <;> omega
  | inside hw _ ih =>
    have hdepth := depth_le_depthOf hw
    rw [depth] at hdepth
    omega

end Instruction.Within

/-- The levels do not run out within the tree, run on this one. -/
def Tree.InRange (tree : Tree ι) (level : Level) : Prop :=
  level.toNat + tree.depth ≤ UInt64.size

theorem Instruction.Within.toNat_level {tree : Tree ι} {level : Level} {n : Nat}
    {i : Instruction ι} (h : Within tree.roots n i) (hl : tree.InRange level) :
    (level + (n : Level)).toNat = level.toNat + n :=
  Level.toNat_add_ofNat (Nat.lt_of_lt_of_le (Nat.add_lt_add_left h.lt_depthOf _) hl)

/-! ## Events among whole blocks -/

/-- Single events of one kind, and whole lists of another between them. -/
inductive Interleaved (Own : Event ι → Prop) (Block : List (Event ι) → Prop) :
    List (Event ι) → Prop where
  | nil : Interleaved Own Block []
  | own {e : Event ι} {rest : List (Event ι)} (he : Own e) (h : Interleaved Own Block rest) :
    Interleaved Own Block (e :: rest)
  | block {b rest : List (Event ι)} (hb : Block b) (h : Interleaved Own Block rest) :
    Interleaved Own Block (b ++ rest)

/-- All that is told when a pipeline is started. -/
inductive Launch.Block (launch : Launch ι) : List (Event ι) → Prop where
  | run (q : ι) (level : Level) (w : World ι) : Block launch (launch.run q level w).events
  | invoke (q : ι) (o : Options) (level : Level) (w : World ι) :
    Block launch (launch.invoke q o level w).events

/-- What a run of `q` may tell itself in executing these instructions on that level. -/
def Event.OwnOf (q : ι) (level : Level) (is : List (Instruction ι)) : Event ι → Prop
  | executing p l i _ | returned p l i _ =>
    p = q ∧ ∃ n : Nat, l = level + n ∧ Instruction.Within is n i
  | cascading p l => p = q ∧ ∃ (n : Nat) (i : _), l = level + n ∧ Instruction.Within is n i
  | logged .. | changed _ | raised .. | entered .. => True
  | declaring _ | probed _ | compiled _ | started .. | finished .. => False

namespace Interleaved

variable {Own Own' : Event ι → Prop} {Block : List (Event ι) → Prop} {d e : List (Event ι)}

theorem append (hd : Interleaved Own Block d) (he : Interleaved Own Block e) :
    Interleaved Own Block (d ++ e) := by
  induction hd with
  | nil => exact he
  | own h _ ih => exact .own h ih
  | block hb _ ih =>
    rw [List.append_assoc]
    exact .block hb ih

theorem mono (h : Interleaved Own Block d) (ho : ∀ e, Own e → Own' e) :
    Interleaved Own' Block d := by
  induction h with
  | nil => exact .nil
  | own he _ ih => exact .own (ho _ he) ih
  | block hb _ ih => exact .block hb ih

theorem of_forall {events : List (Event ι)} (h : ∀ e ∈ events, Own e) :
    Interleaved Own Block events := by
  induction events with
  | nil => exact .nil
  | cons e rest ih =>
    exact .own (h e List.mem_cons_self) (ih fun d hd => h d (List.mem_cons_of_mem e hd))

/-- An event that is not told by itself belongs to a block. -/
theorem exists_block {events before after : List (Event ι)} {e : Event ι}
    (h : Interleaved Own Block events) (hs : events = before ++ e :: after) (he : ¬ Own e) :
    ∃ earlier first last rest, Block (first ++ e :: last) ∧ before = earlier ++ first ∧
      after = last ++ rest := by
  induction h generalizing before with
  | nil => simp at hs
  | own ha _ ih =>
    cases before with
    | nil =>
      cases hs
      exact absurd ha he
    | cons a before =>
      cases hs
      obtain ⟨earlier,first,last,rest,hb,rfl,rfl⟩ := ih rfl
      exact ⟨_ :: earlier,first,last,rest,hb,rfl,rfl⟩
  | @block b tail hb _ ih =>
    rcases List.append_eq_append_iff.1 hs with ⟨mid,rfl,htail⟩ | ⟨mid,rfl,htail⟩
    · obtain ⟨earlier,first,last,rest,hblock,rfl,rfl⟩ := ih htail
      exact ⟨b ++ earlier,first,last,rest,hblock,(List.append_assoc _ _ _).symm,rfl⟩
    · cases mid with
      | nil =>
        have hempty : tail = [] ++ e :: after := htail.symm
        obtain ⟨earlier,first,last,rest,hblock,hnil,rfl⟩ := ih hempty
        obtain ⟨rfl,rfl⟩ := List.append_eq_nil_iff.1 hnil.symm
        exact ⟨before,[],last,rest,hblock,(List.append_nil _).symm,rfl⟩
      | cons a last =>
        cases htail
        exact ⟨[],before,last,tail,hb,rfl,rfl⟩

/-- It is a law for the events of an execution, whatever the worlds are. -/
def law (Own : Event ι → Prop) (Block : List (Event ι) → Prop) : Law ι where
  Holds _ events _ := Interleaved Own Block events
  refl _ := .nil
  trans := append

end Interleaved

namespace Event.OwnOf

variable {q : ι} {level : Level} {is js : List (Instruction ι)} {e : Event ι}

theorem mono (hj : ∀ j ∈ is, j ∈ js) (h : e.OwnOf q level is) : e.OwnOf q level js := by
  cases e with
  | executing p l i s | returned p l i result =>
    obtain ⟨hp,n,hl,hi⟩ := h
    exact ⟨hp,n,hl,hi.mono hj⟩
  | cascading p l =>
    obtain ⟨hp,n,i,hl,hi⟩ := h
    exact ⟨hp,n,i,hl,hi.mono hj⟩
  | _ => exact h

/-- What is executed a level deeper for a wrap stands within it. -/
theorem inside {h : Handler ι} {o : Options} {children : List (Instruction ι)}
    (hw : .wrap h o children ∈ is) (he : e.OwnOf q (level + 1) children) : e.OwnOf q level is := by
  have hlevel : ∀ {l : Level} {n : Nat}, l = level + 1 + .ofNat n → l = level + .ofNat (n + 1) :=
    fun hl => hl.trans (level.add_ofNat_succ _).symm
  cases e with
  | executing p l i s | returned p l i result =>
    obtain ⟨hp,n,hl,hi⟩ := he
    exact ⟨hp,n + 1,hlevel hl,.inside hw hi⟩
  | cascading p l =>
    obtain ⟨hp,n,i,hl,hi⟩ := he
    exact ⟨hp,n + 1,i,hlevel hl,.inside hw hi⟩
  | _ => exact he

end Event.OwnOf

/-! ## Executions -/

namespace Exec

/-- Whatever the world is, all that is told is of these kinds. -/
def Tells (Own : Event ι → Prop) (Block : List (Event ι) → Prop) (x : Exec ι α) : Prop :=
  ∀ w, Interleaved Own Block (x w).events

variable {Own Own' : Event ι → Prop} {Block : List (Event ι) → Prop}

theorem tells_pure (a : α) : Tells Own Block (pure a : Exec ι α) := fun _ => .nil

theorem tells_state : Tells Own Block (state : Exec ι State) := fun _ => .nil

theorem tells_emit {e : Event ι} (h : Own e) : Tells Own Block (emit e) := fun _ => .own h .nil

theorem Tells.mono {x : Exec ι α} (h : Tells Own Block x) (ho : ∀ e, Own e → Own' e) :
    Tells Own' Block x := fun w => (h w).mono ho

theorem Tells.bind {x : Exec ι α} {f : α → Exec ι β} (hx : Tells Own Block x)
    (hf : ∀ a, Tells Own Block (f a)) : Tells Own Block (x >>= f) := by
  have hlaw : Obeys (Interleaved.law Own Block) (x >>= f) := Obeys.bind hx hf
  exact hlaw

end Exec

/-- What handlers do by themselves may be told, and so may what they start. -/
structure Launch.Tells (launch : Launch ι) (Own : Event ι → Prop)
    (Block : List (Event ι) → Prop) : Prop where
  raised (f : Fault) (s : State) : Own (.raised f s)
  changed (c : Change) : Own (.changed c)
  run (q : ι) (level : Level) : (launch.run q level).Tells Own Block
  invoke (q : ι) (o : Options) (level : Level) : (launch.invoke q o level).Tells Own Block

/-- What is started may be told as a whole. -/
theorem Launch.tells_of_block {launch : Launch ι} {Own : Event ι → Prop}
    {Block : List (Event ι) → Prop} (raised : ∀ f s, Own (.raised f s))
    (changed : ∀ c, Own (.changed c)) (hb : ∀ b, launch.Block b → Block b) :
    launch.Tells Own Block := by
  have hone : ∀ b, launch.Block b → Interleaved Own Block b := by
    intro b h
    rw [← List.append_nil b]
    exact .block (hb b h) .nil
  exact ⟨raised,changed,fun q level w => hone _ (.run q level w),
    fun q o level w => hone _ (.invoke q o level w)⟩

theorem Launch.tells_own (launch : Launch ι) (q : ι) (level : Level) (is : List (Instruction ι)) :
    launch.Tells (Event.OwnOf q level is) launch.Block :=
  Launch.tells_of_block (fun _ _ => trivial) (fun _ => trivial) fun _ h => h

section

variable {family : Family ι} {launch : Launch ι} {Own : Event ι → Prop}
  {Block : List (Event ι) → Prop} (ht : launch.Tells Own Block)
include ht

theorem Launch.Tells.allows : (Interleaved.law Own Block).Allows fun _ => True where
  changed _ _ _ _ := .own (ht.changed _) .nil
  raised f w := .own (ht.raised f w.state) .nil

theorem Launch.Tells.obeys : launch.Obeys (Interleaved.law Own Block) := ⟨ht.run,ht.invoke⟩

theorem Program.tells_value (p : Program ι) : (p.value launch).Tells Own Block :=
  p.obeys_value ht.allows ht.obeys (p.changesOnly_of_forall fun _ => trivial)

theorem tells_enter {p : ι} {o : Options} (ho : Own (.entered p o)) (c : Callable ι) :
    (enter launch p c o).Tells Own Block :=
  obeys_enter ht.allows ht.obeys (fun _ => .own ho .nil)
    ((c.program o).changesOnly_of_forall fun _ => trivial)

theorem Handler.tells_wrap {children : Exec ι Unit} (hc : children.Tells Own Block) (o : Options)
    (h : Handler ι) : (h.wrap family launch o children).Tells Own Block :=
  h.obeys_wrap ht.allows ht.obeys family.changesOnly hc o h.changesOnly

/-- An instruction is announced, does what its handler or its children do, and gives its result. -/
theorem Site.tells_perform (site : Site ι) {i : Instruction ι}
    (hannounced : ∀ s, ∀ e ∈ site.announcement family i s, Own e)
    (hreturned : ∀ result, Own (.returned site.pipeline site.level i result))
    (hc : (site.deeper.traverse family launch [] i.children).Tells Own Block) :
    (site.perform family launch i).Tells Own Block := by
  have hannounce : (site.announce family i).Tells Own Block := by
    intro w
    rw [announce_eq]
    exact .of_forall (hannounced w.state)
  have hconclude : ∀ result, (site.conclude i result).Tells Own Block := by
    intro result w
    rw [conclude_apply]
    exact .own (hreturned result) .nil
  have hact : (site.act family launch i).Tells Own Block :=
    site.obeys_act ht.allows ht.obeys family.changesOnly i.handler.changesOnly hconclude hc
  exact hannounce.bind fun _ => hact

theorem Site.tells_enact_of_perform (site : Site ι) {i : Instruction ι}
    (h : (site.perform family launch i).Tells Own Block) (keys : List Key) :
    (site.enact family launch keys i).Tells Own Block :=
  site.obeys_enact_of_perform ht.allows h keys

/-! ## Levels -/

theorem Family.tells_body {q : ι} (ho : ∀ o, Own (.entered q o)) {traversal : Exec ι Unit}
    (h : traversal.Tells Own Block) : (family.body launch q traversal).Tells Own Block :=
  family.obeys_body ht.allows ht.obeys family.changesOnly (fun o _ => .own (ho o) .nil) h

end

/-- A level tells what its instructions do, and when its failure handlers take over. -/
theorem Site.tells_walk {Own : Event ι → Prop} {Block : List (Event ι) → Prop}
    {is : List (Instruction ι)} (site : Site ι) {enact : List Key → Instruction ι → Exec ι Unit}
    (hcascading : is ≠ [] → Own (.cascading site.pipeline site.level))
    (h : ∀ i ∈ is, ∀ keys, (enact keys i).Tells Own Block) (required : List Key) :
    (site.walk enact required is).Tells Own Block := by
  have hlaw : ∀ i ∈ is, ∀ keys, (enact keys i).Obeys (Interleaved.law Own Block) := h
  exact site.obeys_walk (fun hne _ => Interleaved.own (hcascading hne) .nil) hlaw required

/-- The levels of a tree tell no more than its instructions. -/
theorem Site.tells_traverse_of {family : Family ι} {launch : Launch ι} {Own : Event ι → Prop}
    {Block : List (Event ι) → Prop} (ht : launch.Tells Own Block)
    (hcascading : ∀ q level, Own (.cascading q level))
    (hperform : ∀ (site : Site ι) i, (site.deeper.traverse family launch [] i.children).Tells Own
      Block → (site.perform family launch i).Tells Own Block)
    (site : Site ι) (is : List (Instruction ι)) (required : List Key) :
    (site.traverse family launch required is).Tells Own Block :=
  Site.obeys_traverse_of ht.allows (fun _ _ _ => .own (hcascading _ _) .nil) (fun _ _ => True)
    (fun _ _ => trivial) (fun site i _ => hperform site i) site (fun _ _ => trivial) required

/-! ## What belongs to an instruction -/

variable {family : Family ι} {launch : Launch ι}

/-- An instruction is executed on the level of its site, given that its children are a level deeper.
-/
theorem Site.tells_enact_of (site : Site ι) {i : Instruction ι}
    (hc : (site.deeper.traverse family launch [] i.children).Tells
      (Event.OwnOf site.pipeline (site.level + 1) i.children) launch.Block) (keys : List Key) :
    (site.enact family launch keys i).Tells (Event.OwnOf site.pipeline site.level [i])
      launch.Block := by
  have hself : Instruction.Within [i] 0 i := .here List.mem_cons_self
  have hlevel : site.level = site.level + .ofNat 0 := (UInt64.add_zero site.level).symm
  have hannounced : ∀ s, ∀ e ∈ site.announcement family i s,
      e.OwnOf site.pipeline site.level [i] :=
    fun s => Site.forall_announcement ⟨rfl,0,hlevel,hself⟩ fun _ _ => trivial
  have hchildren : (site.deeper.traverse family launch [] i.children).Tells
      (Event.OwnOf site.pipeline site.level [i]) launch.Block := by
    cases i with
    | wrap h o children => exact hc.mono fun _ he => he.inside List.mem_cons_self
    | _ => exact Exec.tells_pure _
  have ht := launch.tells_own site.pipeline site.level [i]
  exact site.tells_enact_of_perform ht
    (site.tells_perform ht hannounced (fun _ => ⟨rfl,0,hlevel,hself⟩) hchildren) keys

theorem Exec.Tells.of_mem {Block : List (Event ι) → Prop} {q : ι} {level : Level}
    {is : List (Instruction ι)} {i : Instruction ι} {x : Exec ι α}
    (h : x.Tells (Event.OwnOf q level [i]) Block) (hi : i ∈ is) :
    x.Tells (Event.OwnOf q level is) Block := by
  refine h.mono fun e he => he.mono fun j hj => ?_
  cases List.mem_singleton.1 hj
  exact hi

theorem Site.tells_walk_own (site : Site ι) {Block : List (Event ι) → Prop}
    {enact : List Key → Instruction ι → Exec ι Unit} {is : List (Instruction ι)}
    (h : ∀ i ∈ is, ∀ keys, (enact keys i).Tells (Event.OwnOf site.pipeline site.level [i]) Block)
    (required : List Key) :
    (site.walk enact required is).Tells (Event.OwnOf site.pipeline site.level is) Block := by
  refine site.tells_walk (fun hne => ?_) (fun i hi keys => (h i hi keys).of_mem hi) required
  obtain ⟨i,hi⟩ := List.exists_mem_of_ne_nil is hne
  exact ⟨rfl,0,i,(UInt64.add_zero site.level).symm,.here hi⟩

/-- The induction is on how deep the instruction goes. -/
theorem Site.tells_enact (site : Site ι) (i : Instruction ι) (keys : List Key) :
    (site.enact family launch keys i).Tells (Event.OwnOf site.pipeline site.level [i])
      launch.Block := by
  induction i using Instruction.induction generalizing site keys with
  | step _ _ | failure _ _ | gate _ => exact site.tells_enact_of (Exec.tells_pure _) keys
  | wrap h o children ih =>
    refine site.tells_enact_of ?_ keys
    rw [traverse_eq_walk]
    exact site.deeper.tells_walk_own (fun c hc => ih c hc site.deeper) []

theorem Site.tells_traverse (site : Site ι) (is : List (Instruction ι)) (required : List Key) :
    (site.traverse family launch required is).Tells
      (Event.OwnOf site.pipeline site.level is) launch.Block := by
  rw [traverse_eq_walk]
  exact site.tells_walk_own (fun i _ => site.tells_enact i) required

end Cascade
