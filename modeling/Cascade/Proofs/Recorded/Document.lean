import Cascade.Proofs.Level.Performance

/-! # Recorded trees

Trees whose handlers only write their names to the call log. Such a tree is a document: read in
order it is a list of lines, some of which stop the run. What follows a stop is told by the path to
it, from the level of the step outwards: the failure handlers behind the path on each level, and
between two levels the exit of the wrap that is left.
-/
namespace Cascade

open Json (Value)

inductive Recorded where
  | step (name : String) (result : Value) (options : Options)
  | failure (name : String) (result : Value) (options : Options)
  | wrap (name : String) (runChildren : Bool) (options : Options) (children : List Recorded)

/-- A line of the log; a step that stops the run has its path, given by positions from the root. -/
structure Line where
  text : String
  stop : Option (List Nat) := none

def Line.under (n : Nat) (l : Line) : Line := { l with stop := l.stop.map (n :: ·) }

def Line.stops (l : Line) : Bool := l.stop.isSome

namespace Recorded

def isFailure : Recorded → Bool
  | failure .. => true
  | _ => false

def name : Recorded → String
  | step name .. | failure name .. | wrap name .. => name

def options : Recorded → Options
  | step _ _ o | failure _ _ o | wrap _ _ o _ => o

mutual

def instruction {ι : Type} : Recorded → Instruction ι
  | step name result o => .step (.recordingStep name result) o
  | failure name result o => .failure (.recordingStep name result) o
  | wrap name runChildren o children =>
    .wrap (.recordingWrap name runChildren) o (instructions children)

def instructions {ι : Type} : List Recorded → List (Instruction ι)
  | [] => []
  | r :: rest => instruction r :: instructions rest

end

mutual

/-- The lines of what stands at position `n` of its level. A step stops the run if its result is
falsy and its options do not forbid it. -/
def lines (n : Nat) : Recorded → List Line
  | step name result o => [⟨name, if !result.truthy && o.fail then some [n] else none⟩]
  | failure .. => []
  | wrap name runChildren _ children =>
    ⟨name ++ ":enter", none⟩ ::
      ((if runChildren then (linesFrom 0 children).map (Line.under n) else []) ++
        [⟨name ++ ":exit", none⟩])

def linesFrom (n : Nat) : List Recorded → List Line
  | [] => []
  | r :: rest => lines n r ++ linesFrom (n + 1) rest

end

def document (level : List Recorded) : List Line := linesFrom 0 level

/-- The path to the first step that stops the run. -/
def firstStop (ls : List Line) : Option (List Nat) := ls.findSome? Line.stop

/-- The texts up to and including the first line that stops the run. -/
def upToStop (ls : List Line) : List String := (upThrough Line.stops ls).map Line.text

/-- What the failure handlers of a level record that take over before `remaining`. -/
def takeover (remaining : List Recorded) : List String :=
  (upThrough (fun r => r.options.failFast) (remaining.filter isFailure)).map name

/-- What is recorded behind a stop, from its own level outwards. -/
def aftermath : List Nat → List Recorded → List String
  | [], _ => []
  | n :: inner, level =>
    (match level[n]? with
      | some (wrap name _ _ children) => aftermath inner children ++ [name ++ ":exit"]
      | _ => []) ++ takeover (level.drop (n + 1))

def leaving (inner : List Nat) : Recorded → List String
  | wrap name _ _ children => aftermath inner children ++ [name ++ ":exit"]
  | _ => []

/-- What a level with those lines records. -/
def told (level : List Recorded) (ls : List Line) : List String :=
  upToStop ls ++ ((firstStop ls).map fun path => aftermath path level).getD []

/-- What is recorded of the instruction at position `n`, before anything takes over behind it. -/
def toldAt (n : Nat) (r : Recorded) : List String :=
  upToStop (r.lines n) ++ ((firstStop (r.lines n)).map fun path => r.leaving path.tail).getD []

theorem induction {P : Recorded → Prop} (step : ∀ name result o, P (.step name result o))
    (failure : ∀ name result o, P (.failure name result o))
    (wrap : ∀ name runChildren o children, (∀ c ∈ children, P c) →
      P (.wrap name runChildren o children)) : ∀ r, P r
  | .step name result o => step name result o
  | .failure name result o => failure name result o
  | .wrap name runChildren o children =>
    wrap name runChildren o children fun c _ => induction step failure wrap c

theorem instructions_eq_map {ι : Type} (level : List Recorded) :
    (instructions level : List (Instruction ι)) = level.map instruction := by
  induction level with
  | nil => rfl
  | cons r rest ih => rw [instructions, ih, List.map_cons]

theorem isFailure_instruction {ι : Type} (r : Recorded) :
    (r.instruction : Instruction ι).isFailure = r.isFailure := by
  cases r <;> simp [instruction, Instruction.isFailure, isFailure]

theorem options_instruction {ι : Type} (r : Recorded) :
    (r.instruction : Instruction ι).options = r.options := by
  cases r <;> simp [instruction, Instruction.options, options]

theorem cascade_instructions {ι : Type} (remaining : List Recorded) :
    (Instruction.cascade (instructions remaining) : List (Instruction ι)) =
      (upThrough (fun r => r.options.failFast) (remaining.filter isFailure)).map instruction := by
  unfold Instruction.cascade
  rw [instructions_eq_map, List.filter_map, upThrough_map]
  simp only [Function.comp_def, isFailure_instruction, options_instruction]

theorem firstStop_append (a b : List Line) :
    firstStop (a ++ b) = (firstStop a).or (firstStop b) := List.findSome?_append

theorem any_stops {ls : List Line} : ls.any Line.stops = (firstStop ls).isSome := by
  induction ls with
  | nil => rfl
  | cons l rest ih =>
    rw [List.any_cons, ih]
    unfold firstStop
    rw [List.findSome?_cons]
    unfold Line.stops
    cases l.stop <;> rfl

theorem upToStop_append (a b : List Line) :
    upToStop (a ++ b) =
      if (firstStop a).isSome then upToStop a else a.map Line.text ++ upToStop b := by
  unfold upToStop
  rw [upThrough_append, any_stops]
  split
  · rfl
  · rw [List.map_append]

theorem upToStop_of_none {ls : List Line} (h : firstStop ls = none) :
    upToStop ls = ls.map Line.text := by
  unfold upToStop
  rw [upThrough_of_any_eq_false (by rw [any_stops, h]; rfl)]

theorem firstStop_map_under (n : Nat) (ls : List Line) :
    firstStop (ls.map (Line.under n)) = (firstStop ls).map (n :: ·) := by
  induction ls with
  | nil => rfl
  | cons l rest ih =>
    unfold firstStop at ih ⊢
    rw [List.map_cons, List.findSome?_cons, List.findSome?_cons, ih]
    unfold Line.under
    cases l.stop <;> rfl

theorem upToStop_map_under (n : Nat) (ls : List Line) :
    upToStop (ls.map (Line.under n)) = upToStop ls := by
  unfold upToStop
  rw [upThrough_map, List.map_map]
  have hs : Line.stops ∘ Line.under n = Line.stops := by
    funext l
    exact Option.isSome_map
  rw [hs]
  rfl

theorem text_map_under (n : Nat) (ls : List Line) :
    (ls.map (Line.under n)).map Line.text = ls.map Line.text := by
  rw [List.map_map]
  rfl

theorem firstStop_step (n : Nat) (name : String) (result : Value) (o : Options) :
    firstStop ((step name result o).lines n) =
      if !result.truthy && o.fail then some [n] else none := by
  cases h : !result.truthy && o.fail <;> simp [firstStop, lines, h]

theorem firstStop_wrap (n : Nat) (name : String) (o : Options) (children : List Recorded) :
    firstStop ((wrap name true o children).lines n) =
      (firstStop (document children)).map (n :: ·) := by
  have h : (wrap name true o children).lines n = [⟨name ++ ":enter", none⟩] ++
      ((document children).map (Line.under n) ++ [⟨name ++ ":exit", none⟩]) := by
    simp [lines, document]
  rw [h, firstStop_append, firstStop_append, firstStop_map_under]
  cases firstStop (document children) <;> rfl

theorem exists_of_firstStop_lines {n : Nat} {r : Recorded} {path : List Nat}
    (h : firstStop (r.lines n) = some path) : ∃ inner, path = n :: inner := by
  cases r with
  | step name result o =>
    rw [firstStop_step] at h
    split at h
    · cases h
      exact ⟨[],rfl⟩
    · cases h
  | failure name result o => cases h
  | wrap name runChildren o children =>
    cases runChildren with
    | true =>
      rw [firstStop_wrap] at h
      obtain ⟨inner,_,rfl⟩ := Option.map_eq_some_iff.1 h
      exact ⟨inner,rfl⟩
    | false => cases h

theorem aftermath_cons (pre rest : List Recorded) (r : Recorded) (inner : List Nat) :
    aftermath (pre.length :: inner) (pre ++ r :: rest) = r.leaving inner ++ takeover rest := by
  have hr : (pre ++ r :: rest)[pre.length]? = some r := by simp
  have hd : (pre ++ r :: rest).drop (pre.length + 1) = rest := by simp [List.drop_append]
  rw [aftermath, hr, hd]
  cases r <;> rfl

theorem told_cons_of_none {pre rest : List Recorded} {r : Recorded}
    (h : firstStop (r.lines pre.length) = none) :
    told (pre ++ r :: rest) (linesFrom pre.length (r :: rest)) =
      r.toldAt pre.length ++ told (pre ++ r :: rest) (linesFrom (pre.length + 1) rest) := by
  unfold told toldAt
  rw [linesFrom, firstStop_append, upToStop_append, h, upToStop_of_none h]
  simp

theorem told_cons_of_some {pre rest : List Recorded} {r : Recorded} {path : List Nat}
    (h : firstStop (r.lines pre.length) = some path) :
    told (pre ++ r :: rest) (linesFrom pre.length (r :: rest)) =
      r.toldAt pre.length ++ takeover rest := by
  obtain ⟨inner,rfl⟩ := exists_of_firstStop_lines h
  unfold told toldAt
  rw [linesFrom, firstStop_append, upToStop_append, h]
  simp [aftermath_cons]

theorem toldAt_step (n : Nat) (name : String) (result : Value) (o : Options) :
    (step name result o).toldAt n = [name] := by
  unfold toldAt
  rw [firstStop_step]
  cases h : !result.truthy && o.fail <;> simp [lines, upToStop, upThrough, leaving]

theorem toldAt_wrap (n : Nat) (name : String) (o : Options) (children : List Recorded) :
    (wrap name true o children).toldAt n =
      [name ++ ":enter"] ++ (told children (document children) ++ [name ++ ":exit"]) := by
  have hl : (wrap name true o children).lines n = [⟨name ++ ":enter", none⟩] ++
      ((document children).map (Line.under n) ++ [⟨name ++ ":exit", none⟩]) := by
    simp [lines, document]
  unfold toldAt told
  rw [firstStop_wrap, hl, upToStop_append, upToStop_append, firstStop_map_under,
    upToStop_map_under, text_map_under]
  cases h : firstStop (document children) with
  | none =>
    rw [upToStop_of_none h]
    simp [firstStop, upToStop, upThrough, Line.stops]
  | some path => simp [firstStop, leaving]

end Recorded

end Cascade
