import Cascade.State.Operation

/-! # The grammar of keys

A key is spelled like an identifier, with at most one mark behind it. The pattern
`^[A-Za-z_][A-Za-z0-9_]*[?!]?$` says the same if its anchors hold only at the very start and at the
very end of a text: then it is found nowhere within a text but as the whole of it.
-/
namespace Cascade

namespace Key

/-! ## Spellings -/

def Letter (c : Char) : Prop := ('A' ≤ c ∧ c ≤ 'Z') ∨ ('a' ≤ c ∧ c ≤ 'z') ∨ c = '_'

def Inner (c : Char) : Prop := Letter c ∨ ('0' ≤ c ∧ c ≤ '9')

def Mark (c : Char) : Prop := c = '?' ∨ c = '!'

inductive Spelled : List Char → Prop where
  | unmarked {c : Char} {cs : List Char} (hc : Letter c) (hcs : ∀ d ∈ cs, Inner d) :
    Spelled (c :: cs)
  | marked {c m : Char} {cs : List Char} (hc : Letter c) (hcs : ∀ d ∈ cs, Inner d) (hm : Mark m) :
    Spelled (c :: (cs ++ [m]))

/-- Visible characters of ASCII. -/
def Visible (c : Char) : Prop := 32 < c.toNat ∧ c.toNat < 128

theorem Letter.visible {c : Char} (h : Letter c) : Visible c := by
  unfold Visible
  rcases h with h | h | rfl
  · have hc : 65 ≤ c.toNat ∧ c.toNat ≤ 90 := h
    omega
  · have hc : 97 ≤ c.toNat ∧ c.toNat ≤ 122 := h
    omega
  · decide

theorem Inner.visible {c : Char} (h : Inner c) : Visible c := by
  unfold Visible
  rcases h with h | h
  · exact h.visible
  · have hc : 48 ≤ c.toNat ∧ c.toNat ≤ 57 := h
    omega

theorem Mark.visible {c : Char} (h : Mark c) : Visible c := by
  unfold Visible
  rcases h with rfl | rfl <;> decide

theorem Spelled.forall_visible {cs : List Char} (h : Spelled cs) : ∀ c ∈ cs, Visible c := by
  cases h with
  | unmarked hc hcs => exact List.forall_mem_cons.2 ⟨hc.visible,fun d hd => (hcs d hd).visible⟩
  | marked hc hcs hm =>
    exact List.forall_mem_cons.2 ⟨hc.visible,List.forall_mem_append.2
      ⟨fun d hd => (hcs d hd).visible,List.forall_mem_singleton.2 hm.visible⟩⟩

theorem inRange_iff {c first last : Char} :
    (decide (first.val ≤ c.val) && decide (c.val ≤ last.val)) = true ↔ first ≤ c ∧ c ≤ last := by
  rw [Bool.and_eq_true, decide_eq_true_iff, decide_eq_true_iff]
  rfl

theorem isInitial_iff {c : Char} : isInitial c = true ↔ Letter c := by
  have hupper : c.isUpper = true ↔ 'A' ≤ c ∧ c ≤ 'Z' := decide_eq_true_iff
  have hlower : c.isLower = true ↔ 'a' ≤ c ∧ c ≤ 'z' := inRange_iff
  show ((c.isUpper || c.isLower) || c == '_') = true ↔ _
  rw [Bool.or_eq_true, Bool.or_eq_true, hupper, hlower, beq_iff_eq, or_assoc]
  rfl

theorem isInner_iff {c : Char} : isInner c = true ↔ Inner c := by
  have hdigit : c.isDigit = true ↔ '0' ≤ c ∧ c ≤ '9' := inRange_iff
  have hsplit : isInner c = (isInitial c || c.isDigit) := Bool.or_right_comm _ _ _
  rw [hsplit, Bool.or_eq_true, isInitial_iff, hdigit]
  rfl

theorem isMark_iff {c : Char} : isMark c = true ↔ Mark c := by
  simp [isMark, Mark]

theorem isEnding_iff {cs : List Char} :
    isEnding cs = true ↔ cs = [] ∨ ∃ m, Mark m ∧ cs = [m] := by
  match cs with
  | [] => simp [isEnding]
  | [m] => simp [isEnding, isMark_iff]
  | _ :: _ :: _ => simp [isEnding]

theorem not_inner_of_mark {c : Char} (h : Mark c) : isInner c = false := by
  rcases h with rfl | rfl <;> decide

theorem dropWhile_inner {cs : List Char} (h : ∀ d ∈ cs, Inner d) (rest : List Char) :
    (cs ++ rest).dropWhile isInner = rest.dropWhile isInner :=
  List.dropWhile_append_of_pos fun d hd => isInner_iff.2 (h d hd)

/-- All that is taken off first are inner characters, so what is left is the mark, if there is one.
-/
theorem spelled_of_symbolicChars {cs : List Char} (h : symbolicChars cs = true) : Spelled cs := by
  cases cs with
  | nil => cases h
  | cons c cs =>
    obtain ⟨hc,hend⟩ := Bool.and_eq_true_iff.1 h
    have hinner : ∀ d ∈ cs.takeWhile isInner, Inner d :=
      fun d hd => isInner_iff.1 (List.all_eq_true.1 List.all_takeWhile d hd)
    rw [← List.takeWhile_append_dropWhile (p := isInner) (l := cs)]
    rcases isEnding_iff.1 hend with hnone | ⟨m,hm,hone⟩
    · rw [hnone, List.append_nil]
      exact .unmarked (isInitial_iff.1 hc) hinner
    · rw [hone]
      exact .marked (isInitial_iff.1 hc) hinner hm

theorem Spelled.symbolicChars {cs : List Char} (h : Spelled cs) : symbolicChars cs = true := by
  cases h with
  | @unmarked c cs hc hcs =>
    have hall := dropWhile_inner hcs []
    rw [List.append_nil] at hall
    exact Bool.and_eq_true_iff.2 ⟨isInitial_iff.2 hc,isEnding_iff.2 (Or.inl hall)⟩
  | @marked c m cs hc hcs hm =>
    refine Bool.and_eq_true_iff.2 ⟨isInitial_iff.2 hc,isEnding_iff.2 (Or.inr ⟨m,hm,?_⟩)⟩
    rw [dropWhile_inner hcs, List.dropWhile_cons, not_inner_of_mark hm]
    rfl

theorem symbolicChars_iff {cs : List Char} : symbolicChars cs = true ↔ Spelled cs :=
  ⟨spelled_of_symbolicChars,Spelled.symbolicChars⟩

instance (cs : List Char) : Decidable (Spelled cs) := decidable_of_iff _ symbolicChars_iff

example : Spelled "_valid2!".toList ∧ ¬ Spelled "valid?2".toList := by decide

end Key

/-! ## Patterns -/

inductive Pattern where
  /-- The very start of a text. -/
  | start
  /-- The very end of a text. -/
  | stop
  | one (p : Char → Prop)
  | many (p : Char → Prop)
  | maybe (p : Char → Prop)
  | andThen (first second : Pattern)

namespace Pattern

/-- What the pattern says of a part of a text, between what is before it and what is after it. -/
def Matches : Pattern → List Char → List Char → List Char → Prop
  | start, before, part, _ => before = [] ∧ part = []
  | stop, _, part, after => after = [] ∧ part = []
  | one p, _, part, _ => ∃ c, p c ∧ part = [c]
  | many p, _, part, _ => ∀ c ∈ part, p c
  | maybe p, _, part, _ => part = [] ∨ ∃ c, p c ∧ part = [c]
  | andThen a b, before, part, after => ∃ left right, part = left ++ right ∧
    a.Matches before left (right ++ after) ∧ b.Matches (before ++ left) right after

/-- The pattern says it of some part of the text. -/
def Found (p : Pattern) (text : List Char) : Prop :=
  ∃ before part after, text = before ++ part ++ after ∧ p.Matches before part after

section

variable {p : Pattern} {before part after : List Char}

theorem matches_start_andThen :
    (andThen start p).Matches before part after ↔ before = [] ∧ p.Matches [] part after := by
  constructor
  · rintro ⟨_,right,rfl,⟨rfl,rfl⟩,h⟩
    exact ⟨rfl,h⟩
  · rintro ⟨rfl,h⟩
    exact ⟨[],part,rfl,⟨rfl,rfl⟩,h⟩

theorem matches_one_andThen {C : Char → Prop} :
    (andThen (one C) p).Matches before part after ↔
      ∃ c rest, C c ∧ part = c :: rest ∧ p.Matches (before ++ [c]) rest after := by
  constructor
  · rintro ⟨_,rest,rfl,⟨c,hc,rfl⟩,h⟩
    exact ⟨c,rest,hc,rfl,h⟩
  · rintro ⟨c,rest,hc,rfl,h⟩
    exact ⟨[c],rest,rfl,⟨c,hc,rfl⟩,h⟩

theorem matches_andThen_stop :
    (andThen p stop).Matches before part after ↔ after = [] ∧ p.Matches before part [] := by
  constructor
  · rintro ⟨left,_,rfl,h,rfl,rfl⟩
    rw [List.append_nil]
    exact ⟨rfl,h⟩
  · rintro ⟨rfl,h⟩
    exact ⟨part,[],(List.append_nil part).symm,h,rfl,rfl⟩

end

end Pattern

namespace Key

def pattern : Pattern :=
  .andThen .start (.andThen (.one Letter) (.andThen (.many Inner) (.andThen (.maybe Mark) .stop)))

open Pattern in
theorem pattern_found_iff {text : List Char} : pattern.Found text ↔ Spelled text := by
  constructor
  · rintro ⟨before,part,after,rfl,h⟩
    obtain ⟨rfl,hone⟩ := matches_start_andThen.1 h
    obtain ⟨c,rest,hc,rfl,cs,ending,rfl,hcs,hstop⟩ := matches_one_andThen.1 hone
    obtain ⟨rfl,hending⟩ := matches_andThen_stop.1 hstop
    rw [List.nil_append, List.append_nil]
    rcases hending with rfl | ⟨m,hm,rfl⟩
    · rw [List.append_nil]
      exact .unmarked hc hcs
    · exact .marked hc hcs hm
  · intro h
    refine ⟨[],text,[],(List.append_nil text).symm,matches_start_andThen.2 ⟨rfl,?_⟩⟩
    cases h with
    | @unmarked c cs hc hcs =>
      exact matches_one_andThen.2 ⟨c,cs,hc,rfl,cs,[],(List.append_nil cs).symm,hcs,
        matches_andThen_stop.2 ⟨rfl,Or.inl rfl⟩⟩
    | @marked c m cs hc hcs hm =>
      exact matches_one_andThen.2 ⟨c,cs ++ [m],hc,rfl,cs,[m],rfl,hcs,
        matches_andThen_stop.2 ⟨rfl,Or.inr ⟨m,hm,rfl⟩⟩⟩

/-! ## Reading a key -/

/-- A text is read as a key if it is spelled like one, and the key has that spelling; any other text
is refused by its name. -/
structure ReadFrom (raw : String) (r : Except Fault Key) : Prop where
  accepted : (∃ k, r = .ok k) ↔ Spelled raw.toList
  raw_eq {k : Key} : r = .ok k → k.raw = raw
  refused {f : Fault} : r = .error f ↔ ¬ Spelled raw.toList ∧ f = .invalidKey raw

theorem readFrom_ofString (raw : String) : ReadFrom raw (ofString raw) := by
  have hiff : isSymbolic raw = true ↔ Spelled raw.toList := symbolicChars_iff
  cases h : isSymbolic raw with
  | true =>
    have hs := hiff.1 h
    rw [ofString_of_symbolic h]
    refine ⟨iff_of_true ⟨_,rfl⟩ hs,fun hk => ?_,by simp [hs]⟩
    cases hk
    rfl
  | false =>
    have hs : ¬ Spelled raw.toList := fun hs => by simp [hiff.2 hs] at h
    rw [ofString_of_not_symbolic h]
    refine ⟨iff_of_false (fun hk => ?_) hs,fun hk => ?_,by simp [hs, eq_comm]⟩
    · obtain ⟨k,hk⟩ := hk
      cases hk
    · cases hk

/-- Of all texts, exactly those are read as keys that are spelled by the grammar: a letter or an
underscore, then letters, digits and underscores, then at most one mark, and nothing after it. The
pattern is found in just these. Whatever is accepted is read back unchanged, and it is all of ASCII
and without a line break; whatever is not accepted is refused by its name. -/
theorem spelled_exactly (raw : String) :
    ReadFrom raw (ofString raw) ∧ ReadFrom raw (KeyForm.spelling raw).resolve ∧
    (isSymbolic raw = true ↔ Spelled raw.toList) ∧
    (pattern.Found raw.toList ↔ Spelled raw.toList) ∧
    (Spelled raw.toList → ∀ c ∈ raw.toList, c ≠ '\n' ∧ c.toNat < 128) := by
  refine ⟨readFrom_ofString raw,readFrom_ofString raw,symbolicChars_iff,pattern_found_iff,?_⟩
  intro h c hc
  obtain ⟨hlow,hhigh⟩ := h.forall_visible c hc
  refine ⟨?_,hhigh⟩
  rintro rfl
  exact absurd hlow (by decide)

end Key

end Cascade
