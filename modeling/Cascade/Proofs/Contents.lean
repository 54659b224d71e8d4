import Cascade.Proofs.History
import Cascade.Proofs.Listed
import Cascade.Proofs.Raised.Reason

/-! # What is shown depends on the contents

States and options are shown by their contents alone: by the keys, as an object and as a text.
However the contents came about, and in whatever order they are listed, the same is shown, with the
keys in ascending order. So what is told of a state in a message or in a record is told by what it
holds.
-/
namespace Cascade

open Json (Value Number)

variable {ι : Type}

/-! ## Equal values -/

/-- All numbers of the value are finite, as they are in JSON. -/
inductive Json.Value.Finite : Value → Prop where
  | null : Finite .null
  | bool (b : Bool) : Finite (.bool b)
  | int (n : Int) : Finite (.int n)
  | float (x : Float) (h : x.isFinite = true) : Finite (.number (.float x))
  | string (s : String) : Finite (.string s)
  | array {items : List Value} (h : ∀ v ∈ items, Finite v) : Finite (.array items)
  | object {fields : List (String × Value)} (h : ∀ e ∈ fields, Finite e.2) : Finite (.object fields)

open Float.Model in
theorem float_beq_self {x : Float} (h : x.isFinite = true) : (x == x) = true := by
  have hx : x.toModel.unpack.isFinite = true := h
  show x.toModel.unpack.beq x.toModel.unpack = true
  unfold UnpackedFloat.beq
  cases hu : x.toModel.unpack with
  | notANumber | infinity _ =>
    rw [hu] at hx
    cases hx
  | zero _ => rfl
  | finite sign m e _ =>
    have hsame : (compare e e).then (compare m m) = .eq := by
      have he : compare e e = .eq := Std.ReflCmp.compare_self
      have hm : compare m m = .eq := Std.ReflCmp.compare_self
      rw [he, hm]
      rfl
    cases sign with
    | positive =>
      show (some ((compare e e).then (compare m m)) == some .eq) = true
      rw [hsame]
      rfl
    | negative =>
      show (some ((compare e e).then (compare m m)).swap == some .eq) = true
      rw [hsame]
      rfl

namespace Json.Value

theorem itemsBeq_self {items : List Value} (h : ∀ v ∈ items, beq v v = true) :
    itemsBeq items items = true := by
  induction items with
  | nil => rfl
  | cons v rest ih =>
    exact Bool.and_eq_true_iff.2
      ⟨h v List.mem_cons_self,ih fun u hu => h u (List.mem_cons_of_mem v hu)⟩

theorem fieldsBeq_self {fields : List (String × Value)} (h : ∀ e ∈ fields, beq e.2 e.2 = true) :
    fieldsBeq fields fields = true := by
  induction fields with
  | nil => rfl
  | cons e rest ih =>
    have hkey : (e.1 == e.1 && beq e.2 e.2) = true :=
      Bool.and_eq_true_iff.2 ⟨beq_self_eq_true e.1,h e List.mem_cons_self⟩
    exact Bool.and_eq_true_iff.2 ⟨hkey,ih fun d hd => h d (List.mem_cons_of_mem e hd)⟩

theorem Finite.beq_self {v : Value} (h : v.Finite) : beq v v = true := by
  induction h with
  | null => rfl
  | bool b => exact beq_self_eq_true b
  | int n => exact beq_self_eq_true n
  | float x h => exact float_beq_self h
  | string s => exact beq_self_eq_true s
  | array _ ih => exact itemsBeq_self ih
  | object _ ih => exact fieldsBeq_self ih

end Json.Value

/-! ## Texts of objects -/

namespace Json.Value

/-- The text of a field: its key, quoted, and the text of its value. -/
def fieldText (e : String × Value) : String := String.ofList (quoted e.1) ++ ":" ++ e.2.text

theorem ofList_fieldChars (fields : List (String × Value)) :
    String.ofList (fieldChars fields) = ",".intercalate (fields.map fieldText) ++ "\x7d" := by
  induction fields with
  | nil => rfl
  | cons e rest ih =>
    obtain ⟨k,v⟩ := e
    cases rest with
    | nil =>
      simp [fieldChars, fieldText, text, String.ofList_append, String.ofList_cons,
        String.append_assoc]
    | cons d ds =>
      have hchars : fieldChars ((k, v) :: d :: ds) =
          quoted k ++ ':' :: v.chars ++ ',' :: fieldChars (d :: ds) := by simp [fieldChars]
      rw [hchars, List.map_cons, List.map_cons, String.intercalate_cons_cons, ← List.map_cons,
        String.ofList_append, String.ofList_cons, ih]
      simp [fieldText, text, String.ofList_append, String.ofList_cons, String.append_assoc]

theorem text_object (fields : List (String × Value)) :
    (object fields).text = "\x7b" ++ (",".intercalate (fields.map fieldText) ++ "\x7d") := by
  rw [← ofList_fieldChars]
  exact String.ofList_cons

end Json.Value

/-! ## What is shown -/

/-- The keys, the object and the text show what is found by the look-up, and nothing else. -/
structure Shown (lookup : String → Option Value) (keys : List String) (value : Value)
    (text : String) : Prop where
  ascending : keys.Pairwise (· < ·)
  fields : ∃ fields, value = .object fields ∧ fields.map (·.1) = keys ∧
    ∀ key v, (key, v) ∈ fields ↔ lookup key = some v
  /-- The fields stand in the text one behind the other, each with its key and its value. -/
  spelled {fields : List (String × Value)} (h : value = .object fields) :
    text = "\x7b" ++ (",".intercalate (fields.map Json.Value.fieldText) ++ "\x7d")
  text : text = value.text
  /-- In whatever order the entries are listed, sorting the keys and collecting the entries shows
  the same. -/
  listed {listing : List (String × Value)} (h : Lists listing lookup) :
    keys = (listing.map (·.1)).mergeSort ∧ value = .ofMap (.ofList listing)

theorem SortedMap.shown {m : SortedMap Value} {lookup : String → Option Value}
    (h : ∀ key, m.get? key = lookup key) : Shown lookup m.keys (.ofMap m) (Value.ofMap m).text := by
  obtain rfl : m.get? = lookup := funext h
  refine ⟨m.keys_ascending,⟨m.entries,rfl,rfl,m.lists_entries.mem_iff⟩,fun h => ?_,rfl,fun h =>
    ⟨(mergeSort_of_lists h).symm,congrArg Value.ofMap (ofList_of_lists h).symm⟩⟩
  rw [h]
  exact Json.Value.text_object _

/-! ## States -/

/-- What is not symbolic is not found. -/
def Ledger.get? (l : Ledger) (key : String) : Option Value :=
  (Key.ofString? key).bind fun k => l.entries.lookup k

namespace State

theorem Keeps.get?_eq {s : State} {l : Ledger} (h : s.Keeps l) (key : String) :
    s.get? key = l.get? key := by
  unfold Ledger.get?
  cases hk : Key.ofString? key with
  | some k =>
    obtain rfl := Key.raw_of_ofString? hk
    exact h.get?_raw k
  | none => exact get?_of_not_symbolic (Key.ofString?_eq_none_iff.1 hk) s

/-- The two states are shown alike, and so are the faults and records that tell of them. -/
structure ShownAlike (s t : State) : Prop where
  keys : s.keys = t.keys
  value : s.value = t.value
  text : s.text = t.text
  refusal {ι : Type} (g : Gate) (forest forest' : Forest ι) :
    (g.check ⟨s, forest⟩).result = (g.check ⟨t, forest'⟩).result
  record {ι : Type} (family : Family ι) (site : Site ι) (i : Instruction ι) :
    site.record family i s = site.record family i t

theorem shownAlike_of_get? {s t : State} (h : ∀ key, s.get? key = t.get? key) :
    s.ShownAlike t := by
  obtain ⟨data,failed,hs⟩ := s
  obtain ⟨data',failed',ht⟩ := t
  obtain rfl : data = data' := SortedMap.ext h
  refine ⟨rfl,rfl,rfl,fun g forest forest' => ?_,fun _ _ _ => rfl⟩
  have hmissing : g.missing? ⟨data, failed, hs⟩ = g.missing? ⟨data, failed', ht⟩ := rfl
  rw [Gate.check_apply, Gate.check_apply, hmissing]
  cases g.missing? ⟨data, failed', ht⟩ <;> rfl

end State

/-! ## Options -/

namespace Options

inductive Operation where
  | insert (key : String) (value : Value)
  /-- Takes the value in place of what there is, unless it is refused. -/
  | ofValue (value : Value)
  /-- Takes the fields of an object in place of what there is. -/
  | ofFields (fields : List (String × Value))

def perform (o : Options) : Operation → Options
  | .insert key value => o.insert key value
  | .ofValue value => (ofValue value).toOption.getD o
  | .ofFields fields => ofList fields

def of (ops : List Operation) : Options := ops.foldl perform empty

abbrev Contents := Finmap fun _ : String => Value

namespace Contents

def ofFields (fields : List (String × Value)) : Contents :=
  fields.foldl (fun m e => m.insert e.1 e.2) ∅

def perform (m : Contents) : Operation → Contents
  | .insert key value => m.insert key value
  | .ofValue (.object fields) | .ofFields fields => ofFields fields
  | .ofValue .null => ∅
  | .ofValue _ => m

/-- What the operations leave in a finite map. -/
def of (ops : List Operation) : Contents := ops.foldl perform ∅

end Contents

theorem Contents.lookup_insert (m : Contents) (key k : String) (value : Value) :
    (m.insert key value).lookup k = if key = k then some value else m.lookup k := by
  by_cases h : key = k
  · subst h
    rw [if_pos rfl, Finmap.lookup_insert]
  · rw [if_neg h, Finmap.lookup_insert_of_ne _ (Ne.symm h)]

theorem get?_ofList (fields : List (String × Value)) (key : String) :
    (ofList fields).get? key = (Contents.ofFields fields).lookup key := by
  induction fields using List.reverseRecOn with
  | nil => rfl
  | append_singleton fields e ih =>
    have hstep : Contents.ofFields (fields ++ [e]) = (Contents.ofFields fields).insert e.1 e.2 :=
      List.foldl_append
    rw [hstep, Contents.lookup_insert, ← ih]
    exact SortedMap.get?_ofList_concat fields e.1 key e.2

/-- By induction on the operations: each leaves in the options what it leaves in the map. -/
theorem get?_of (ops : List Operation) (key : String) :
    (of ops).get? key = (Contents.of ops).lookup key := by
  induction ops using List.reverseRecOn with
  | nil => rfl
  | append_singleton ops op ih =>
    have hstep : of (ops ++ [op]) = (of ops).perform op := List.foldl_append
    have hcontents : Contents.of (ops ++ [op]) = (Contents.of ops).perform op := List.foldl_append
    rw [hstep, hcontents]
    cases op with
    | insert k value =>
      refine (get?_insert _ k key value).trans ?_
      rw [ih]
      exact (Contents.lookup_insert _ k key value).symm
    | ofFields fields => exact get?_ofList fields key
    | ofValue value =>
      cases value with
      | object fields => exact get?_ofList fields key
      | null => rfl
      | bool _ | number _ | string _ | array _ => exact ih

theorem shown (ops : List Operation) :
    Shown (Contents.of ops).lookup (of ops).entries.keys (of ops).value (of ops).text :=
  SortedMap.shown (get?_of ops)

theorem of_congr {ops ops' : List Operation} (h : Contents.of ops = Contents.of ops') :
    of ops = of ops' :=
  ext (SortedMap.ext fun key => by
    rw [← get?, get?_of, h, ← get?_of, get?])

theorem beq_self_of_finite {o : Options}
    (h : ∀ key v, o.get? key = some v → v.Finite) : (o == o) = true := by
  refine Json.Value.Finite.beq_self (.object fun e he => h e.1 e.2 ?_)
  exact (o.entries.lists_entries.mem_iff e.1 e.2).1 he

theorem ofValue_eq_error_iff {v : Value} {f : Fault} : ofValue v = .error f ↔
    v ≠ .null ∧ (∀ fields, v ≠ .object fields) ∧ f = .argument (.notAnObject v) := by
  cases v <;> simp [ofValue, eq_comm]

end Options

/-! ## All that is shown -/

/-- Whatever was set and removed in a state, it is shown by what is left of it in a finite map, in
ascending order of the keys, and states with the same contents are shown alike. So it is of options,
however they were built: with the same contents they are the same options, and equal to each other
if all their numbers are finite. Options are read back from their object, and all values are refused
but objects and `null`. -/
theorem shown_by_contents :
    (∀ h : History, Shown h.ledger.get? h.state.keys h.state.value h.state.text) ∧
    (∀ h h' : History, h.ledger.entries = h'.ledger.entries → h.state.ShownAlike h'.state) ∧
    (∀ s t : State, (∀ key, s.get? key = t.get? key) → s.ShownAlike t) ∧
    (∀ ops, Shown (Options.Contents.of ops).lookup (Options.of ops).entries.keys
      (Options.of ops).value (Options.of ops).text) ∧
    (∀ ops ops', Options.Contents.of ops = Options.Contents.of ops' →
      Options.of ops = Options.of ops' ∧
      ((∀ key v, (Options.Contents.of ops).lookup key = some v → v.Finite) →
        (Options.of ops == Options.of ops') = true)) ∧
    (∀ o : Options, Options.ofValue o.value = .ok o) ∧
    ∀ v f, Options.ofValue v = .error f ↔
      v ≠ .null ∧ (∀ fields, v ≠ .object fields) ∧ f = .argument (.notAnObject v) := by
  refine ⟨fun h => SortedMap.shown h.keeps.get?_eq,fun h h' he => ?_,
    fun _ _ => State.shownAlike_of_get?,Options.shown,fun ops ops' he => ?_,Options.ofValue_value,
    fun _ _ => Options.ofValue_eq_error_iff⟩
  · refine State.shownAlike_of_get? fun key => ?_
    rw [h.keeps.get?_eq, h'.keeps.get?_eq, Ledger.get?, he]
    rfl
  · have hsame := Options.of_congr he
    refine ⟨hsame,fun hfinite => ?_⟩
    rw [← hsame]
    refine Options.beq_self_of_finite fun key v hv => hfinite key v ?_
    rw [← Options.get?_of, hv]

theorem shown_by_contents_overwritten :
    let a : Key := ⟨"a", by decide⟩
    let b : Key := ⟨"b", by decide⟩
    let h : History := { operations := [.set (.key b) .null, .remove "b", .set (.key a) (.bool true),
      .fail, .set (.key b) (.int 1)] }
    let h' : History := { operations := [.set (.key b) (.int 1), .set (.spelling "b a") .null,
      .set (.spelling "a") (.bool true)] }
    let ops : List Options.Operation := [.insert "b" .null, .insert "a" (.bool true),
      .insert "b" (.int 1)]
    let ops' : List Options.Operation := [.insert "c" .null,
      .ofValue (.object [("b", .int 1), ("a", .bool true)]), .ofValue (.int 1)]
    h.ledger.entries = h'.ledger.entries ∧ h.state.ShownAlike h'.state ∧
    h.state.keys = ["a", "b"] ∧ h.state.text = "\x7b\"a\":true,\"b\":1\x7d" ∧
    (Options.of ops).text = h.state.text ∧ Options.Contents.of ops = Options.Contents.of ops' ∧
    (∀ key v, (Options.Contents.of ops).lookup key = some v → v.Finite) ∧
    (Options.of ops == Options.of ops') = true := by
  intro a b h h' ops ops'
  obtain ⟨_,hstates,_,_,hoptions,_⟩ := shown_by_contents
  have hab : a ≠ b := by decide
  have hentries : h.ledger.entries = h'.ledger.entries := Finmap.insert_insert_of_ne ∅ hab
  have hcontents : Options.Contents.of ops = Options.Contents.of ops' :=
    Finmap.insert_insert_of_ne _ (by decide : "a" ≠ "b")
  have hfinite : ∀ key v, (Options.Contents.of ops).lookup key = some v → v.Finite := by
    intro key v hv
    rw [← Options.get?_of] at hv
    have he : (key, v) ∈ [("a", Value.bool true), ("b", Value.int 1)] :=
      ((Options.of ops).entries.lists_entries.mem_iff key v).2 hv
    rcases List.mem_pair.1 he with he | he
    · cases he
      exact .bool true
    · cases he
      exact .int 1
  exact ⟨hentries,hstates h h' hentries,by decide +kernel,by decide +kernel,by decide +kernel,
    hcontents,hfinite,(hoptions ops ops' hcontents).2 hfinite⟩

end Cascade
