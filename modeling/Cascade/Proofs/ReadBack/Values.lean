import Mathlib.Data.List.DropRight
import Mathlib.Data.List.Forall2
import Cascade.Proofs.ReadBack.Parts

/-! # Values are read back

Values without floats. The text of such a value is read as one node, whatever comes behind it that
does not go on with digits, and the reader stops where the text ends. This goes by induction on the
value: what stands in a list or an object is followed by a comma or a closing bracket. The node has
that value if as many levels are allowed as the value is nested deep, and none if fewer are.
-/
namespace Cascade.Json

namespace Value

/-- No floats at any depth, all integers fit a word, and fields are in key order, each key once. -/
inductive Plain : Value → Prop where
  | null : Plain .null
  | bool (b : Bool) : Plain (.bool b)
  | int {n : Int} (h : FitsWord n) : Plain (.int n)
  | string (s : String) : Plain (.string s)
  | array {items : List Value} (h : ∀ v ∈ items, Plain v) : Plain (.array items)
  | object {fields : List (String × Value)} (ordered : Entries.Ascending fields)
    (h : ∀ e ∈ fields, Plain e.2) : Plain (.object fields)

mutual

/-- How many arrays and objects are within each other at most, the value itself counted. -/
def nesting : Value → Nat
  | array items => itemsNesting items + 1
  | object fields => fieldsNesting fields + 1
  | _ => 0

def itemsNesting : List Value → Nat
  | [] => 0
  | v :: rest => max (nesting v) (itemsNesting rest)

def fieldsNesting : List (String × Value) → Nat
  | [] => 0
  | (_, v) :: rest => max (nesting v) (fieldsNesting rest)

end

/-! ## Nodes of a value -/

/-- The node has this value if enough levels are allowed, and else it has none. -/
def SpelledBy (v : Value) (node : Node) : Prop :=
  ∀ depth, node.value? depth = if v.nesting ≤ depth then some v else none

def FieldSpelledBy (e : String × Value) (field : Literal × Node) : Prop :=
  field.1.string? = some e.1 ∧ e.2.SpelledBy field.2

theorem SpelledBy.inj {v w : Value} {node : Node} (hv : v.SpelledBy node)
    (hw : w.SpelledBy node) : v = w := by
  have h := hv (max v.nesting w.nesting)
  rw [hw, if_pos (Nat.le_max_left _ _), if_pos (Nat.le_max_right _ _)] at h
  exact (Option.some.inj h).symm

theorem values?_of_spelledBy {items : List Value} {nodes : List Node}
    (h : List.Forall₂ SpelledBy items nodes) (depth : Nat) :
    Node.values? depth nodes = if itemsNesting items ≤ depth then some items else none := by
  induction h with
  | nil => rfl
  | @cons v node vs nodes hv _ ih =>
    simp only [Node.values?, hv depth, ih, itemsNesting, Nat.max_le]
    by_cases hn : v.nesting ≤ depth <;> by_cases hr : itemsNesting vs ≤ depth <;> simp [hn, hr]

/-- A key that is behind all others is added at the end. -/
theorem insert_concat {entries : List (String × Value)} {k : String} {v : Value}
    (h : ∀ e ∈ entries, e.1 < k) : Entries.insert k v entries = entries ++ [(k, v)] := by
  induction entries with
  | nil => rfl
  | cons e rest ih =>
    obtain ⟨l,w⟩ := e
    have hl : l < k := h (l, w) List.mem_cons_self
    have hlt : ¬ k < l := fun hk => String.lt_irrefl k (String.lt_trans hk hl)
    rw [Entries.insert, if_neg hlt, if_neg (String.ne_of_lt hl),
      ih fun e he => h e (List.mem_cons_of_mem _ he)]
    rfl

theorem entries?_of_spelledBy {fields : List (String × Value)} {nodes : List (Literal × Node)}
    (h : List.Forall₂ FieldSpelledBy fields nodes) (depth : Nat)
    (before : List (String × Value)) (ho : Entries.Ascending (before ++ fields)) :
    Node.entries? depth before nodes =
      if fieldsNesting fields ≤ depth then some (before ++ fields) else none := by
  induction h generalizing before with
  | nil => simp [Node.entries?, fieldsNesting]
  | @cons e field fs nodes he _ ih =>
    obtain ⟨k,v⟩ := e
    obtain ⟨name,node⟩ := field
    obtain ⟨hname,hv⟩ : name.string? = some k ∧ v.SpelledBy node := he
    have hbefore : ∀ e ∈ before, e.1 < k :=
      fun e he => (List.pairwise_append.1 ho).2.2 e he (k, v) List.mem_cons_self
    have hrest := ih (before ++ [(k, v)]) (by simpa using ho)
    simp only [Node.entries?, hname, hv depth, fieldsNesting, Nat.max_le]
    by_cases hn : v.nesting ≤ depth <;> by_cases hr : fieldsNesting fs ≤ depth <;>
      simp [insert_concat hbefore, hrest, hn, hr]

theorem spelledBy_array {items : List Value} {nodes : List Node}
    (h : List.Forall₂ SpelledBy items nodes) : (array items).SpelledBy (.array nodes) := by
  intro depth
  cases depth with
  | zero => simp [Node.value?, nesting]
  | succ depth =>
    rw [Node.value?, values?_of_spelledBy h, nesting]
    by_cases hn : itemsNesting items ≤ depth <;> simp [hn]

theorem spelledBy_object {fields : List (String × Value)} {nodes : List (Literal × Node)}
    (ho : Entries.Ascending fields) (h : List.Forall₂ FieldSpelledBy fields nodes) :
    (object fields).SpelledBy (.object nodes) := by
  intro depth
  cases depth with
  | zero => simp [Node.value?, nesting]
  | succ depth =>
    rw [Node.value?, entries?_of_spelledBy h depth [] ho, nesting]
    by_cases hn : fieldsNesting fields ≤ depth <;> simp [hn]

end Value

/-! ## Readers -/

theorem skipBlanks_skipBlanks (cs : List Char) : skipBlanks (skipBlanks cs) = skipBlanks cs :=
  List.dropWhile_idempotent isBlank cs

theorem readItems_skipBlanks (n : Nat) (cs : List Char) :
    readItems n (skipBlanks cs) = readItems n cs := by
  have hnode : ∀ n, readNode n (skipBlanks cs) = readNode n cs := by
    intro n
    cases n with
    | zero => rfl
    | succ n => rw [readNode, readNode, skipBlanks_skipBlanks]
  cases n with
  | zero => rfl
  | succ n => rw [readItems, readItems, hnode]

theorem readFields_skipBlanks (n : Nat) (cs : List Char) :
    readFields n (skipBlanks cs) = readFields n cs := by
  cases n with
  | zero => rfl
  | succ n => rw [readFields, readFields, readName, readName, skipBlanks_skipBlanks]

/-- A numeral starts with a sign or a digit, so it is taken for nothing else. -/
theorem readNode_numeral {cs rest : List Char} {numeral : Numeral}
    (h : readNumeral cs = some (numeral, rest)) (n : Nat) :
    readNode (n + 1) cs = some (.number numeral, rest) := by
  have hblank : skipBlanks cs = cs := by
    cases cs with
    | nil => rfl
    | cons c cs =>
      refine List.dropWhile_cons_of_neg fun hc => ?_
      simp only [isBlank, Bool.or_eq_true, decide_eq_true_eq] at hc
      rcases hc with ((rfl | rfl) | rfl) | rfl <;> cases h
  rw [readNode, hblank]
  split
  case h_7 =>
    rw [h]
    rfl
  all_goals cases h

theorem readNode_string {cs rest : List Char} {l : Literal}
    (h : readLiteral cs = some (l, rest)) (n : Nat) :
    readNode (n + 1) ('"' :: cs) = some (.string l, rest) := by
  have hquote : skipBlanks ('"' :: cs) = '"' :: cs := rfl
  rw [readNode, hquote]
  simp only [h, Option.bind_eq_bind, Option.bind_some]
  rfl

/-- No item starts with a closing bracket, so a list with items is not taken for an empty one. -/
theorem readNode_array {n : Nat} {cs rest : List Char} {nodes : List Node}
    (h : readItems n cs = some (nodes, rest)) :
    readNode (n + 1) ('[' :: cs) = some (.array nodes, rest) := by
  have hopen : skipBlanks ('[' :: cs) = '[' :: cs := rfl
  rw [← readItems_skipBlanks] at h
  simp only [readNode, hopen]
  split
  · -- A closing bracket is no item, so none was read.
    rename_i more hclose
    rw [hclose] at h
    match n with
    | 0 | 1 | n + 2 => cases h
  · rw [h]
    rfl

theorem readNode_object {n : Nat} {cs rest : List Char} {fields : List (Literal × Node)}
    (h : readFields n cs = some (fields, rest)) :
    readNode (n + 1) ('\x7b' :: cs) = some (.object fields, rest) := by
  have hopen : skipBlanks ('\x7b' :: cs) = '\x7b' :: cs := rfl
  rw [← readFields_skipBlanks] at h
  simp only [readNode, hopen]
  split
  · rename_i more hclose
    rw [hclose] at h
    match n with
    | 0 | n + 1 => cases h
  · rw [h]
    rfl

theorem readItems_last {n : Nat} {cs rest : List Char} {node : Node}
    (h : readNode n cs = some (node, ']' :: rest)) :
    readItems (n + 1) cs = some ([node], rest) := by
  have hclose : skipBlanks (']' :: rest) = ']' :: rest := rfl
  simp only [readItems, h, Option.bind_eq_bind, Option.bind_some, hclose]
  rfl

theorem readItems_more {n : Nat} {cs more rest : List Char} {node : Node} {nodes : List Node}
    (h : readNode n cs = some (node, ',' :: more)) (hmore : readItems n more = some (nodes, rest)) :
    readItems (n + 1) cs = some (node :: nodes, rest) := by
  have hcomma : skipBlanks (',' :: more) = ',' :: more := rfl
  simp only [readItems, h, Option.bind_eq_bind, Option.bind_some, hcomma, hmore]
  rfl

theorem readName_literal {cs rest : List Char} {name : Literal}
    (h : readLiteral cs = some (name, ':' :: rest)) :
    readName ('"' :: cs) = some (name, rest) := by
  have hquote : skipBlanks ('"' :: cs) = '"' :: cs := rfl
  have hcolon : skipBlanks (':' :: rest) = ':' :: rest := rfl
  simp only [readName, hquote, h, Option.bind_eq_bind, Option.bind_some, hcolon]
  rfl

theorem readFields_last {n : Nat} {cs text rest : List Char} {name : Literal} {node : Node}
    (hname : readName cs = some (name, text)) (h : readNode n text = some (node, '\x7d' :: rest)) :
    readFields (n + 1) cs = some ([(name, node)], rest) := by
  have hclose : skipBlanks ('\x7d' :: rest) = '\x7d' :: rest := rfl
  simp only [readFields, hname, h, Option.bind_eq_bind, Option.bind_some, hclose]
  rfl

theorem readFields_more {n : Nat} {cs text more rest : List Char} {name : Literal} {node : Node}
    {fields : List (Literal × Node)} (hname : readName cs = some (name, text))
    (h : readNode n text = some (node, ',' :: more))
    (hmore : readFields n more = some (fields, rest)) :
    readFields (n + 1) cs = some ((name, node) :: fields, rest) := by
  have hcomma : skipBlanks (',' :: more) = ',' :: more := rfl
  simp only [readFields, hname, h, Option.bind_eq_bind, Option.bind_some, hcomma, hmore]
  rfl

/-! ## Texts -/

/-- Wherever the text stands, a reader with enough fuel reads the node and stops where it ends. -/
def ReadAs (cs : List Char) (node : Node) : Prop :=
  ∀ n rest, 2 * cs.length ≤ n → Ends rest → readNode n (cs ++ rest) = some (node, rest)

namespace Value

/-- The text of the value is read as a node that has the value. -/
def Legible (v : Value) : Prop := ∃ node, ReadAs v.chars node ∧ v.SpelledBy node

theorem legible_of_scalar {v : Value} (node : Node)
    (hread : ∀ n rest, Ends rest → readNode (n + 1) (v.chars ++ rest) = some (node, rest))
    (hchars : v.chars ≠ []) (hv : v.SpelledBy node) : v.Legible := by
  refine ⟨node,fun n rest hn hrest => ?_,hv⟩
  have hlength : 0 < v.chars.length := List.length_pos_iff.2 hchars
  cases n with
  | zero => omega
  | succ n => exact hread n rest hrest

theorem legible_int {n : Int} (h : FitsWord n) : (int n).Legible := by
  refine legible_of_scalar _ (fun m rest hrest => readNode_numeral (readNumeral_intText n hrest) m)
    ?_ fun depth => ?_
  · show intText n ≠ []
    unfold intText
    split
    · exact List.cons_ne_nil _ _
    · exact Nat.toDigits_ne_nil
  · rw [Node.value?, number?_ofInt h]
    rfl

theorem legible_string (s : String) : (string s).Legible := by
  obtain ⟨l,hl,hread⟩ := exists_literal s
  refine legible_of_scalar (.string l) (fun n rest _ => ?_) (List.cons_ne_nil _ _)
    fun depth => ?_
  · have hquoted : (string s).chars ++ rest =
        '"' :: (s.toList.flatMap escaped ++ '"' :: rest) := by
      simp [chars, quoted]
    rw [hquoted]
    exact readNode_string (hread rest) n
  · rw [Node.value?, hl]
    rfl

theorem itemChars_more (v w : Value) (ws : List Value) :
    itemChars (v :: w :: ws) = v.chars ++ ',' :: itemChars (w :: ws) := rfl

/-- By induction on the items: each is followed by a comma or by the closing bracket. -/
theorem exists_items {items : List Value} (hne : items ≠ []) (h : ∀ v ∈ items, v.Legible) :
    ∃ nodes, List.Forall₂ SpelledBy items nodes ∧ ∀ n rest, 2 * (itemChars items).length ≤ n →
      readItems n (itemChars items ++ rest) = some (nodes, rest) := by
  induction items with
  | nil => exact absurd rfl hne
  | cons v vs ih =>
    obtain ⟨node,hread,hv⟩ := h v List.mem_cons_self
    cases vs with
    | nil =>
      refine ⟨[node],.cons hv .nil,fun n rest hn => ?_⟩
      rw [itemChars, List.length_append, List.length_singleton] at hn
      rw [itemChars, List.append_assoc]
      match n with
      | n + 1 => exact readItems_last (hread n (']' :: rest) (by omega) (ends_cons (by simp) rest))
    | cons w ws =>
      obtain ⟨nodes,hws,hitems⟩ :=
        ih (List.cons_ne_nil w ws) fun u hu => h u (List.mem_cons_of_mem v hu)
      refine ⟨node :: nodes,.cons hv hws,fun n rest hn => ?_⟩
      -- One unit of fuel is spent here, and the comma alone pays for it.
      rw [itemChars_more, List.length_append, List.length_cons] at hn
      rw [itemChars_more, List.append_assoc]
      match n with
      | n + 1 =>
        have hmore := hitems n rest (by omega)
        exact readItems_more (hread n _ (by omega) (ends_cons (by simp) _)) hmore

theorem fieldChars_last (k : String) (v : Value) (rest : List Char) :
    fieldChars [(k, v)] ++ rest =
      '"' :: (k.toList.flatMap escaped ++ '"' :: ':' :: (v.chars ++ '\x7d' :: rest)) := by
  simp [fieldChars, quoted]

theorem fieldChars_more (k : String) (v : Value) (e : String × Value)
    (es : List (String × Value)) (rest : List Char) :
    fieldChars ((k, v) :: e :: es) ++ rest = '"' :: (k.toList.flatMap escaped ++
      '"' :: ':' :: (v.chars ++ ',' :: (fieldChars (e :: es) ++ rest))) := by
  simp [fieldChars, quoted]

theorem exists_fields {fields : List (String × Value)} (hne : fields ≠ [])
    (h : ∀ e ∈ fields, e.2.Legible) :
    ∃ nodes, List.Forall₂ FieldSpelledBy fields nodes ∧
      ∀ n rest, 2 * (fieldChars fields).length ≤ n →
        readFields n (fieldChars fields ++ rest) = some (nodes, rest) := by
  induction fields with
  | nil => exact absurd rfl hne
  | cons e es ih =>
    obtain ⟨k,v⟩ := e
    obtain ⟨node,hread,hv⟩ : v.Legible := h (k, v) List.mem_cons_self
    obtain ⟨name,hk,hname⟩ := exists_literal k
    cases es with
    | nil =>
      refine ⟨[(name, node)],.cons ⟨hk,hv⟩ .nil,fun n rest hn => ?_⟩
      have hlength := congrArg List.length (fieldChars_last k v [])
      simp only [List.append_nil, List.length_cons, List.length_append] at hlength
      rw [fieldChars_last]
      match n with
      | n + 1 =>
        have hvalue := hread n ('\x7d' :: rest) (by omega) (ends_cons (by simp) rest)
        exact readFields_last (readName_literal (hname _)) hvalue
    | cons d ds =>
      obtain ⟨nodes,hds,hfields⟩ :=
        ih (List.cons_ne_nil d ds) fun e he => h e (List.mem_cons_of_mem _ he)
      refine ⟨(name, node) :: nodes,.cons ⟨hk,hv⟩ hds,fun n rest hn => ?_⟩
      have hlength := congrArg List.length (fieldChars_more k v d ds [])
      simp only [List.append_nil, List.length_cons, List.length_append] at hlength
      rw [fieldChars_more]
      match n with
      | n + 1 =>
        have hmore := hfields n rest (by omega)
        have hvalue := hread n (',' :: (fieldChars (d :: ds) ++ rest)) (by omega)
          (ends_cons (by simp) _)
        exact readFields_more (readName_literal (hname _)) hvalue hmore

theorem legible_array {items : List Value} (h : ∀ v ∈ items, v.Legible) :
    (array items).Legible := by
  cases items with
  | nil =>
    exact legible_of_scalar _ (fun _ _ _ => rfl) (List.cons_ne_nil _ _) (spelledBy_array .nil)
  | cons v vs =>
    obtain ⟨nodes,hnodes,hread⟩ := exists_items (List.cons_ne_nil v vs) h
    refine ⟨.array nodes,fun n rest hn _ => ?_,spelledBy_array hnodes⟩
    rw [chars, List.length_cons] at hn
    match n with
    | n + 1 => exact readNode_array (hread n rest (by omega))

theorem legible_object {fields : List (String × Value)} (ho : Entries.Ascending fields)
    (h : ∀ e ∈ fields, e.2.Legible) : (object fields).Legible := by
  cases fields with
  | nil =>
    exact legible_of_scalar _ (fun _ _ _ => rfl) (List.cons_ne_nil _ _) (spelledBy_object ho .nil)
  | cons e es =>
    obtain ⟨nodes,hnodes,hread⟩ := exists_fields (List.cons_ne_nil e es) h
    refine ⟨.object nodes,fun n rest hn _ => ?_,spelledBy_object ho hnodes⟩
    rw [chars, List.length_cons] at hn
    match n with
    | n + 1 => exact readNode_object (hread n rest (by omega))

theorem Plain.legible {v : Value} (h : v.Plain) : v.Legible := by
  induction h with
  | null => exact legible_of_scalar _ (fun _ _ _ => rfl) (List.cons_ne_nil _ _) fun _ => rfl
  | bool b =>
    cases b <;> exact legible_of_scalar _ (fun _ _ _ => rfl) (List.cons_ne_nil _ _) fun _ => rfl
  | int h => exact legible_int h
  | string s => exact legible_string s
  | array _ ih => exact legible_array ih
  | object ordered _ ih => exact legible_object ordered ih

/-- The whole text of the value is read as a node that has the value. -/
theorem Plain.exists_node {v : Value} (h : v.Plain) :
    ∃ node, Node.ofText? v.text = some node ∧ v.SpelledBy node := by
  obtain ⟨node,hread,hv⟩ := h.legible
  refine ⟨node,?_,hv⟩
  have hall := hread (2 * v.text.length + 1) [] (by simp [text, String.length_ofList]) ends_nil
  rw [List.append_nil] at hall
  have hchars : v.text.toList = v.chars := String.toList_ofList
  unfold Node.ofText?
  rw [hchars, hall]
  rfl

end Value

end Cascade.Json
