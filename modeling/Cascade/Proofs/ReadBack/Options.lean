import Cascade.Proofs.Contents
import Cascade.Proofs.ReadBack.Values

/-! # Options are read back

Options without floats are the same after they were written and read, and no other such options have
their text. Reading allows 127 levels, of which the options themselves are the first.
-/
namespace Cascade

open Json (Value)

theorem Json.Value.Plain.finite {v : Value} (h : v.Plain) : v.Finite := by
  induction h with
  | null => exact .null
  | bool b => exact .bool b
  | int _ => exact .int _
  | string s => exact .string s
  | array _ ih => exact .array ih
  | object _ _ ih => exact .object ih

namespace Options

/-- All values are plain: no floats at any depth, and integers that fit a word. -/
def Plain (o : Options) : Prop := ∀ e ∈ o.entries.entries, e.2.Plain

/-- The options themselves are one level. -/
def nesting (o : Options) : Nat := o.value.nesting

variable {o o' : Options}

theorem Plain.value (h : o.Plain) : o.value.Plain := .object o.entries.ascending h

theorem Plain.beq_self (h : o.Plain) : (o == o) = true :=
  Json.Value.Finite.beq_self h.value.finite

theorem Plain.insert (h : o.Plain) {key : String} {v : Value} (hv : v.Plain) :
    (o.insert key v).Plain := by
  intro e he
  rcases Entries.mem_insert he with rfl | he
  · exact hv
  · exact h e he

theorem value_inj (h : o.value = o'.value) : o = o' := by
  have hvalue := congrArg ofValue h
  rw [ofValue_value, ofValue_value] at hvalue
  exact Except.ok.inj hvalue

theorem Plain.text_inj (ho : o.Plain) (ho' : o'.Plain) (h : o.text = o'.text) : o = o' := by
  obtain ⟨node,hread,hnode⟩ := ho.value.exists_node
  obtain ⟨node',hread',hnode'⟩ := ho'.value.exists_node
  have hsame : node = node' := by
    have htext : o.value.text = o'.value.text := h
    rw [htext, hread'] at hread
    exact (Option.some.inj hread).symm
  exact value_inj (hnode.inj (hsame ▸ hnode'))

theorem Plain.ofText?_text (h : o.Plain) :
    ofText? o.text = if o.nesting ≤ 127 then some o else none := by
  obtain ⟨node,hread,hnode⟩ := h.value.exists_node
  have hvalue : Value.ofText? o.text = if o.nesting ≤ 127 then some o.value else none := by
    show (Json.Node.ofText? o.value.text).bind (Json.Node.value? 127) = _
    rw [hread]
    exact hnode 127
  have hfields : ofList o.entries.entries = o := congrArg Options.mk o.entries.ofList_entries
  rw [ofText?, hvalue]
  by_cases hn : o.nesting ≤ 127
  · rw [if_pos hn, if_pos hn]
    exact congrArg some hfields
  · rw [if_neg hn, if_neg hn]

/-- Plain options are read from their text as what they are, and equal to it, if they are nested at
most 127 deep; deeper ones are refused. With the same text they are the same options. -/
theorem text_read_back (h : o.Plain) :
    ofText? o.text = (if o.nesting ≤ 127 then some o else none) ∧ (o == o) = true ∧
    ∀ o' : Options, o'.Plain → o.text = o'.text → o = o' ∧ (o == o') = true := by
  refine ⟨h.ofText?_text,h.beq_self,fun o' h' htext => ?_⟩
  obtain rfl := h.text_inj h' htext
  exact ⟨rfl,h.beq_self⟩

theorem text_read_back_mixed :
    let deep : Value :=
      .array [.int (-9223372036854775808), .int 18446744073709551615, .array [], .object []]
    let inner : Value := .object [("a", deep), ("b", .bool false)]
    let text : Value := .string "\"\\/\n\x01\x7fé😀"
    let o := ((empty.insert "z" text).insert "" .null).insert "\t" inner
    let o' := (((empty.insert "\t" inner).insert "z" .null).insert "" .null).insert "z" text
    o.Plain ∧ o'.Plain ∧ o.nesting = 4 ∧ o.text = o'.text ∧
    ofText? o.text = some o ∧ o = o' ∧ (o == o') = true := by
  intro deep inner text o o'
  have hdeep : deep.Plain := .array (List.forall_mem_cons.2 ⟨.int ⟨by decide,by decide⟩,
    List.forall_mem_cons.2 ⟨.int ⟨by decide,by decide⟩,List.forall_mem_cons.2 ⟨.array nofun,
      List.forall_mem_singleton.2 (.object .nil nofun)⟩⟩⟩)
  have hinner : inner.Plain := .object (by decide)
    (List.forall_mem_cons.2 ⟨hdeep,List.forall_mem_singleton.2 (.bool false)⟩)
  have hempty : empty.Plain := nofun
  have ho : o.Plain := ((hempty.insert (.string _)).insert .null).insert hinner
  have ho' : o'.Plain := (((hempty.insert hinner).insert .null).insert .null).insert (.string _)
  have hnesting : o.nesting = 4 := by decide +kernel
  have htext : o.text = o'.text := by decide +kernel
  obtain ⟨hread,_,hsame⟩ := text_read_back ho
  rw [hnesting] at hread
  exact ⟨ho,ho',hnesting,htext,hread,hsame o' ho' htext⟩

end Options

end Cascade
